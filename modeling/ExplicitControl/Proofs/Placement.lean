import ExplicitControl.Proofs.Jumps
import ExplicitControl.Tree.Basic

/-!
# Statements where statements belong

In a well-placed tree no statement stands where an expression is expected, nor an expression where a
statement is.  Work on statements is then never pending in the middle of an expression, so between such work
and the end of its function no other call comes to its end.  That is what keeps `return` from dropping the end
of a call that it does not belong to.
-/

namespace ExplicitControl

/-! ## 1. Well-placed trees -/

namespace NodeKind

/-- The children of which a statement is expected.  The head of a `for` may be either, so it is in neither
list. -/
def statements : NodeKind → List NodeId
  | program body | block body => body
  | ifStatement _ consequent alternate => consequent :: alternate.toList
  | whileLoop _ body | forLoop _ _ _ body => [body]
  | function _ _ (.block body) => body
  | _ => []

def expressions : NodeKind → List NodeId
  | program _ | block _ | breakStatement | continueStatement | debuggerStatement => []
  | ifStatement test _ _ | whileLoop test _ => [test]
  | forLoop _ test update _ => test.toList ++ update.toList
  | function _ _ (.block _) => []
  -- Among these is a function whose body is an expression.
  | kind => kind.children

end NodeKind

namespace Tree

def isStatement (t : Tree) (id : NodeId) : Bool :=
  (t.kind? id).any NodeKind.isStatement

def isExpression (t : Tree) (id : NodeId) : Bool :=
  (t.kind? id).any fun kind => !kind.isStatement

def WellPlaced (t : Tree) : Prop :=
  ∀ node ∈ t.nodes.toList, (∀ id ∈ node.kind.statements, t.isStatement id = true) ∧
    ∀ id ∈ node.kind.expressions, t.isExpression id = true

instance (t : Tree) : Decidable t.WellPlaced :=
  inferInstanceAs (Decidable (∀ node ∈ t.nodes.toList, _ ∧ _))

theorem isStatement_of_kind {t : Tree} {id : NodeId} {kind : NodeKind} (h : t.kind? id = some kind) :
    t.isStatement id = kind.isStatement := by
  rw [isStatement, h, Option.any_some]

theorem kind_of_isStatement {t : Tree} {id : NodeId} (h : t.isStatement id = true) :
    ∃ kind, t.kind? id = some kind ∧ kind.isStatement = true := by
  unfold isStatement at h
  cases hkind : t.kind? id with
  | none => rw [hkind] at h; cases h
  | some kind => exact ⟨kind, rfl, by rwa [hkind] at h⟩

theorem kind_of_isExpression {t : Tree} {id : NodeId} (h : t.isExpression id = true) :
    ∃ kind, t.kind? id = some kind ∧ kind.isStatement = false := by
  unfold isExpression at h
  cases hkind : t.kind? id with
  | none => rw [hkind] at h; cases h
  | some kind => exact ⟨kind, rfl, by simpa [hkind] using h⟩

theorem WellPlaced.isExpression {t : Tree} (ht : t.WellPlaced) {id : NodeId} {kind : NodeKind}
    (hkind : t.kind? id = some kind) {child : NodeId} (hchild : child ∈ kind.expressions) :
    t.isExpression child = true := by
  obtain ⟨node, hnode, rfl⟩ := Option.map_eq_some_iff.mp hkind
  exact (ht node (Array.mem_toList_iff.mpr (Array.mem_of_getElem? hnode))).2 child hchild

theorem WellPlaced.isStatement {t : Tree} (ht : t.WellPlaced) {id : NodeId} {kind : NodeKind}
    (hkind : t.kind? id = some kind) {child : NodeId} (hchild : child ∈ kind.statements) :
    t.isStatement child = true := by
  obtain ⟨node, hnode, rfl⟩ := Option.map_eq_some_iff.mp hkind
  exact (ht node (Array.mem_toList_iff.mpr (Array.mem_of_getElem? hnode))).1 child hchild

/-- In a well-placed tree, no statement stands where an expression is expected. -/
theorem WellPlaced.expression {t : Tree} (ht : t.WellPlaced) {id : NodeId} {kind : NodeKind}
    (hkind : t.kind? id = some kind) {child : NodeId} (hchild : child ∈ kind.expressions) :
    t.isStatement child = false := by
  obtain ⟨kind', hkind', hnot⟩ := kind_of_isExpression (ht.isExpression hkind hchild)
  rw [isStatement_of_kind hkind', hnot]

/-- A program that calls a function, which returns at once. -/
def sample : Tree where
  names := .initial
  nodes := #[⟨.literal (.bool true), .dummy⟩, ⟨.returnStatement (some ⟨0⟩), .dummy⟩,
    ⟨.function none [] (.block [⟨1⟩]), .dummy⟩, ⟨.call ⟨2⟩ [], .dummy⟩,
    ⟨.expressionStatement ⟨3⟩, .dummy⟩, ⟨.program [⟨4⟩], .dummy⟩]
  root := ⟨5⟩
  accepted := by decide

theorem sample_wellPlaced : sample.WellPlaced := by decide

end Tree

/-! ## 2. Work on statements -/

def Instr.isStatementWork (t : Tree) : Instr → Bool
  | .reset | .breakLoop _ | .continueLoop _ | .whileTest .. | .forTest .. => true
  | .logical _ right _ => t.isStatement right
  | .branch consequent alternate _ => t.isStatement consequent || alternate.any t.isStatement
  | _ => false

def Item.isStatementWork (t : Tree) : Item → Bool
  | .node id => t.isStatement id
  | .instr i => i.isStatementWork t

def Item.closesCall : Item → Bool
  | .instr (.restore _ closesCall) => closesCall
  | _ => false

theorem Item.closesCall_of_not_isRestore {item : Item} (h : item.isRestore = false) :
    item.closesCall = false := by
  cases item with
  | node id => rfl
  | instr i => cases i <;> first | rfl | cases h

namespace Agenda

def closers (a : Agenda) : Nat :=
  a.countP Item.closesCall

/-- No call ends before the end of the function, or before the end of all work outside of functions. -/
def isClear : Agenda → Bool
  | [] => true
  | item :: rest => item.isMarker .call || !item.closesCall && isClear rest

/-- Behind all work on statements the way is clear. -/
def Placed (t : Tree) : Agenda → Prop
  | [] => True
  | item :: rest => (item.isStatementWork t = true → isClear rest = true) ∧ Placed t rest

variable {t : Tree}

theorem Placed.suffix {a b : Agenda} (h : a.Placed t) (hab : b <:+ a) : b.Placed t := by
  obtain ⟨dropped, rfl⟩ := hab
  induction dropped with
  | nil => exact h
  | cons item dropped ih => exact ih h.2

theorem isClear_append {items a : Agenda} (hitems : ∀ item ∈ items, item.closesCall = false)
    (ha : isClear a = true) : isClear (items ++ a) = true := by
  induction items with
  | nil => exact ha
  | cons item items ih =>
    rw [List.forall_mem_cons] at hitems
    rw [List.cons_append, isClear, hitems.1, ih hitems.2]
    exact Bool.or_true _

theorem Placed.append {items a : Agenda} (hclose : ∀ item ∈ items, item.closesCall = false)
    (hwork : ∀ item ∈ items, item.isStatementWork t = true → isClear a = true) (ha : a.Placed t) :
    Placed t (items ++ a) := by
  induction items with
  | nil => exact ha
  | cons item items ih =>
    rw [List.forall_mem_cons] at hclose hwork
    exact ⟨fun h => isClear_append hclose.2 (hwork.1 h), ih hclose.2 hwork.2⟩

theorem isClear_restore (env : Env) (closesCall : Bool) (a : Agenda) :
    isClear (.instr (.restore env closesCall) :: a) = (!closesCall && isClear a) := rfl

theorem isClear_marker (a : Agenda) : isClear (.instr (.marker .call) :: a) = true := rfl

/-- Where the way is clear, the end of the function comes before the end of a call. -/
theorem mem_marker_of_isClear {env : Env} {a b : Agenda}
    (hclear : isClear (a ++ .instr (.restore env true) :: b) = true) : .instr (.marker .call) ∈ a := by
  induction a with
  | nil => cases hclear
  | cons item rest ih =>
    rw [List.cons_append, isClear, Bool.or_eq_true, Bool.and_eq_true] at hclear
    obtain hitem | ⟨-, hrest⟩ := hclear
    · rw [Item.isMarker_iff] at hitem
      subst hitem
      exact List.mem_cons_self
    · exact List.mem_cons_of_mem _ (ih hrest)

/-! ## 3. Counting the ends of calls -/

theorem closers_append (a b : Agenda) : closers (a ++ b) = closers a + closers b :=
  List.countP_append

theorem closers_cons (item : Item) (a : Agenda) :
    closers (item :: a) = closers a + item.closesCall.toNat := by
  rw [closers, List.countP_cons]
  cases item.closesCall <;> rfl

theorem closers_eq_zero {items : Agenda} (h : ∀ item ∈ items, item.closesCall = false) :
    closers items = 0 := by
  rw [closers, List.countP_eq_zero]
  intro item hitem
  rw [h item hitem]
  decide

theorem closers_suffix {a b : Agenda} (hab : b <:+ a) : closers b ≤ closers a := by
  obtain ⟨dropped, rfl⟩ := hab
  rw [closers_append]
  exact Nat.le_add_left _ _

/-- When the way is clear, what is dropped on leaving a function ends no call. -/
theorem closers_unwindCall {a : Agenda} (h : isClear a = true) : closers (unwindCall a) = closers a := by
  induction a with
  | nil => rfl
  | cons item rest ih =>
    rw [closers_cons]
    cases hitem : item.isMarker .call with
    | true =>
      rw [Item.isMarker_iff] at hitem
      subst hitem
      rfl
    | false =>
      rw [isClear, hitem, Bool.false_or, Bool.and_eq_true, Bool.not_eq_true'] at h
      rw [unwindCall, if_neg (by rw [hitem]; decide), ih h.2, h.1]
      rfl

theorem closers_passed {target : Marker} {dropped : Agenda}
    (h : ∀ item ∈ dropped, item.isPassed target = true) : closers dropped = 0 := by
  refine closers_eq_zero fun item hitem => Item.closesCall_of_not_isRestore ?_
  exact (Item.isPassed_iff.mp (h item hitem)).2

/-- Behind items that a search passes by, and the end of a scope, the way is as clear as it was. -/
theorem isClear_of_passed {target : Marker} {dropped rest : Agenda} {env : Env} {closesCall : Bool}
    (h : ∀ item ∈ dropped, item.isPassed target = true)
    (hclear : isClear (dropped ++ .instr (.restore env closesCall) :: rest) = true) :
    closesCall = false ∧ isClear rest = true := by
  -- What a search passes by is no call marker, so clearness goes through to the end of the scope.
  induction dropped with
  | nil => simpa [isClear_restore] using hclear
  | cons item dropped ih =>
    rw [List.forall_mem_cons] at h
    have hcall : item.isMarker .call = false := (Item.isPassed_iff.mp h.1).1.2
    rw [List.cons_append, isClear, hcall, Bool.false_or, Bool.and_eq_true] at hclear
    exact ih h.2 hclear.2

end Agenda

end ExplicitControl
