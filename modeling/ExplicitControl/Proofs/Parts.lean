import ExplicitControl.Proofs.Moves
import ExplicitControl.Proofs.Values

/-!
# What is put in front

The items that a node, an instruction or a call puts in front are of a few sorts: nodes of the tree that are
children of the one evaluated, instructions that work on values only, and those that are left to make loops,
branches, declarations and jumps.  A property of all these items is proved by going through the sorts.
-/

namespace ExplicitControl

/-- Instructions that work on values only; the value that one may bring along is inert. -/
def Instr.isSimple : Instr → Bool
  | .push v => v.isInert
  | .pop | .pushUndefinedIfNeeded | .unary .. | .binary .. | .makeArray .. | .makeObject .. | .memberGet _
  | .memberSet _ | .methodLookup .. => true
  | _ => false

namespace Machine

open Agenda

variable {p : Setting} {id : NodeId} {kind : NodeKind} {item : Item}

inductive Part (p : Setting) (id : NodeId) (kind : NodeKind) : Item → Prop where
  | child {child : NodeId} (h : child ∈ kind.children) : Part p id kind (.node child)
  /-- The callee of a method call is not evaluated itself, but its object and key are. -/
  | operand {callee child : NodeId} {args : List NodeId} {object : NodeId} {property : MemberProperty}
      (hkind : kind = .call callee args) (hcallee : p.tree.kind? callee = some (.member object property))
      (h : child ∈ NodeKind.children (.member object property)) : Part p id kind (.node child)
  | simple {i : Instr} (h : i.isSimple = true) : Part p id kind (.instr i)
  | apply {arity : Nat} {hasReceiver : Bool} : Part p id kind (.instr (.apply arity hasReceiver id))
  | assign {name : Name} {value : NodeId} (h : kind = .assignment name value) :
      Part p id kind (.instr (.assign name id))
  | declare {name : Name} (h : (∃ k init, kind = .declaration k name init) ∨ ∃ f, kind = .functionDeclaration name f) :
      Part p id kind (.instr (.declare name id))
  | branch {test consequent : NodeId} {alternate : Option NodeId}
      (h : kind = .ifStatement test consequent alternate ∨
        ∃ e, alternate = some e ∧ kind = .conditional test consequent e) :
      Part p id kind (.instr (.branch consequent alternate id))
  | logical {op : LogicalOp} {left right : NodeId} (h : kind = .logical op left right) :
      Part p id kind (.instr (.logical op right id))
  | whileTest {test body : NodeId} (h : kind = .whileLoop test body) : Part p id kind (.instr (.whileTest test body id))
  | freshTrip {init test update : Option NodeId} {body : NodeId} (h : kind = .forLoop init test update body) :
      Part p id kind (.instr (.freshTrip ((p.tree.opened kind).map fun d => d.2.1)))
  | forTest {init test update : Option NodeId} {body : NodeId} (h : kind = .forLoop init test update body) :
      Part p id kind (.instr (.forTest test update body ((p.tree.opened kind).map fun d => d.2.1) id))
  | loopEnd : Part p id kind (.instr (.marker .loopEnd))
  | jump {i : Instr} {target : Marker} (h : i.target? = some target)
      (hkind : kind = .breakStatement ∨ kind = .continueStatement) : Part p id kind (.instr i)

theorem part_ofStatements {body : List NodeId} (hbody : body = kind.children) (hitem : item ∈ ofStatements body) :
    Part p id kind item :=
  forall_mem_ofStatements (fun _ h => Part.child (hbody ▸ h)) (Part.simple rfl) (Part.simple rfl) item hitem

theorem part_nodes {ids : List NodeId} (hids : ∀ c ∈ ids, c ∈ kind.children) : ∀ item ∈ ids.map Item.node,
    Part p id kind item := by
  intro item hitem
  obtain ⟨c, hc, rfl⟩ := List.mem_map.mp hitem
  exact .child (hids c hc)

theorem part_callItems {callee : NodeId} {args : List NodeId} :
    ∀ item ∈ callItems p id callee args, Part p id (.call callee args) item := by
  have after : ∀ hasReceiver, ∀ item ∈ args.map Item.node ++ [.instr (.apply args.length hasReceiver id)],
      Part p id (.call callee args) item := fun _ =>
    List.forall_mem_append.mpr ⟨part_nodes fun _ => List.mem_cons_of_mem _, List.forall_mem_singleton.mpr .apply⟩
  unfold callItems
  split <;> simp only [List.forall_mem_cons]
  next object name hcallee => exact ⟨.operand rfl hcallee List.mem_cons_self, .simple rfl, after true⟩
  next object key hcallee =>
    exact ⟨.operand rfl hcallee List.mem_cons_self, .operand rfl hcallee (List.mem_cons_of_mem _ List.mem_cons_self),
      .simple rfl, after true⟩
  next => exact ⟨.child List.mem_cons_self, after false⟩

theorem part_keyItem {property : MemberProperty} (h : ∀ key ∈ property.key?, key ∈ kind.children) :
    Part p id kind (keyItem p property) := by
  cases property with
  | named name => exact .simple rfl
  | computed key => exact .child (h key rfl)

theorem part_loopTest {test : Option NodeId} (h : ∀ id ∈ test, id ∈ kind.children) :
    Part p id kind (loopTest test) := by
  cases test with
  | none => exact .simple rfl
  | some test => exact .child (h test rfl)

/-- The items of a node are of these sorts. -/
theorem part_of_mem : ∀ item ∈ kindItems p id kind, Part p id kind item := by
  have first : ∀ {c : NodeId} {rest : List NodeId}, c ∈ c :: rest := List.mem_cons_self
  have second : ∀ {b c : NodeId} {rest : List NodeId}, c ∈ b :: c :: rest :=
    List.mem_cons_of_mem _ List.mem_cons_self
  cases kind with
  | program body => exact fun _ => part_ofStatements rfl
  | block body => exact fun _ => part_ofStatements rfl
  | expressionStatement expr => exact List.forall_mem_singleton.mpr (.child first)
  | declaration k name init =>
    simp only [kindItems, List.forall_mem_cons]
    exact ⟨.child first, .declare (.inl ⟨k, init, rfl⟩), List.forall_mem_nil _⟩
  | functionDeclaration name declared =>
    simp only [kindItems, List.forall_mem_cons]
    exact ⟨.child first, .declare (.inr ⟨declared, rfl⟩), List.forall_mem_nil _⟩
  | ifStatement test consequent alternate =>
    simp only [kindItems, List.forall_mem_cons]
    exact ⟨.child first, .branch (.inl rfl), List.forall_mem_nil _⟩
  | whileLoop test body =>
    simp only [kindItems, List.forall_mem_cons]
    exact ⟨.simple rfl, .child first, .whileTest rfl, .loopEnd, List.forall_mem_nil _⟩
  | forLoop init test update body =>
    have hinit : ∀ item ∈ (init.map fun node => [Item.node node, .instr .pop]).getD [],
        Part p id (.forLoop init test update body) item := by
      cases init with
      | none => exact List.forall_mem_nil _
      | some init =>
        simp only [Option.map_some, Option.getD_some, List.forall_mem_cons]
        exact ⟨.child first, .simple rfl, List.forall_mem_nil _⟩
    have htest : ∀ id ∈ test, id ∈ NodeKind.children (.forLoop init test update body) := fun id h => by
      simp [NodeKind.children, Option.mem_def.mp h]
    refine List.forall_mem_append.mpr ⟨hinit, ?_⟩
    simp only [List.forall_mem_cons]
    exact ⟨.freshTrip rfl, .simple rfl, part_loopTest htest, .forTest rfl, .loopEnd, List.forall_mem_nil _⟩
  | breakStatement => exact List.forall_mem_singleton.mpr (.jump rfl (.inl rfl))
  | continueStatement => exact List.forall_mem_singleton.mpr (.jump rfl (.inr rfl))
  | unary op operand =>
    simp only [kindItems, List.forall_mem_cons]
    exact ⟨.child first, .simple rfl, List.forall_mem_nil _⟩
  | binary op left right =>
    simp only [kindItems, List.forall_mem_cons]
    exact ⟨.child first, .child second, .simple rfl, List.forall_mem_nil _⟩
  | logical op left right =>
    simp only [kindItems, List.forall_mem_cons]
    exact ⟨.child first, .logical rfl, List.forall_mem_nil _⟩
  | conditional test consequent alternate =>
    simp only [kindItems, List.forall_mem_cons]
    exact ⟨.child first, .branch (.inr ⟨alternate, rfl, rfl⟩), List.forall_mem_nil _⟩
  | assignment name value =>
    simp only [kindItems, List.forall_mem_cons]
    exact ⟨.child first, .assign rfl, List.forall_mem_nil _⟩
  | call callee args => exact part_callItems
  | arrayLiteral elements =>
    exact List.forall_mem_append.mpr ⟨part_nodes fun _ h => h, List.forall_mem_singleton.mpr (.simple rfl)⟩
  | objectLiteral properties =>
    refine List.forall_mem_append.mpr ⟨fun item hitem => ?_, List.forall_mem_singleton.mpr (.simple rfl)⟩
    obtain ⟨property, hproperty, rfl⟩ := List.mem_map.mp hitem
    exact .child (List.mem_map_of_mem hproperty)
  | member object property =>
    simp only [kindItems, List.forall_mem_cons]
    exact ⟨.child first, part_keyItem fun key h => by simp [NodeKind.children, Option.mem_def.mp h], .simple rfl,
      List.forall_mem_nil _⟩
  | memberAssignment object property value =>
    simp only [kindItems, List.forall_mem_cons]
    exact ⟨.child first, part_keyItem fun key h => by simp [NodeKind.children, Option.mem_def.mp h],
      .child (by simp [NodeKind.children]), .simple rfl, List.forall_mem_nil _⟩
  | _ => exact List.forall_mem_nil _

theorem eq_of_mem_padding (h : item ∈ kind.padding) : item = .instr .pushUndefinedIfNeeded := by
  cases kind with
  | program body => exact List.mem_singleton.mp h
  | _ => cases h

inductive BodyPart (code : FunctionBody) : Item → Prop where
  | child {child : NodeId} (h : child ∈ NodeKind.children (.function none [] code)) : BodyPart code (.node child)
  | simple {i : Instr} (h : i.isSimple = true) : BodyPart code (.instr i)
  | marker : BodyPart code (.instr (.marker .call))

theorem bodyPart_of_mem {code : FunctionBody} : ∀ item ∈ bodyItems code, BodyPart code item := by
  cases code with
  | expression expr => exact List.forall_mem_singleton.mpr (.child List.mem_cons_self)
  | block statements =>
    exact List.forall_mem_append.mpr ⟨forall_mem_ofStatements (fun _ h => .child h) (.simple rfl) (.simple rfl),
      List.forall_mem_singleton.mpr .marker⟩

end Machine

def Instr.choices : Instr → List NodeId
  | .logical _ right _ => [right]
  | .branch consequent alternate _ => consequent :: alternate.toList
  | .whileTest test body _ => [test, body]
  | .forTest test update body _ _ => test.toList ++ update.toList ++ [body]
  | _ => []

/-- Instructions that schedule a trip through a loop, and themselves behind it. -/
def Instr.isTest : Instr → Bool
  | .whileTest .. | .forTest .. => true
  | _ => false

def Item.vars : Item → List Name
  | .instr (.freshTrip vars) | .instr (.forTest _ _ _ vars _) => vars
  | _ => []

namespace Machine

variable {p : Setting} {i : Instr} {items : List Item} {item : Item}

inductive Offered (i : Instr) : Item → Prop where
  | node {child : NodeId} (h : child ∈ i.choices) : Offered i (.node child)
  | simple {i' : Instr} (h : i'.isSimple = true) : Offered i (.instr i')
  | tripEnd : Offered i (.instr (.marker .tripEnd))
  | freshTrip : Offered i (.instr (.freshTrip (Item.vars (.instr i))))
  | again (h : i.isTest = true) : Offered i (.instr i)

theorem offered_of_mem (hitems : items ∈ i.offers) (h : item ∈ items) : Offered i item := by
  cases i with
  | logical op right node =>
    simp only [Instr.offers, List.mem_cons, List.not_mem_nil, or_false] at hitems
    obtain rfl | rfl := hitems
    · cases h
    · rw [List.mem_singleton.mp h]
      exact .node List.mem_cons_self
  | branch consequent alternate node =>
    simp only [Instr.offers, List.mem_cons, List.not_mem_nil, or_false] at hitems
    obtain rfl | rfl := hitems
    · rw [List.mem_singleton.mp h]
      exact .node List.mem_cons_self
    · cases alternate with
      | none => cases h
      | some e =>
        rw [List.mem_singleton.mp h]
        exact .node (List.mem_cons_of_mem _ List.mem_cons_self)
  | whileTest test body node =>
    simp only [Instr.offers, List.mem_cons, List.not_mem_nil, or_false] at hitems
    obtain rfl | rfl := hitems
    · cases h
    · simp only [List.mem_cons, List.not_mem_nil, or_false] at h
      obtain rfl | rfl | rfl | rfl | rfl := h
      · exact .simple rfl
      · exact .node (List.mem_cons_of_mem _ List.mem_cons_self)
      · exact .tripEnd
      · exact .node List.mem_cons_self
      · exact .again rfl
  | forTest test update body vars node =>
    simp only [Instr.offers, List.mem_cons, List.not_mem_nil, or_false] at hitems
    obtain rfl | rfl := hitems
    · cases h
    · have htest : ∀ id ∈ test, id ∈ Instr.choices (.forTest test update body vars node) := fun id h => by
        simp [Instr.choices, Option.mem_def.mp h]
      have hupdate : ∀ id ∈ update, id ∈ Instr.choices (.forTest test update body vars node) := fun id h => by
        simp [Instr.choices, Option.mem_def.mp h]
      simp only [tripItems, List.mem_append, List.mem_cons, List.not_mem_nil, or_false] at h
      obtain ((rfl | rfl | rfl | rfl) | h) | rfl | rfl := h
      · exact .simple rfl
      · exact .node (List.mem_append_right _ List.mem_cons_self)
      · exact .tripEnd
      · exact .freshTrip
      · cases update with
        | none => cases h
        | some id =>
          simp only [Option.map_some, Option.getD_some, List.mem_cons, List.not_mem_nil, or_false] at h
          obtain rfl | rfl := h
          · exact .node (hupdate id rfl)
          · exact .simple rfl
      · cases test with
        | none => exact .simple rfl
        | some id => exact .node (htest id rfl)
      · exact .again rfl
  | _ =>
    rw [List.mem_singleton.mp hitems] at h
    cases h

/-! ## Quiet items, and work on statements -/

/-- What evaluating a node puts in front neither brings an environment back nor ends a function. -/
theorem isQuiet_kindItems (id : NodeId) (kind : NodeKind) : ∀ item ∈ kindItems p id kind, item.isQuiet = true := by
  intro item hitem
  cases part_of_mem item hitem with
  | @simple i h => cases i <;> first | rfl | cases h
  | @jump i target h => cases i <;> first | rfl | cases h
  | _ => rfl

theorem isQuiet_padding (kind : NodeKind) : ∀ item ∈ kind.padding, item.isQuiet = true := by
  intro item hitem
  rw [eq_of_mem_padding hitem]
  rfl

theorem isQuiet_offers (h : items ∈ i.offers) : ∀ item ∈ items, item.isQuiet = true := by
  intro item hitem
  cases offered_of_mem h hitem with
  | @simple i h => cases i <;> first | rfl | cases h
  | again h => cases i <;> first | rfl | cases h
  | _ => rfl

/-- A node of an expression puts no work on statements in front. -/
theorem expression_kindItems (ht : p.tree.WellPlaced) {id : NodeId} {kind : NodeKind}
    (hkind : p.tree.kind? id = some kind) (hexpression : kind.isStatement = false) :
    ∀ item ∈ kindItems p id kind, item.isStatementWork p.tree = false := by
  intro item hitem
  -- Of a function's children none is put in front; the children of other expressions are expressions.
  have child : ∀ {c : NodeId}, c ∈ kind.children → (Item.node c).isStatementWork p.tree = false := by
    intro c hc
    cases kind with
    | function => cases hitem
    | _ => first | exact ht.expression hkind hc | cases hexpression
  cases part_of_mem item hitem with
  | child h => exact child h
  | operand _ hcallee h => exact ht.expression hcallee h
  | @simple i h => cases i <;> first | rfl | cases h
  | branch h =>
    obtain rfl | ⟨alternate, rfl, rfl⟩ := h
    · cases hexpression
    · exact Bool.or_eq_false_iff.mpr ⟨child (by simp [NodeKind.children]), child (by simp [NodeKind.children])⟩
  | logical h =>
    subst h
    exact child (by simp [NodeKind.children])
  | whileTest h => subst h; cases hexpression
  | forTest h => subst h; cases hexpression
  | jump _ hjump => obtain rfl | rfl := hjump <;> cases hexpression
  | apply | assign | declare | freshTrip | loopEnd => rfl

/-- An instruction that does no work on statements puts none in front. -/
theorem expression_offers (hitems : items ∈ i.offers) (hi : i.isStatementWork p.tree = false) :
    ∀ item ∈ items, item.isStatementWork p.tree = false := by
  cases i with
  | logical op right node =>
    simp only [Instr.offers, List.mem_cons, List.not_mem_nil, or_false] at hitems
    obtain rfl | rfl := hitems
    · exact List.forall_mem_nil _
    · exact List.forall_mem_singleton.mpr hi
  | branch consequent alternate node =>
    obtain ⟨hconsequent, halternate⟩ := Bool.or_eq_false_iff.mp hi
    simp only [Instr.offers, List.mem_cons, List.not_mem_nil, or_false] at hitems
    obtain rfl | rfl := hitems
    · exact List.forall_mem_singleton.mpr hconsequent
    · cases alternate with
      | none => exact List.forall_mem_nil _
      | some id => exact List.forall_mem_singleton.mpr halternate
  | whileTest | forTest | reset | breakLoop | continueLoop => cases hi
  | _ =>
    obtain rfl := List.mem_singleton.mp hitems
    exact List.forall_mem_nil _

end Machine

end ExplicitControl
