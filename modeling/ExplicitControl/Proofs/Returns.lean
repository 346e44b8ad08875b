import ExplicitControl.Proofs.Confinement
import ExplicitControl.Proofs.Nesting

/-!
# Calls in the argument of a return

A call that is the argument of a `return` takes the place of the call that the `return` ends, if nothing but ends
of blocks is between the `return` and the end of its function; else it is one more call.  Which of both it is can
be read off the tree: the `return` has to be the last statement of its function, or of a block or of an arm of an
`if` that is.
-/

namespace ExplicitControl

/-! ## 1. Last statements -/

namespace Tree

/-- The statement is the last that its function carries out: the last of the body, or of a block that is, or an arm
of an `if` that is. -/
inductive EndsFunction (t : Tree) : NodeId → Prop where
  | body {f id : NodeId} {name : Option Name} {params : List Name} {statements : List NodeId}
      (hkind : t.kind? f = some (.function name params (.block statements)))
      (hlast : statements.getLast? = some id) : EndsFunction t id
  | block {parent id : NodeId} {statements : List NodeId} (h : EndsFunction t parent)
      (hkind : t.kind? parent = some (.block statements)) (hlast : statements.getLast? = some id) : EndsFunction t id
  | arm {parent id test consequent : NodeId} {alternate : Option NodeId} (h : EndsFunction t parent)
      (hkind : t.kind? parent = some (.ifStatement test consequent alternate))
      (harm : id ∈ consequent :: alternate.toList) : EndsFunction t id

def InOnePlace (t : Tree) : Prop :=
  (t.nodes.toList.flatMap fun node => node.kind.children).Nodup

instance (t : Tree) : Decidable t.InOnePlace :=
  inferInstanceAs (Decidable (List.Nodup _))

variable {t : Tree} {id parent child : NodeId} {kind : NodeKind}

theorem InOnePlace.sharesNothing (ht : t.InOnePlace) : t.SharesNothing := by
  unfold SharesNothing
  rw [List.pairwise_map]
  exact (List.nodup_flatMap.mp ht).2

theorem InOnePlace.nodup (ht : t.InOnePlace) (hkind : t.kind? id = some kind) : kind.children.Nodup := by
  obtain ⟨node, hnode, rfl⟩ := exists_node hkind
  exact (List.nodup_flatMap.mp ht).1 node hnode

/-- A statement other than a program, which is no part of a function. -/
def isInnerStatement (t : Tree) (id : NodeId) : Bool :=
  (t.kind? id).any fun kind => kind.isStatement && !kind.isProgram

theorem isInnerStatement_of_kind (hkind : t.kind? id = some kind) :
    t.isInnerStatement id = (kind.isStatement && !kind.isProgram) := by
  rw [isInnerStatement, hkind, Option.any_some]

theorem not_isInnerStatement_of_expression (h : t.isStatement id = false) : ¬t.isInnerStatement id = true := by
  intro hinner
  unfold isInnerStatement at hinner
  cases hkind : t.kind? id with
  | none => rw [hkind] at hinner; cases hinner
  | some kind =>
    rw [hkind, Option.any_some, ← isStatement_of_kind hkind, h] at hinner
    cases hinner

/-- What it takes for a child of a node to be the last statement of a function. -/
def LastIn (t : Tree) (parent : NodeId) (kind : NodeKind) (child : NodeId) : Prop :=
  match kind with
  | .function _ _ (.block statements) => statements.getLast? = some child
  | .block statements => t.EndsFunction parent ∧ statements.getLast? = some child
  | .ifStatement _ consequent alternate => t.EndsFunction parent ∧ child ∈ consequent :: alternate.toList
  | _ => False

/-- In a tree that has every node in one place, the place decides. -/
theorem endsFunction_iff (ht : t.InOnePlace) (hkind : t.kind? parent = some kind) (hchild : child ∈ kind.children) :
    t.EndsFunction child ↔ t.LastIn parent kind child := by
  -- Whatever has the statement as a child is the same node.
  have same : ∀ {other : NodeId} {otherKind : NodeKind}, t.kind? other = some otherKind → child ∈ otherKind.children →
      parent = other ∧ kind = otherKind := by
    intro other otherKind hother hmem
    obtain rfl := ht.sharesNothing.unique ⟨kind, hkind, hchild⟩ ⟨otherKind, hother, hmem⟩
    exact ⟨rfl, Option.some.inj (hkind.symm.trans hother)⟩
  constructor
  · intro h
    cases h with
    | body hfunction hlast =>
      obtain ⟨rfl, rfl⟩ := same hfunction (List.mem_of_getLast? hlast)
      exact hlast
    | block h hblock hlast =>
      obtain ⟨rfl, rfl⟩ := same hblock (List.mem_of_getLast? hlast)
      exact ⟨h, hlast⟩
    | arm h hif harm =>
      obtain ⟨rfl, rfl⟩ := same hif (List.mem_cons_of_mem _ harm)
      exact ⟨h, harm⟩
  · intro h
    unfold LastIn at h
    split at h
    · exact .body hkind h
    · exact .block h.1 hkind h.2
    · exact .arm h.1 hkind h.2
    · exact h.elim

end Tree

/-! ## 2. Work in its place -/

namespace Agenda

/-- Nothing but ends of blocks comes before the end of the function, when the item schedules what it evaluates.  A
test of a loop always leaves more to do. -/
def atEnd (rest : Agenda) : Item → Bool
  | .instr (.whileTest ..) | .instr (.forTest ..) => false
  | _ => rest.inTailPosition

/-- Statements are scheduled right in front of the end of the function if they are its last, and only then. -/
def InPlace (t : Tree) : Agenda → Prop
  | [] => True
  | item :: rest =>
    (∀ id ∈ item.evaluated, t.isInnerStatement id = true → (t.EndsFunction id ↔ atEnd rest item = true)) ∧
      InPlace t rest

variable {t : Tree} {a b : Agenda} {item : Item}

theorem InPlace.suffix (ha : a.InPlace t) (hb : b <:+ a) : b.InPlace t := by
  obtain ⟨dropped, rfl⟩ := hb
  induction dropped with
  | nil => exact ha
  | cons item dropped ih => exact ih ha.2

/-- Work on expressions may stand anywhere. -/
theorem InPlace.cons (ha : a.InPlace t) (h : ∀ id ∈ item.evaluated, t.isStatement id = false) : InPlace t (item :: a) :=
  ⟨fun id hid hinner => absurd hinner (Tree.not_isInnerStatement_of_expression (h id hid)), ha⟩

/-- So may an instruction that evaluates nothing. -/
theorem InPlace.instr (ha : a.InPlace t) {i : Instr} (hi : i.choices = []) : InPlace t (.instr i :: a) :=
  ha.cons fun id hid => absurd (show id ∈ i.choices from hid) (hi ▸ List.not_mem_nil)

theorem InPlace.append {items : List Item} (ha : a.InPlace t)
    (h : ∀ item ∈ items, ∀ id ∈ item.evaluated, t.isStatement id = false) : InPlace t (items ++ a) := by
  induction items with
  | nil => exact ha
  | cons item items ih =>
    rw [List.forall_mem_cons] at h
    exact InPlace.cons (ih h.2) h.1

theorem inTailPosition_opening (env : Env) (a : Agenda) : inTailPosition (a.opening env) = a.inTailPosition := by
  unfold opening
  split <;> rfl

theorem InPlace.opening (ha : a.InPlace t) (env : Env) : (a.opening env).InPlace t := by
  unfold Agenda.opening
  split
  · exact ha
  · exact ha.instr rfl

theorem InPlace.closing (ha : a.InPlace t) (env : Env) : (a.closing env).InPlace t := by
  obtain ⟨-, -, hclosing⟩ | ⟨env', closesCall, rest, rfl, -, hclosing⟩ := Machine.closing_cases env a
  · rw [hclosing]
    exact ha.instr rfl
  · rw [hclosing]
    exact InPlace.instr ha.2 rfl

/-- Of a list of statements, the last is right in front of what comes behind the list. -/
theorem InPlace.ofStatements {ids : List NodeId} (ha : a.InPlace t) (hnodup : ids.Nodup)
    (h : ∀ id ∈ ids, t.EndsFunction id ↔ ids.getLast? = some id ∧ a.inTailPosition = true) :
    InPlace t (ofStatements ids ++ a) := by
  fun_induction Agenda.ofStatements ids with
  | case1 => exact ha.instr rfl
  | case2 id =>
    refine ⟨fun id' hid' _ => ?_, ha⟩
    obtain rfl := List.mem_singleton.mp hid'
    exact (h _ List.mem_cons_self).trans (and_iff_right rfl)
  | case3 id rest hne ih =>
    have hlast : (id :: rest).getLast? = rest.getLast? := by
      cases rest with
      | nil => exact absurd rfl hne
      | cons next rest => exact List.getLast?_cons_cons
    rw [List.nodup_cons] at hnodup
    have hrest := ih hnodup.2 fun id' hid' => hlast ▸ h id' (List.mem_cons_of_mem _ hid')
    refine ⟨fun id' hid' _ => ?_, hrest.instr rfl⟩
    obtain rfl := List.mem_singleton.mp hid'
    refine (h id' List.mem_cons_self).trans (iff_of_false (fun hend => ?_) Bool.false_ne_true)
    exact hnodup.1 (List.mem_of_getLast? (hlast ▸ hend.1))

end Agenda

structure State.InPlace (t : Tree) (s : State) : Prop where
  agenda : s.agenda.InPlace t
  snapshots : ∀ k ∈ s.snapshots, k.agenda.InPlace t

namespace Machine

open Agenda

variable {p : Setting} {s s' : State} {id : NodeId} {kind : NodeKind} {a rest : Agenda}

/-- A node that expects all its children to be expressions schedules work on expressions. -/
theorem expressions_of_part (ht : p.tree.WellPlaced) (hkind : p.tree.kind? id = some kind)
    (hchildren : kind.expressions = kind.children) :
    ∀ item ∈ kindItems p id kind, ∀ c ∈ item.evaluated, p.tree.isStatement c = false := by
  intro item hitem c hc
  obtain hmem | ⟨callee, args, object, property, -, hcallee, hmem⟩ := parent_of_part (part_of_mem item hitem) hc
  · exact ht.expression hkind (hchildren ▸ hmem)
  · exact ht.expression hcallee hmem

theorem inPlace_kindItems (ht : p.tree.WellPlaced) (hone : p.tree.InOnePlace) (hkind : p.tree.kind? id = some kind)
    (hends : p.tree.isInnerStatement id = true → (p.tree.EndsFunction id ↔ a.inTailPosition = true))
    (hrest : rest.InPlace p.tree) (hposition : rest.inTailPosition = inTailPosition (kind.padding ++ a)) :
    Agenda.InPlace p.tree (kindItems p id kind ++ rest) := by
  have place : ∀ c ∈ kind.children, (p.tree.EndsFunction c ↔ p.tree.LastIn id kind c) :=
    fun c hc => Tree.endsFunction_iff hone hkind hc
  have quiet : ∀ {c : NodeId}, c ∈ kind.expressions → ∀ c' ∈ (Item.node c).evaluated, p.tree.isStatement c' = false :=
    fun hc c' hc' => List.mem_singleton.mp hc' ▸ ht.expression hkind hc
  rw [Tree.isInnerStatement_of_kind hkind] at hends
  -- A block and an `if` hand on where they stand; the body of a loop has the loop behind it.
  cases kind with
  | program body =>
    refine hrest.ofStatements (hone.nodup hkind) fun c hc => (place c hc).trans (iff_of_false (fun h => h) fun h => ?_)
    rw [hposition] at h
    cases h.2
  | block body =>
    refine hrest.ofStatements (hone.nodup hkind) fun c hc => (place c hc).trans ?_
    rw [hposition]
    exact ((and_congr_left' (hends rfl)).trans and_comm)
  | ifStatement test consequent alternate =>
    refine InPlace.cons ⟨fun c hc _ => ?_, hrest⟩ (quiet List.mem_cons_self)
    refine (place c (List.mem_cons_of_mem _ hc)).trans ((and_iff_left hc).trans ?_)
    show _ ↔ rest.inTailPosition = true
    rw [hposition]
    exact hends rfl
  | whileLoop test body =>
    have hagain : Agenda.InPlace p.tree (.instr (.whileTest test body id) :: .instr (.marker .loopEnd) :: rest) :=
      ⟨fun c hc _ => (place c hc).trans (iff_of_false (fun h => h) Bool.false_ne_true), hrest.instr rfl⟩
    exact (hagain.cons (quiet List.mem_cons_self)).instr rfl
  | forLoop init test update body =>
    have never : ∀ c ∈ NodeKind.children (.forLoop init test update body), ¬p.tree.EndsFunction c :=
      fun c hc h => (place c hc).mp h
    have htest : ∀ c ∈ (loopTest test).evaluated, p.tree.isStatement c = false := by
      cases test with
      | none => exact fun c hc => absurd hc List.not_mem_nil
      | some c => exact quiet (by simp [NodeKind.expressions])
    have hagain : Agenda.InPlace p.tree (.instr (.forTest test update body
        ((p.tree.opened (.forLoop init test update body)).map fun d => d.2.1) id) ::
          .instr (.marker .loopEnd) :: rest) := by
      refine ⟨fun c hc _ => iff_of_false (never c ?_) Bool.false_ne_true, hrest.instr rfl⟩
      simp only [Item.evaluated, Instr.choices, NodeKind.children, List.mem_append] at hc ⊢
      tauto
    have hloop := ((hagain.cons htest).instr (i := .push .undefined) rfl).instr
      (i := .freshTrip ((p.tree.opened (.forLoop init test update body)).map fun d => d.2.1)) rfl
    cases init with
    | none => exact hloop
    | some init =>
      refine ⟨fun c hc _ => ?_, hloop.instr rfl⟩
      obtain rfl := List.mem_singleton.mp hc
      exact iff_of_false (never c List.mem_cons_self) Bool.false_ne_true
  | function => exact hrest
  | _ => exact hrest.append (expressions_of_part ht hkind rfl)

theorem inPlace_bodyItems (ht : p.tree.WellPlaced) (hone : p.tree.InOnePlace) {fname : Option Name}
    {params : List Name} {code : FunctionBody} (hkind : p.tree.kind? id = some (.function fname params code))
    (ha : a.InPlace p.tree) : Agenda.InPlace p.tree (bodyItems code ++ a) := by
  cases code with
  | expression expr => exact ha.cons fun c hc => ht.expression hkind (List.mem_singleton.mp hc ▸ List.mem_cons_self)
  | block statements =>
    have hmarker : Agenda.InPlace p.tree (.instr (.marker .call) :: a) := ha.instr rfl
    rw [Machine.bodyItems, List.append_assoc]
    refine hmarker.ofStatements (hone.nodup hkind) fun c hc => ?_
    exact (Tree.endsFunction_iff hone hkind hc).trans (and_iff_left rfl).symm

/-- An instruction schedules what it has been holding for that. -/
theorem inPlace_offers {t : Tree} {i : Instr} {items : List Item} (hitems : items ∈ i.offers)
    (h : Agenda.InPlace t (.instr i :: a)) : Agenda.InPlace t (items ++ a) := by
  obtain ⟨hi, ha⟩ := h
  have node : ∀ {c : NodeId} {b : Agenda}, c ∈ i.choices → b.InPlace t →
      (inTailPosition b = true ↔ atEnd a (.instr i) = true) → Agenda.InPlace t (.node c :: b) := by
    intro c b hc hb hend
    refine ⟨fun c' hc' hstatement => ?_, hb⟩
    obtain rfl := List.mem_singleton.mp hc'
    exact (hi c' hc hstatement).trans hend.symm
  cases i with
  | logical op right id =>
    simp only [Instr.offers, List.mem_cons, List.not_mem_nil, or_false] at hitems
    obtain rfl | rfl := hitems
    · exact ha
    · exact node List.mem_cons_self ha Iff.rfl
  | branch consequent alternate id =>
    simp only [Instr.offers, List.mem_cons, List.not_mem_nil, or_false] at hitems
    obtain rfl | rfl := hitems
    · exact node List.mem_cons_self ha Iff.rfl
    · cases alternate with
      | none => exact ha
      | some c => exact node (List.mem_cons_of_mem _ List.mem_cons_self) ha Iff.rfl
  | whileTest test body id =>
    simp only [Instr.offers, List.mem_cons, List.not_mem_nil, or_false] at hitems
    obtain rfl | rfl := hitems
    · exact ha
    · have htest := node List.mem_cons_self (b := .instr (.whileTest test body id) :: a) ⟨hi, ha⟩ Iff.rfl
      exact (node (List.mem_cons_of_mem _ List.mem_cons_self) (htest.instr rfl) Iff.rfl).instr rfl
  | forTest test update body vars id =>
    simp only [Instr.offers, List.mem_cons, List.not_mem_nil, or_false] at hitems
    obtain rfl | rfl := hitems
    · exact ha
    · have hagain : Agenda.InPlace t (.instr (.forTest test update body vars id) :: a) := ⟨hi, ha⟩
      have htest : Agenda.InPlace t (loopTest test :: .instr (.forTest test update body vars id) :: a) := by
        cases test with
        | none => exact hagain.instr rfl
        | some c => exact node (by simp [Instr.choices]) hagain Iff.rfl
      have hupdate : Agenda.InPlace t ((update.map fun id => [Item.node id, .instr .pop]).getD [] ++
          loopTest test :: .instr (.forTest test update body vars id) :: a) := by
        cases update with
        | none => exact htest
        | some c => exact node (by simp [Instr.choices]) (htest.instr rfl) Iff.rfl
      have hbody := node (c := body) (by simp [Instr.choices])
        ((hupdate.instr (i := .freshTrip vars) rfl).instr (i := .marker .tripEnd) rfl) Iff.rfl
      simpa [tripItems] using hbody.instr (i := .pop) rfl
  | _ =>
    rw [List.mem_singleton.mp hitems]
    exact ha

/-- An item leaves the last statements of functions, and no others, in front of the ends of the functions. -/
theorem Reschedules.inPlace (ht : p.tree.WellPlaced) (hone : p.tree.InOnePlace) {env : Env} {a b : Agenda} {item : Item}
    (h : Reschedules p env a item b) (ha : a.InPlace p.tree) (hitem : Agenda.InPlace p.tree (item :: a)) :
    b.InPlace p.tree := by
  have padded : ∀ kind : NodeKind, Agenda.InPlace p.tree (kind.padding ++ a) := fun kind =>
    ha.append fun item hmem c hc => by
      rw [eq_of_mem_padding hmem] at hc
      exact absurd hc List.not_mem_nil
  cases h with
  | @plain id kind hkind hopened hgoes =>
    exact inPlace_kindItems ht hone hkind (hitem.1 id List.mem_cons_self) (padded kind) rfl
  | @scope id kind hkind hopened =>
    exact inPlace_kindItems ht hone hkind (hitem.1 id List.mem_cons_self) ((padded kind).opening env)
      (inTailPosition_opening env _)
  | @returned id argument hkind =>
    have hvalue : ∀ c ∈ (returnItem argument).evaluated, p.tree.isStatement c = false := by
      cases argument with
      | none => exact fun c hc => absurd hc List.not_mem_nil
      | some e => exact fun c hc => ht.expression hkind (List.mem_singleton.mp hc ▸ List.mem_cons_self)
    split
    · exact (ha.suffix (unwindCall_suffix _)).cons hvalue
    · exact (ha.instr rfl).cons hvalue
  | offered hplain hoffered => exact inPlace_offers hoffered hitem
  | same => exact ha
  | reset => exact ha.suffix (unwindCall_suffix _)
  | reached htarget hsearch => exact ha.suffix (suffix_of_searchLoop_reached hsearch)
  | @stopped i target ending rest htarget hsearch =>
    have hrest := (ha.suffix (suffix_of_searchLoop_scope hsearch)).2
    obtain ⟨dropped, env', closesCall, -, rfl, -⟩ := eq_of_searchLoop_scope hsearch
    have hjump : i.choices = [] := by cases i <;> first | rfl | cases htarget
    exact (hrest.instr hjump).instr rfl
  | entered hkind => exact inPlace_bodyItems ht hone hkind (ha.closing env)

/-- Every step keeps the last statements of functions, and no others, in front of the ends of the functions. -/
theorem Move.inPlace (ht : p.tree.WellPlaced) (hone : p.tree.InOnePlace) {item : Item} (h : Move p s s' item)
    (hs : s.InPlace p.tree) (hitem : Agenda.InPlace p.tree (item :: s.agenda)) : s'.InPlace p.tree := by
  obtain ⟨hagenda, hsnapshots⟩ :=
    h.keepsWork hs.agenda hs.snapshots fun b hb => hb.inPlace ht hone hs.agenda hitem
  exact ⟨hagenda, hsnapshots⟩

/-! ## 3. Runs -/

variable {σ : Type} {t : Tree} {config : Config} {hosts : List EmbeddedFunction} {output : Output}
  {clock : Nat → Nat} {rule : PauseRule σ} {memory : σ}

theorem Reaches.inPlace (ht : t.WellPlaced) (hone : t.InOnePlace)
    (hs : (build t config hosts output clock rule memory).Reaches s) : s.InPlace t := by
  obtain ⟨body, hroot⟩ := t.kind?_root
  have start : (build t config hosts output clock rule memory).state.InPlace t := by
    refine ⟨⟨fun id hid hinner => ?_, trivial⟩, fun _ h => absurd h (Array.not_mem_empty _)⟩
    obtain rfl := List.mem_singleton.mp hid
    rw [Tree.isInnerStatement_of_kind hroot] at hinner
    cases hinner
  refine hs.induct start fun s s' item rest _ hplace hagenda _ hmove => ?_
  have hitem : Agenda.InPlace t (item :: rest) := hagenda ▸ hplace.agenda
  exact hmove.inPlace ht hone ⟨hitem.2, hplace.snapshots⟩ hitem

end Machine

/-- What is behind the argument of a `return` that stands in front of `a`: the end of the call if nothing but ends
of blocks comes before it, else all that is in between, to be dropped. -/
def Agenda.afterReturn (a : Agenda) : Agenda :=
  if a.inTailPosition then a.unwindCall else .instr .reset :: a

namespace Machine

open Agenda

theorem agenda_of_return {p : Setting} {s s' : State} {id e : NodeId} {a : Agenda} (hagenda : s.agenda = .node id :: a)
    (hkind : p.tree.kind? id = some (.returnStatement (some e))) (hrun : advance p s = .running s') :
    s'.agenda = .node e :: a.afterReturn := by
  cases move_of_advance hagenda hrun with
  | plain hkind' hopened hgoes => exact absurd (Option.some.inj (hkind'.symm.trans hkind)) (hgoes _)
  | scope hkind' hopened =>
    cases hkind.symm.trans hkind'
    exact absurd rfl hopened
  | returned hkind' hagenda' =>
    cases hkind.symm.trans hkind'
    rw [hagenda']
    unfold afterReturn
    split <;> rfl

section

variable {σ : Type} {s s' : State}

/-- **Calls in the argument of a return.**  A `return` is next, in front of the work `a`, whatever the run has come
from.  Its argument is evaluated in front of what is behind the `return` then.  If the argument is a call, and a
function of the program is applied by it, the depth stays as it is if nothing but ends of blocks comes between the
`return` and the end of its function, and grows by one else.  If every node has one place in the tree, the former is
the case just where the `return` is the last statement of its function. -/
theorem depth_of_returned_call (t : Tree) (config : Config) (hosts : List EmbeddedFunction) (output : Output)
    (clock : Nat → Nat) (rule : PauseRule σ) (memory : σ) (ht : t.WellPlaced) {s : State} {id e : NodeId} {a : Agenda}
    (hs : (build t config hosts output clock rule memory).Reaches s) (hagenda : s.agenda = .node id :: a)
    (hkind : t.kind? id = some (.returnStatement (some e))) :
    let m := build t config hosts output clock rule memory
    (∀ s', advance m.setting s = .running s' → s'.agenda = .node e :: a.afterReturn) ∧
      (∀ r r' f arity hasReceiver, m.Reaches r → r.agenda = .instr (.apply arity hasReceiver e) :: a.afterReturn →
        r.Applies f → advance m.setting r = .running r' →
          r'.calls.depth = if a.inTailPosition then r.calls.depth else r.calls.depth + 1) ∧
      (t.InOnePlace → (a.inTailPosition = true ↔ t.EndsFunction id)) := by
  intro m
  refine ⟨fun s' hrun => agenda_of_return hagenda hkind hrun,
    fun r r' f arity hasReceiver hr hnext happlies hrun => ?_, fun hone => ?_⟩
  · have hbehind : r.behind = a.afterReturn := by rw [State.behind, hnext, List.tail_cons]
    cases hposition : a.inTailPosition with
    | true =>
      have htidy : a.Tidy := hs.tidy.agenda.suffix (hagenda ▸ List.suffix_cons _ _)
      have hends : r.behind.endsCall = true := by
        rw [hbehind, afterReturn, if_pos hposition]
        exact htidy.endsCall_unwindCall (mem_marker_of_inTailPosition hposition)
      have hmem : ∃ env, .instr (.restore env true) ∈ r.agenda := by
        obtain ⟨env, rest, heq⟩ := endsCall_iff.mp hends
        exact ⟨env, List.mem_of_mem_tail (show _ ∈ r.behind by rw [heq]; exact List.mem_cons_self)⟩
      obtain ⟨env, hmem⟩ := hmem
      exact (entered_of_endsCall happlies hends (hr.balanced.now.depth_pos hmem rfl) hrun).1
    | false =>
      obtain ⟨fname, params, code, frame, -, -, hcalls⟩ := entered_of_applies happlies hrun
      have hends : r.behind.endsCall = false := by rw [hbehind, afterReturn, hposition]; rfl
      rw [hcalls, hends]
      exact Array.size_push frame
  · have hplace := hs.inPlace ht hone
    have hagenda' : Agenda.InPlace t (.node id :: a) := hagenda ▸ hplace.agenda
    refine (hagenda'.1 id List.mem_cons_self ?_).symm
    rw [Tree.isInnerStatement_of_kind hkind]
    rfl

end

end Machine

/-! ### Two programs -/

def Tree.returningCall (more : Bool) : Tree where
  names := .initial
  nodes := #[⟨.function none [] (.block []), .dummy⟩, ⟨.call ⟨0⟩ [], .dummy⟩, ⟨.returnStatement (some ⟨1⟩), .dummy⟩,
    ⟨.literal (.bool true), .dummy⟩, ⟨.ifStatement ⟨3⟩ ⟨2⟩ none, .dummy⟩, ⟨.block [], .dummy⟩,
    ⟨.function none [] (.block (⟨4⟩ :: bif more then [⟨5⟩] else [])), .dummy⟩, ⟨.call ⟨6⟩ [], .dummy⟩,
    ⟨.expressionStatement ⟨7⟩, .dummy⟩, ⟨.program [⟨8⟩], .dummy⟩]
  root := ⟨9⟩
  accepted := by cases more <;> decide

def State.isBefore (id : NodeId) (last : Bool) (s : State) : Bool :=
  match s.agenda with
  | .node next :: a => next == id && Agenda.inTailPosition a == last
  | _ => false

theorem State.exists_of_isBefore {id : NodeId} {last : Bool} {s : State} (h : s.isBefore id last = true) :
    ∃ a : Agenda, s.agenda = .node id :: a ∧ a.inTailPosition = last := by
  unfold isBefore at h
  split at h
  next next a hagenda =>
    rw [Bool.and_eq_true] at h
    exact ⟨a, by rw [hagenda, eq_of_beq h.1], eq_of_beq h.2⟩
  · cases h

def State.hasClosure (s : State) : Bool :=
  match s.stash with
  | .closure .. :: _ => true
  | _ => false

theorem State.applies_of_hasClosure {s : State} {id : NodeId} {a : Agenda} (h : s.hasClosure = true)
    (hagenda : s.agenda = .instr (.apply 0 false id) :: a) : ∃ f, s.Applies f := by
  unfold hasClosure at h
  split at h
  next identity f stash hstash => exact ⟨f, [], _, none, id, a, stash, hagenda, hstash, rfl⟩
  · cases h

namespace Machine

/-- The `return` of either program is come to, and its call is applied in the only call that is live. -/
theorem exists_returnedCall (more : Bool) :
    let m := build (.returningCall more) .standard [] default (fun _ => 0) .never ()
    ∃ (s r r' : State) (a : Agenda) (f : Closure), m.Reaches s ∧ s.agenda = .node ⟨2⟩ :: a ∧ a.inTailPosition = !more ∧
      m.Reaches r ∧
      r.agenda = .instr (.apply 0 false ⟨1⟩) :: a.afterReturn ∧ r.Applies f ∧ advance m.setting r = .running r' ∧
        r.calls.depth = 1 ∧ r'.calls.depth = bif more then 2 else 1 := by
  intro m
  have hrunning : (m.runThrough 8).progress.isRunning = true := by cases more <;> decide +kernel
  have hbefore : (m.runThrough 8).progress.state.isBefore ⟨2⟩ (!more) = true := by cases more <;> decide +kernel
  have hgoes : (travel m.setting 4 (m.runThrough 8).progress.state).isRunning = true := by cases more <;> decide +kernel
  have hcloses : (travel m.setting 3 (m.runThrough 8).progress.state).state.hasClosure = true := by
    cases more <;> decide +kernel
  have hdepth : (travel m.setting 3 (m.runThrough 8).progress.state).state.calls.depth = 1 := by
    cases more <;> decide +kernel
  have hdepth' : (travel m.setting 4 (m.runThrough 8).progress.state).state.calls.depth = bif more then 2 else 1 := by
    cases more <;> decide +kernel
  have hs : m.Reaches (m.runThrough 8).progress.state := ⟨8, Progress.eq_running hrunning⟩
  generalize (m.runThrough 8).progress.state = s at hbefore hgoes hcloses hdepth hdepth' hs
  obtain ⟨a, hagenda, hposition⟩ := State.exists_of_isBefore hbefore
  obtain ⟨s₁, hs₁, hgoes⟩ := exists_advance hgoes
  obtain ⟨s₂, hs₂, hgoes⟩ := exists_advance hgoes
  obtain ⟨r, hr, hgoes⟩ := exists_advance hgoes
  obtain ⟨r', hr', -⟩ := exists_advance hgoes
  rw [travel_succ, hs₁] at hcloses hdepth hdepth'
  dsimp only at hcloses hdepth hdepth'
  rw [travel_succ, hs₂] at hcloses hdepth hdepth'
  dsimp only at hcloses hdepth hdepth'
  rw [travel_succ, hr] at hcloses hdepth hdepth'
  dsimp only at hcloses hdepth hdepth'
  rw [travel_succ, hr'] at hdepth'
  have hagenda₁ : s₁.agenda = .node ⟨1⟩ :: a.afterReturn :=
    agenda_of_return hagenda (by cases more <;> rfl) hs₁
  have hagenda₂ : s₂.agenda = .node ⟨0⟩ :: .instr (.apply 0 false ⟨1⟩) :: a.afterReturn := by
    have hcall : m.setting.tree.kind? ⟨1⟩ = some (.call ⟨0⟩ []) := by cases more <;> rfl
    have h := ((move_of_advance hagenda₁ hs₂).plain_node hcall rfl fun _ h => by cases h).1
    cases more <;> exact h
  have hagenda' : r.agenda = .instr (.apply 0 false ⟨1⟩) :: a.afterReturn := by
    have hfunction : m.setting.tree.kind? ⟨0⟩ = some (.function none [] (.block [])) := by cases more <;> rfl
    exact ((move_of_advance hagenda₂ hr).plain_node hfunction rfl fun _ h => by cases h).1
  obtain ⟨f, hf⟩ := State.applies_of_hasClosure hcloses hagenda'
  exact ⟨s, r, r', a, f, hs, hagenda, hposition, ((hs.advance hs₁).advance hs₂).advance hr, hagenda', hf, hr', hdepth,
    hdepth'⟩

theorem depth_of_returned_call_sample :
    let m := build (.returningCall false) .standard [] default (fun _ => 0) .never ()
    (Tree.returningCall false).WellPlaced ∧ (Tree.returningCall false).InOnePlace ∧
      (Tree.returningCall false).EndsFunction ⟨2⟩ ∧ ∃ (s r r' : State) (a : Agenda) (f : Closure), m.Reaches s ∧
        s.agenda = .node ⟨2⟩ :: a ∧ m.Reaches r ∧
        r.agenda = .instr (.apply 0 false ⟨1⟩) :: a.afterReturn ∧ r.Applies f ∧ advance m.setting r = .running r' ∧
          r'.calls.depth = r.calls.depth := by
  intro m
  have ht : (Tree.returningCall false).WellPlaced := by decide
  have hone : (Tree.returningCall false).InOnePlace := by decide
  obtain ⟨s, r, r', a, f, hs, hagenda, hposition, hr, hagenda', hf, hrun, -, -⟩ := exists_returnedCall false
  obtain ⟨-, hdepth, hplace⟩ :=
    depth_of_returned_call (.returningCall false) .standard [] default (fun _ => 0) .never ()
    ht hs hagenda rfl
  have h := hdepth r r' f 0 false hr hagenda' hf hrun
  rw [hposition] at h
  exact ⟨ht, hone, (hplace hone).mp hposition, s, r, r', a, f, hs, hagenda, hr, hagenda', hf, hrun, h⟩

/-- With more to do behind it, a `return` has its call made inside of the one that it ends. -/
theorem early_return_grows :
    let m := build (.returningCall true) .standard [] default (fun _ => 0) .never ()
    (Tree.returningCall true).WellPlaced ∧ (Tree.returningCall true).kind? ⟨2⟩ = some (.returnStatement (some ⟨1⟩)) ∧
      (Tree.returningCall true).kind? ⟨1⟩ = some (.call ⟨0⟩ []) ∧
        ∃ (s r r' : State) (a : Agenda) (f : Closure), m.Reaches s ∧ s.agenda = .node ⟨2⟩ :: a ∧ m.Reaches r ∧
          r.agenda = .instr (.apply 0 false ⟨1⟩) :: a.afterReturn ∧ r.Applies f ∧ advance m.setting r = .running r' ∧
            r'.calls.depth ≠ r.calls.depth := by
  intro m
  obtain ⟨s, r, r', a, f, hs, hagenda, -, hr, hagenda', hf, hrun, hdepth, hdepth'⟩ := exists_returnedCall true
  refine ⟨by decide, rfl, rfl, s, r, r', a, f, hs, hagenda, hr, hagenda', hf, hrun, ?_⟩
  rw [hdepth, hdepth']
  decide

end Machine

end ExplicitControl
