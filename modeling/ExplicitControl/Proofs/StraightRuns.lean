import ExplicitControl.Proofs.Acyclic
import ExplicitControl.Proofs.Additions
import ExplicitControl.Proofs.Balance
import ExplicitControl.Proofs.Limits

/-!
# Runs without loops and calls

Without loops and calls, pending work only ever gets smaller: a node makes room for its children and a few
instructions, an instruction at most for nodes that it has been holding.  So a run ends, if no node contains itself; how
long it takes, and how much work is ever pending, is known from the tree alone.

That no node contains itself has to be asked for, since the check of a tree does not: `Tree.endless` contains
neither a loop nor a call.
-/

namespace ExplicitControl

/-! ## 1. Straight work -/

def NodeKind.repeats : NodeKind → Bool
  | .whileLoop .. | .forLoop .. | .call .. => true
  | _ => false

/-- Instructions that schedule nodes more than once, or nodes that they do not hold. -/
def Item.repeats : Item → Bool
  | .instr (.apply ..) | .instr (.whileTest ..) | .instr (.forTest ..) => true
  | _ => false

namespace Tree

def Straight (t : Tree) : Prop :=
  ∀ node ∈ t.nodes.toList, node.kind.repeats = false

instance (t : Tree) : Decidable t.Straight :=
  inferInstanceAs (Decidable (∀ node ∈ t.nodes.toList, _))

theorem Straight.kind {t : Tree} (ht : t.Straight) {id : NodeId} {kind : NodeKind} (hkind : t.kind? id = some kind) :
    kind.repeats = false := by
  obtain ⟨node, hnode, rfl⟩ := exists_node hkind
  exact ht node hnode

end Tree

/-- The item belongs to no loop and no call, and evaluates nodes that evaluating the root leads to. -/
structure Item.Straight (t : Tree) (item : Item) : Prop where
  once : item.repeats = false
  reached : ∀ id ∈ item.evaluated, t.Reached id

namespace Machine

open Agenda

variable {p : Setting} {s s' : State} {id : NodeId} {kind : NodeKind} {item it : Item}

theorem repeats_of_isSimple {i : Instr} (h : i.isSimple = true) : (Item.instr i).repeats = false := by
  cases i <;> first | rfl | cases h

theorem map_propertyNode (properties : List (Name × NodeId)) :
    properties.map (fun property => Item.node property.2) = (properties.map Prod.snd).map Item.node := by
  rw [List.map_map]
  rfl

theorem repeats_kindItems (h : kind.repeats = false) : ∀ it ∈ kindItems p id kind, it.repeats = false := by
  have nodes : ∀ ids : List NodeId, ∀ it ∈ ids.map Item.node, it.repeats = false := by
    intro ids it hit
    obtain ⟨id, -, rfl⟩ := List.mem_map.mp hit
    rfl
  cases kind with
  | program body => exact forall_mem_ofStatements (fun _ _ => rfl) rfl rfl
  | block body => exact forall_mem_ofStatements (fun _ _ => rfl) rfl rfl
  | arrayLiteral elements => exact List.forall_mem_append.mpr ⟨nodes elements, List.forall_mem_singleton.mpr rfl⟩
  | objectLiteral properties =>
    rw [kindItems, map_propertyNode]
    exact List.forall_mem_append.mpr ⟨nodes (properties.map Prod.snd), List.forall_mem_singleton.mpr rfl⟩
  | member object property => cases property <;> simp [kindItems, keyItem, Item.repeats]
  | memberAssignment object property value => cases property <;> simp [kindItems, keyItem, Item.repeats]
  | whileLoop => cases h
  | forLoop => cases h
  | call => cases h
  | _ => simp [kindItems, Item.repeats]

/-- What is put in front for a node evaluates children of the node. -/
theorem mem_evaluates_of_mem_kindItems (h : kind.repeats = false) (hit : it ∈ kindItems p id kind) {c : NodeId}
    (hc : c ∈ it.evaluated) : c ∈ kind.evaluates := by
  obtain hmem | ⟨callee, args, object, property, rfl, -⟩ := parent_of_part (part_of_mem it hit) hc
  · cases kind with
    | function name params body => cases hit
    | _ => exact hmem
  · cases h

/-- Straight items add straight items. -/
theorem Adds.straight (ht : p.tree.Straight) (h : Adds p item it) (hitem : item.Straight p.tree) :
    it.Straight p.tree := by
  cases h with
  | part hkind h =>
    have hid := hitem.reached _ (List.mem_singleton_self _)
    exact ⟨repeats_kindItems (ht.kind hkind) it h, fun c hc =>
      hid.to_child hkind (mem_evaluates_of_mem_kindItems (ht.kind hkind) h hc)⟩
  | @argument id argument hkind =>
    have hid := hitem.reached id (List.mem_singleton_self id)
    cases argument with
    | none => exact ⟨rfl, List.forall_mem_nil _⟩
    | some value => exact ⟨rfl, List.forall_mem_singleton.mpr (hid.to_child hkind List.mem_cons_self)⟩
  | offered h =>
    cases h with
    | node h => exact ⟨rfl, List.forall_mem_singleton.mpr (hitem.reached _ h)⟩
    | simple h => exact ⟨repeats_of_isSimple h, fun c hc => absurd hc (not_mem_evaluated_of_isSimple h c)⟩
    | again => exact hitem
    | _ => exact ⟨rfl, List.forall_mem_nil _⟩
  | jump => exact hitem
  | body => cases hitem.once
  | _ => exact ⟨rfl, List.forall_mem_nil _⟩

end Machine

/-! ## 2. The price of pending work -/

/-- What is left to be paid for an item: what evaluating its nodes costs, and one for an instruction itself. -/
def Item.price (c : NodeId → Nat) : Item → Nat
  | .node id => c id
  | .instr i => 1 + (i.choices.map c).sum

@[simp] theorem Item.price_node (c : NodeId → Nat) (id : NodeId) : (Item.node id).price c = c id := rfl

@[simp] theorem Item.price_instr (c : NodeId → Nat) (i : Instr) :
    (Item.instr i).price c = 1 + (i.choices.map c).sum := rfl

def Item.isJump : Item → Bool
  | .instr i => i.target?.isSome
  | .node _ => false

namespace Agenda

variable {c : NodeId → Nat} {a b : Agenda} {item : Item}

def price (c : NodeId → Nat) (a : Agenda) : Nat :=
  (a.map (Item.price c)).sum

/-- The measure of a run.  A jump that stops at the end of a scope gets behind it, so a jump that is next counts for one
more. -/
def burden (c : NodeId → Nat) (a : Agenda) : Nat :=
  2 * a.price c + if a.head?.any Item.isJump then 1 else 0

@[simp] theorem price_nil : price c [] = 0 := rfl

@[simp] theorem price_cons : price c (item :: a) = item.price c + a.price c := by
  simp [price]

@[simp] theorem price_append : price c (a ++ b) = a.price c + b.price c := by
  simp [price]

theorem burden_cons : burden c (item :: a) = 2 * (item.price c + a.price c) + if item.isJump then 1 else 0 := by
  rw [burden, price_cons]
  rfl

theorem price_le_of_suffix (h : a <:+ b) : a.price c ≤ b.price c := by
  obtain ⟨dropped, rfl⟩ := h
  rw [price_append]
  exact Nat.le_add_left _ _

theorem price_map_node (ids : List NodeId) : price c (ids.map Item.node) = (ids.map c).sum := by
  rw [price, List.map_map]
  rfl

theorem sum_le_sum_succ (ids : List NodeId) : (ids.map c).sum ≤ (ids.map fun id => c id + 1).sum := by
  induction ids with
  | nil => exact Nat.le_refl 0
  | cons id rest ih => simp only [List.map_cons, List.sum_cons]; omega

theorem price_ofStatements (body : List NodeId) :
    price c (ofStatements body) ≤ (body.map fun id => c id + 1).sum + 1 := by
  fun_induction ofStatements body with
  | case1 => simp [Item.price, Instr.choices]
  | case2 id => simp [Item.price]; omega
  | case3 id rest hrest ih =>
    simp only [price_cons, Item.price_node, Item.price_instr, Instr.choices, List.map_nil, List.map_cons, List.sum_nil,
      List.sum_cons]
    omega

theorem burden_lt_of_price_lt (h : a.price c < b.price c) : a.burden c < b.burden c := by
  unfold burden
  split <;> split <;> omega

/-- Items that each have a price are at most as many. -/
theorem length_le_price (h : ∀ item ∈ a, 1 ≤ item.price c) : a.length ≤ a.price c := by
  induction a with
  | nil => exact Nat.le_refl 0
  | cons item rest ih =>
    rw [List.forall_mem_cons] at h
    rw [List.length_cons, price_cons, Nat.add_comm]
    exact Nat.add_le_add h.1 (ih h.2)

end Agenda

namespace Machine

open Agenda

variable {p : Setting} {s s' : State} {id : NodeId} {kind : NodeKind} {item : Item} {c : NodeId → Nat}

theorem price_keyItem (property : MemberProperty) :
    (keyItem p property).price c ≤ 1 + (property.key?.toList.map fun id => c id + 1).sum := by
  cases property with
  | named name => exact Nat.le_refl 1
  | computed key => simp [keyItem, Item.price, MemberProperty.key?]; omega

/-- A node costs more than what is put in front for it, its scope and the padding of a program included. -/
theorem price_kindItems (h : kind.repeats = false) : price c (kindItems p id kind) + 3 ≤ kind.toll c := by
  unfold NodeKind.toll
  cases kind with
  | program body =>
    have hbody : price c (kindItems p id (.program body)) ≤ (body.map fun id => c id + 1).sum + 1 :=
      price_ofStatements body
    simp only [NodeKind.evaluates, NodeKind.children]
    omega
  | block body =>
    have hbody : price c (kindItems p id (.block body)) ≤ (body.map fun id => c id + 1).sum + 1 :=
      price_ofStatements body
    simp only [NodeKind.evaluates, NodeKind.children]
    omega
  | arrayLiteral elements =>
    have helements := sum_le_sum_succ (c := c) elements
    simp [kindItems, price_map_node, Instr.choices, NodeKind.evaluates, NodeKind.children]
    omega
  | objectLiteral properties =>
    have hvalues := sum_le_sum_succ (c := c) (properties.map Prod.snd)
    rw [kindItems, map_propertyNode]
    simp only [price_append, price_map_node, price_cons, price_nil, Item.price_instr, Instr.choices, List.map_nil,
      List.sum_nil, NodeKind.evaluates, NodeKind.children]
    omega
  | member object property =>
    have hkey := price_keyItem (p := p) (c := c) property
    simp only [kindItems, price_cons, price_nil, Item.price_node, Item.price_instr, Instr.choices, List.map_nil,
      List.sum_nil, NodeKind.evaluates, NodeKind.children, List.map_cons, List.sum_cons]
    omega
  | memberAssignment object property value =>
    have hkey := price_keyItem (p := p) (c := c) property
    simp only [kindItems, price_cons, price_nil, Item.price_node, Item.price_instr, Instr.choices, List.map_nil,
      List.sum_nil, NodeKind.evaluates, NodeKind.children, List.map_cons, List.sum_cons, List.map_append,
      List.sum_append]
    omega
  | ifStatement test consequent alternate =>
    have halternate := sum_le_sum_succ (c := c) alternate.toList
    simp only [kindItems, price_cons, price_nil, Item.price_node, Item.price_instr, Instr.choices,
      NodeKind.evaluates, NodeKind.children, List.map_cons, List.sum_cons]
    omega
  | whileLoop => cases h
  | forLoop => cases h
  | call => cases h
  | _ =>
    simp [kindItems, Instr.choices, NodeKind.evaluates, NodeKind.children] <;> omega

theorem price_padding (kind : NodeKind) : price c kind.padding ≤ 1 := by
  cases kind <;> simp [NodeKind.padding, Instr.choices]

theorem price_opening (env : Env) (a : Agenda) : price c (a.opening env) ≤ 1 + price c a := by
  unfold Agenda.opening
  split
  · exact Nat.le_add_left _ _
  · exact Nat.le_of_eq price_cons

/-- A `return` costs more than its argument and the jump behind it. -/
theorem price_returnItem (argument : Option NodeId) :
    (returnItem argument).price c + 3 ≤ NodeKind.toll c (.returnStatement argument) := by
  cases argument with
  | none => exact Nat.le_add_left 4 1
  | some value =>
    simp only [returnItem, Option.map_some, Option.getD_some, Item.price_node, NodeKind.toll, NodeKind.evaluates,
      NodeKind.children, Option.toList_some, List.map_cons, List.map_nil, List.sum_cons, List.sum_nil]
    omega

/-- What an instruction offers costs less than the instruction, tests of loops apart. -/
theorem price_offers {i : Instr} {items : List Item} (hi : (Item.instr i).repeats = false) (h : items ∈ i.offers) :
    price c items < (Item.instr i).price c := by
  cases i with
  | logical op right node =>
    simp only [Instr.offers, List.mem_cons, List.not_mem_nil, or_false] at h
    obtain rfl | rfl := h
    · exact Nat.lt_add_right _ Nat.one_pos
    · simp [Instr.choices]
  | branch consequent alternate node =>
    simp only [Instr.offers, List.mem_cons, List.not_mem_nil, or_false] at h
    obtain rfl | rfl := h
    · simp [Instr.choices]; omega
    · cases alternate with
      | none => exact Nat.lt_add_right _ Nat.one_pos
      | some alternate => simp [Instr.choices]; omega
  | whileTest => cases hi
  | forTest => cases hi
  | _ =>
    rw [List.mem_singleton.mp h]
    exact Nat.lt_add_right _ Nat.one_pos

/-! ## 3. Steps -/

theorem burden_lt_of_append (added : List Item) {a kept : Agenda} (hkept : kept <:+ a)
    (hadded : price c added < item.price c) : burden c (added ++ kept) < burden c (item :: a) := by
  refine burden_lt_of_price_lt ?_
  have hle := price_le_of_suffix (c := c) hkept
  rw [price_append, price_cons]
  omega

theorem burden_lt_of_suffix {i : Instr} {a kept : Agenda} (hkept : kept <:+ a) :
    burden c kept < burden c (.instr i :: a) :=
  burden_lt_of_append [] hkept (Nat.lt_add_right _ Nat.one_pos)

/-- What is left of straight work has a smaller burden. -/
theorem Reschedules.burden_lt (ht : p.tree.Straight) (hknot : p.tree.Unknotted)
    (hitem : item.Straight p.tree) {env : Env}
    {a b : Agenda} (h : Reschedules p env a item b) : burden p.tree.work b < burden p.tree.work (item :: a) := by
  have work : ∀ {id : NodeId} {kind : NodeKind}, item = .node id → p.tree.kind? id = some kind →
      (Item.node id).price p.tree.work = kind.toll p.tree.work := by
    rintro id kind rfl hkind
    exact hknot.work_eq (hitem.reached id (List.mem_singleton_self id)) hkind
  cases h with
  | @plain id kind hkind hopened hgoes =>
    rw [← List.append_assoc]
    refine burden_lt_of_append _ List.suffix_rfl ?_
    have hitems : price p.tree.work (kindItems p id kind) + 3 ≤ _ := price_kindItems (ht.kind hkind)
    have hpadding := price_padding (c := p.tree.work) kind
    rw [price_append, work rfl hkind]
    omega
  | @scope id kind hkind hopened =>
    refine burden_lt_of_price_lt ?_
    have hitems : price p.tree.work (kindItems p id kind) + 3 ≤ _ := price_kindItems (ht.kind hkind)
    have hpadding := price_padding (c := p.tree.work) kind
    have hopening := price_opening (c := p.tree.work) env (kind.padding ++ a)
    rw [price_append] at hopening
    rw [price_append, price_cons, work rfl hkind]
    omega
  | @returned id argument hkind =>
    have hvalue := price_returnItem (c := p.tree.work) argument
    rw [← work rfl hkind] at hvalue
    split
    · refine burden_lt_of_append [_] (unwindCall_suffix _) ?_
      rw [price_cons, price_nil]
      omega
    · refine burden_lt_of_append [_, _] List.suffix_rfl ?_
      simp only [price_cons, price_nil, Item.price_instr, Instr.choices, List.map_nil, List.sum_nil]
      omega
  | offered hplain hoffered => exact burden_lt_of_append _ List.suffix_rfl (price_offers hitem.once hoffered)
  | same => exact burden_lt_of_suffix List.suffix_rfl
  | reset => exact burden_lt_of_suffix (unwindCall_suffix _)
  | reached htarget hsearch => exact burden_lt_of_suffix (suffix_of_searchLoop_reached hsearch)
  | @stopped i target ending rest htarget hsearch =>
    -- The price stays the same at most, but the jump is not next any more.
    obtain ⟨dropped, env', closesCall, -, rfl, heq⟩ := eq_of_searchLoop_scope hsearch
    have hjump : (Item.instr i).isJump = true := by
      rw [Item.isJump, htarget]
      rfl
    have hend : (Item.instr (.restore env' closesCall)).isJump = false := rfl
    rw [heq, burden_cons, burden_cons, if_pos hjump, hend, if_neg Bool.false_ne_true]
    simp only [price_cons, price_append]
    omega
  | entered => cases hitem.once

/-- Straight work calls nothing. -/
theorem not_invokes_of_once (hitem : item.repeats = false) (k : Nat) (v : Value) :
    ¬State.Invokes { s with agenda := item :: s.agenda } k v := by
  rintro ⟨args, callee, receiver, node, rest, stash, hagenda, -⟩
  cases hagenda
  cases hitem

/-- Every step on straight work makes the burden smaller. -/
theorem Move.burden_lt (ht : p.tree.Straight) (hknot : p.tree.Unknotted) (hitem : item.Straight p.tree)
    (h : Move p s s' item) : burden p.tree.work s'.agenda < burden p.tree.work (item :: s.agenda) :=
  (h.reschedules (not_invokes_of_once hitem.once)).burden_lt ht hknot hitem

/-! ## 4. Runs -/

section

variable {σ : Type} {t : Tree} {config : Config} {hosts : List EmbeddedFunction} {output : Output} {clock : Nat → Nat}
  {rule : PauseRule σ} {memory : σ}

theorem Reaches.straight (ht : t.Straight) (hs : (build t config hosts output clock rule memory).Reaches s) :
    s.AllItems (Item.Straight t) := by
  refine hs.allItems ⟨?_, fun k hk => absurd hk (Array.not_mem_empty _)⟩ fun _ _ hitem hadds => hadds.straight ht hitem
  exact List.forall_mem_singleton.mpr ⟨rfl, List.forall_mem_singleton.mpr .refl⟩

/-- A step of a run makes the burden smaller. -/
theorem burden_lt_of_advance (ht : t.Straight) (hknot : t.Unknotted)
    (hs : (build t config hosts output clock rule memory).Reaches s)
    (h : advance (build t config hosts output clock rule memory).setting s = .running s') :
    burden t.work s'.agenda < burden t.work s.agenda := by
  cases hagenda : s.agenda with
  | nil => rw [advance_nil _ hagenda] at h; cases h
  | cons item rest =>
    have hitem := (hs.straight ht).agenda item (hagenda ▸ List.mem_cons_self)
    exact (move_of_advance hagenda h).burden_lt ht hknot hitem

/-- A run does not go on for more steps than the burden allows. -/
theorem travel_ends (ht : t.Straight) (hknot : t.Unknotted) {n : Nat}
    (hs : (build t config hosts output clock rule memory).Reaches s) (hn : burden t.work s.agenda < n) :
    (travel (build t config hosts output clock rule memory).setting n s).isRunning = false := by
  induction n generalizing s with
  | zero => exact absurd hn (Nat.not_lt_zero _)
  | succ n ih =>
    rw [travel_succ]
    cases ha : advance (build t config hosts output clock rule memory).setting s with
    | running s' =>
      exact ih (hs.advance ha)
        (Nat.lt_of_lt_of_le (burden_lt_of_advance ht hknot hs ha) (Nat.le_of_lt_succ hn))
    | finished v s' => rfl
    | failed e s' => rfl

/-- The steps taken and the burden that is left are together no more than the burden of the root. -/
theorem Reaches.burden_le (ht : t.Straight) (hknot : t.Unknotted)
    (hs : (build t config hosts output clock rule memory).Reaches s) :
    s.steps + burden t.work s.agenda ≤ 2 * t.work t.root := by
  refine hs.induct (I := fun s => s.steps + burden t.work s.agenda ≤ 2 * t.work t.root) ?_
    fun s s' item rest hr hle _ ha _ => ?_
  · show 0 + burden t.work [.node t.root] ≤ 2 * t.work t.root
    simp [burden_cons, Item.isJump]
  · have hlt := burden_lt_of_advance ht hknot hr ha
    rw [advance_steps ha]
    omega

theorem one_le_price (hknot : t.Unknotted) {item : Item} (hitem : item.Straight t) : 1 ≤ item.price t.work := by
  cases item with
  | node id =>
    have hid := hitem.reached id (List.mem_singleton_self id)
    obtain ⟨kind, hkind⟩ := hid.has
    rw [Item.price_node, hknot.work_eq hid hkind, NodeKind.toll]
    omega
  | instr i => exact Nat.le_add_right 1 _

/-- In a tree without loops and calls in which no node contains itself, every run ends, with a value or with an error;
how many steps it takes and how much work is pending on the way is bounded by the tree. -/
theorem straight_runs_end (t : Tree) (ht : t.Straight) (hknot : t.Unknotted) (config : Config)
    (hosts : List EmbeddedFunction) (output : Output) (clock : Nat → Nat) (rule : PauseRule σ) (memory : σ) :
    let m := build t config hosts output clock rule memory
    (∃ n, (∃ v s, (m.runThrough n).progress = .finished v s) ∨ ∃ e s, (m.runThrough n).progress = .failed e s) ∧
      ∀ s, m.Reaches s → s.agenda.length ≤ t.work t.root ∧ s.steps ≤ 2 * t.work t.root := by
  intro m
  refine ⟨?_, fun s hs => ?_⟩
  · have hend : (travel m.setting (burden t.work m.state.agenda + 1) m.state).isRunning = false :=
      travel_ends ht hknot (reaches_start m) (Nat.lt_succ_self _)
    obtain ⟨n, hn⟩ := (exists_progress_iff m fun r => r.isRunning = false).mpr ⟨_, hend⟩
    refine ⟨n, ?_⟩
    cases hr : (m.runThrough n).progress with
    | running s => rw [hr] at hn; cases hn
    | finished v s => exact .inl ⟨v, s, rfl⟩
    | failed e s => exact .inr ⟨e, s, rfl⟩
  · have hle := hs.burden_le ht hknot
    have hlength := length_le_price fun item hitem => one_le_price hknot ((hs.straight ht).agenda item hitem)
    unfold burden at hle
    omega

end

theorem straight_runs_end_leaving :
    let m := build .leaving .standard [] default (fun _ => 0) .never ()
    Tree.leaving.Straight ∧ Tree.leaving.Unknotted ∧
      (∃ n, (∃ v s, (m.runThrough n).progress = .finished v s) ∨ ∃ e s, (m.runThrough n).progress = .failed e s) ∧
      ∀ s, m.Reaches s → s.agenda.length ≤ Tree.leaving.work ⟨3⟩ ∧ s.steps ≤ 2 * Tree.leaving.work ⟨3⟩ := by
  have hstraight : Tree.leaving.Straight := by decide
  have hknot : Tree.leaving.Unknotted := Tree.BottomUp.unknotted (by decide)
  exact ⟨hstraight, hknot, straight_runs_end .leaving hstraight hknot .standard [] default (fun _ => 0) .never ()⟩

end Machine

/-! ## 5. A run without end -/

/-- A program of a statement that is its own expression. -/
def Tree.endless : Tree where
  names := .initial
  nodes := #[⟨.expressionStatement ⟨0⟩, .dummy⟩, ⟨.program [⟨0⟩], .dummy⟩]
  root := ⟨1⟩
  accepted := by decide

namespace Machine

variable {p : Setting}

/-- Without limits on steps and time, a step is only counted. -/
theorem tick_of_unlimited (hsteps : p.config.stepLimit = none) (htime : p.config.timeLimit = none) (s : State) :
    tick p s = .ok () { s with steps := s.steps + 1 } := by
  rw [tick_eq, hsteps, Option.any_none, if_neg Bool.false_ne_true]
  split
  · unfold checkDeadline
    rw [htime]
  · rfl

/-- The statement that is its own expression is still there after a step. -/
theorem exists_advance_endless (htree : p.tree = .endless) (hconfig : p.config = .standard) {s : State} {rest : Agenda}
    (hs : s.agenda = .node ⟨0⟩ :: rest) : ∃ s', advance p s = .running s' ∧ s'.agenda = .node ⟨0⟩ :: rest := by
  have hkind : p.tree.kind? ⟨0⟩ = some (.expressionStatement ⟨0⟩) := by
    rw [htree]
    rfl
  have hstep : Ensures (execute p (.node ⟨0⟩)) { s with agenda := rest } (fun _ s' => s'.agenda = .node ⟨0⟩ :: rest)
      fun _ _ => False := by
    unfold execute
    rw [ensures_bind, ensures_of_ok (tick_of_unlimited (by rw [hconfig]; rfl) (by rw [hconfig]; rfl) _), ensures_bind,
      ensures_modify]
    unfold evalNode kindOf
    rw [hkind]
    rfl
  cases hx : execute p (.node ⟨0⟩) { s with agenda := rest } with
  | error e s' => exact ((ensures_of_error hx).mp hstep).elim
  | ok _ s' => exact ⟨s', advanceBy_ok hs hx, (ensures_of_ok hx).mp hstep⟩

/-- A tree without loops and calls need not have an end. -/
theorem straight_run_without_end : Tree.endless.Straight ∧
    ∀ n, ((build .endless .standard [] default (fun _ => 0) .never ()).runThrough n).progress.isRunning = true := by
  refine ⟨by decide, (forall_progress_iff _ fun r => r.isRunning = true).mpr fun k => ?_⟩
  obtain ⟨m, hm⟩ : ∃ m, m = build .endless .standard [] default (fun _ => 0) .never () := ⟨_, rfl⟩
  rw [← hm]
  have hgoes : ∀ k s rest, s.agenda = .node ⟨0⟩ :: rest → (travel m.setting k s).isRunning = true := by
    intro k
    induction k with
    | zero => exact fun _ _ _ => rfl
    | succ k ih =>
      intro s rest hs
      obtain ⟨s', ha, hs'⟩ := exists_advance_endless (p := m.setting) (by rw [hm]; rfl) (by rw [hm]; rfl) hs
      rw [travel_succ, ha]
      exact ih s' rest hs'
  cases k with
  | zero => rfl
  | succ k =>
    -- The first step gets to the statement.
    have hfirst : (advance m.setting m.state).isRunning = true := by
      rw [hm]
      decide +kernel
    have hnext : (advance m.setting m.state).state.agenda.head?.bind Item.node? = some ⟨0⟩ := by
      rw [hm]
      decide +kernel
    rw [travel_succ, Progress.eq_running hfirst]
    obtain ⟨rest, hrest⟩ := State.exists_agenda hnext
    exact hgoes k _ rest hrest

end Machine

end ExplicitControl
