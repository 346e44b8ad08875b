import ExplicitControl.Proofs.Acceptance
import ExplicitControl.Proofs.Nesting
import ExplicitControl.Proofs.PendingWork

/-!
# What a step adds to the pending work

A step takes an item off the pending work, puts others in front and keeps a part of the rest; or it goes back to the
pending work of a captured continuation.  `Adds` says which items are put in front.  What holds of every item at the
start, and of every item that is added for one of which it holds, holds of all items that a run ever has.

So a machine schedules ids only that nodes of its tree store, and those of a node for that node.
-/

namespace ExplicitControl

/-- A property of all pending items, those of captured continuations among them. -/
structure State.AllItems (P : Item → Prop) (s : State) : Prop where
  agenda : ∀ item ∈ s.agenda, P item
  snapshots : ∀ k ∈ s.snapshots, ∀ item ∈ k.agenda, P item

namespace Machine

open Agenda

variable {p : Setting} {s s' : State} {item it : Item}

/-! ## 1. Added items -/

inductive Adds (p : Setting) : Item → Item → Prop where
  | part {id : NodeId} {kind : NodeKind} {it : Item} (hkind : p.tree.kind? id = some kind)
    (h : it ∈ kindItems p id kind) :
      Adds p (.node id) it
  | padding {id : NodeId} : Adds p (.node id) (.instr .pushUndefinedIfNeeded)
  | argument {id : NodeId} {argument : Option NodeId} (hkind : p.tree.kind? id = some (.returnStatement argument)) :
      Adds p (.node id) (returnItem argument)
  | reset {id : NodeId} : Adds p (.node id) (.instr .reset)
  | offered {i : Instr} {it : Item} (h : Offered i it) : Adds p (.instr i) it
  /-- A jump goes on behind the end of a scope. -/
  | jump {i : Instr} {target : Marker} (h : i.target? = some target) : Adds p (.instr i) (.instr i)
  | body {arity : Nat} {hasReceiver : Bool} {node f : NodeId} {fname : Option Name} {params : List Name}
      {code : FunctionBody} {it : Item} (hkind : p.tree.kind? f = some (.function fname params code))
      (h : BodyPart code it) : Adds p (.instr (.apply arity hasReceiver node)) it
  | ending {item : Item} {env : Env} {closesCall : Bool} : Adds p item (.instr (.restore env closesCall))

def Continues (p : Setting) (s s' : State) (item : Item) : Prop :=
  ∃ added kept, s'.agenda = added ++ kept ∧ (∀ it ∈ added, Adds p item it) ∧
    (kept <:+ s.agenda ∨ ∃ k ∈ s'.snapshots, kept = k.agenda)

/-- What an item leaves are items that it adds in front of a part of the rest. -/
theorem Reschedules.adds {env : Env} {a b : Agenda} (h : Reschedules p env a item b) :
    ∃ added kept, b = added ++ kept ∧ (∀ it ∈ added, Adds p item it) ∧ kept <:+ a := by
  have padded : ∀ {id : NodeId} {kind : NodeKind}, ∀ it ∈ kind.padding, Adds p (.node id) it :=
    fun it hit => eq_of_mem_padding hit ▸ .padding
  cases h with
  | plain hkind hopened hgoes =>
    rw [← List.append_assoc]
    exact ⟨_, a, rfl, List.forall_mem_append.mpr ⟨fun _ => .part hkind, padded⟩, List.suffix_rfl⟩
  | @scope id kind hkind hopened =>
    have hparts : ∀ it ∈ kindItems p id kind, Adds p (.node id) it := fun _ => .part hkind
    unfold Agenda.opening
    split
    · rw [← List.append_assoc]
      exact ⟨_, a, rfl, List.forall_mem_append.mpr ⟨hparts, padded⟩, List.suffix_rfl⟩
    · rw [← List.cons_append, ← List.append_assoc]
      exact ⟨_, a, rfl, List.forall_mem_append.mpr ⟨hparts, List.forall_mem_cons.mpr ⟨.ending, padded⟩⟩,
        List.suffix_rfl⟩
  | returned hkind =>
    split
    · exact ⟨[_], _, rfl, List.forall_mem_singleton.mpr (.argument hkind), unwindCall_suffix a⟩
    · exact ⟨[_, _], a, rfl, List.forall_mem_cons.mpr ⟨.argument hkind, List.forall_mem_singleton.mpr .reset⟩,
        List.suffix_rfl⟩
  | offered hplain hoffered =>
    exact ⟨_, a, rfl, fun it hit => .offered (offered_of_mem hoffered hit), List.suffix_rfl⟩
  | same => exact ⟨[], a, rfl, List.forall_mem_nil _, List.suffix_rfl⟩
  | reset => exact ⟨[], _, rfl, List.forall_mem_nil _, unwindCall_suffix a⟩
  | reached htarget hsearch => exact ⟨[], _, rfl, List.forall_mem_nil _, suffix_of_searchLoop_reached hsearch⟩
  | @stopped i target ending rest htarget hsearch =>
    obtain ⟨dropped, env', closesCall, -, rfl, -⟩ := eq_of_searchLoop_scope hsearch
    exact ⟨[_, _], rest, rfl, List.forall_mem_cons.mpr ⟨.ending, List.forall_mem_singleton.mpr (.jump htarget)⟩,
      (List.suffix_cons _ _).trans (suffix_of_searchLoop_scope hsearch)⟩
  | @entered arity hasReceiver node f fname params code hkind =>
    have hadded : ∀ ending, ∀ it ∈ bodyItems code ++ [.instr (.restore ending true)],
        Adds p (.instr (.apply arity hasReceiver node)) it := fun ending =>
      List.forall_mem_append.mpr
        ⟨fun it hit => .body hkind (bodyPart_of_mem it hit), List.forall_mem_singleton.mpr .ending⟩
    -- The end of the call is added, or is the next item changed into one.
    obtain ⟨-, -, hclosing⟩ | ⟨env', closesCall, rest, rfl, -, hclosing⟩ := closing_cases env a
    · exact ⟨_, a, by rw [hclosing, List.append_cons], hadded env, List.suffix_rfl⟩
    · exact ⟨_, rest, by rw [hclosing, List.append_cons], hadded env', List.suffix_cons _ _⟩

/-- Every step adds items in front of a part of the pending work, or goes back to captured work. -/
theorem Move.continues (h : Move p s s' item) : Continues p s s' item := by
  obtain hrescheduled | ⟨-, k, hk, hagenda⟩ := h.reschedules_or_resumes
  · obtain ⟨added, kept, hagenda, hadded, hkept⟩ := hrescheduled.adds
    exact ⟨added, kept, hagenda, hadded, .inl hkept⟩
  · exact ⟨[], k.agenda, hagenda, List.forall_mem_nil _, .inr ⟨k, hk, rfl⟩⟩

/-- What holds of all items, and of those that are added for one of them, holds of all items after the step. -/
theorem Move.allItems {P : Item → Prop} (h : Move p s s' item) (hs : s.AllItems P)
    (hadds : ∀ it, Adds p item it → P it) :
    s'.AllItems P := by
  have hsnapshots : ∀ k ∈ s'.snapshots, ∀ it ∈ k.agenda, P it := by
    intro k hk it hit
    obtain hold | ⟨-, hsame, -⟩ := h.captures k hk
    · exact hs.snapshots k hold it hit
    · exact hs.agenda it (hsame ▸ hit)
  refine ⟨fun it hit => ?_, hsnapshots⟩
  obtain ⟨added, kept, hagenda, hadded, hkept⟩ := h.continues
  rw [hagenda] at hit
  obtain hit | hit := List.mem_append.mp hit
  · exact hadds it (hadded it hit)
  · obtain hkept | ⟨k, hk, rfl⟩ := hkept
    · exact hs.agenda it (hkept.subset hit)
    · exact hsnapshots k hk it hit

variable {σ : Type} {m : Machine σ}

/-- A property of the first items that added items get from those that they are added for is one of all items of a
run. -/
theorem Reaches.allItems {P : Item → Prop} (hs : m.Reaches s) (hstart : m.state.AllItems P)
    (hadds : ∀ item it, P item → Adds m.setting item it → P it) : s.AllItems P := by
  refine hs.induct hstart fun s s' item rest _ hall hagenda _ hmove => ?_
  refine hmove.allItems ⟨fun it hit => ?_, hall.snapshots⟩ fun it => hadds item it ?_
  · exact hall.agenda it (hagenda ▸ List.mem_cons_of_mem _ hit)
  · exact hall.agenda item (hagenda ▸ List.mem_cons_self)

/-! ## 2. Scheduled nodes -/

/-- Where an item gets a node from that it schedules: a node schedules what it stores, and a method call what its callee
stores; an instruction schedules what it has been given; and a call schedules what the function stores. -/
inductive Supplies (p : Setting) : Item → NodeId → Prop where
  | stored {id child : NodeId} {kind : NodeKind} (hkind : p.tree.kind? id = some kind) (h : kind.Holds child) :
      Supplies p (.node id) child
  | operand {id callee child object : NodeId} {args : List NodeId} {property : MemberProperty}
      (hkind : p.tree.kind? id = some (.call callee args))
      (hcallee : p.tree.kind? callee = some (.member object property))
      (h : NodeKind.Holds (.member object property) child) : Supplies p (.node id) child
  | given {i : Instr} {child : NodeId} (h : child ∈ i.choices) : Supplies p (.instr i) child
  | body {arity : Nat} {hasReceiver : Bool} {node f child : NodeId} {fname : Option Name} {params : List Name}
      {code : FunctionBody} (hkind : p.tree.kind? f = some (.function fname params code))
      (h : NodeKind.Holds (.function fname params code) child) :
      Supplies p (.instr (.apply arity hasReceiver node)) child

theorem not_mem_evaluated_of_isSimple {i : Instr} (h : i.isSimple = true) (c : NodeId) :
    c ∉ (Item.instr i).evaluated := by
  cases i <;> first | cases h; done | exact List.not_mem_nil

/-- What is added for an item evaluates only what the item supplies. -/
theorem Adds.supplies (h : Adds p item it) {c : NodeId} (hc : c ∈ it.evaluated) : Supplies p item c := by
  cases h with
  | part hkind h =>
    obtain hmem | ⟨callee, args, object, property, rfl, hcallee, hmem⟩ := parent_of_part (part_of_mem it h) hc
    · exact .stored hkind (NodeKind.holds_of_mem_children hmem)
    · exact .operand hkind hcallee (NodeKind.holds_of_mem_children hmem)
  | @argument id argument hkind =>
    cases argument with
    | none => cases hc
    | some value => exact .stored hkind (List.mem_singleton.mp hc ▸ .returned)
  | offered h =>
    cases h with
    | node h => exact .given (List.mem_singleton.mp hc ▸ h)
    | simple h => exact absurd hc (not_mem_evaluated_of_isSimple h c)
    | again => exact .given hc
    | _ => cases hc
  | jump => exact .given hc
  | @body arity hasReceiver node f fname params code it hkind h =>
    cases h with
    | child h =>
      refine .body hkind (NodeKind.holds_of_mem_children (List.mem_singleton.mp hc ▸ ?_))
      cases code <;> exact h
    | simple h => exact absurd hc (not_mem_evaluated_of_isSimple h c)
    | marker => cases hc
  | _ => cases hc

end Machine

namespace Tree

def Stores (t : Tree) (id : NodeId) : Prop :=
  ∃ node ∈ t.nodes.toList, node.kind.Holds id

theorem stores_of_holds {t : Tree} {id child : NodeId} {kind : NodeKind} (hkind : t.kind? id = some kind)
    (h : kind.Holds child) : t.Stores child := by
  obtain ⟨node, hnode, rfl⟩ := exists_node hkind
  exact ⟨node, hnode, h⟩

end Tree

namespace Machine

variable {p : Setting} {s s' : State} {item : Item} {σ : Type} {t : Tree} {config : Config}
  {hosts : List EmbeddedFunction}
  {output : Output} {clock : Nat → Nat} {rule : PauseRule σ} {memory : σ}

/-- What an item supplies is stored in the tree, if what it evaluates itself is. -/
theorem Supplies.stored_or_given {c : NodeId} (h : Supplies p item c) : p.tree.Stores c ∨ c ∈ item.evaluated := by
  cases h with
  | stored hkind h => exact .inl (Tree.stores_of_holds hkind h)
  | operand hkind hcallee h => exact .inl (Tree.stores_of_holds hcallee h)
  | given h => exact .inr h
  | body hkind h => exact .inl (Tree.stores_of_holds hkind h)

/-- Pending work evaluates the root, and ids that nodes of the tree store. -/
theorem Reaches.stored (hs : (build t config hosts output clock rule memory).Reaches s) :
    s.AllItems fun item => ∀ id ∈ item.evaluated, id = t.root ∨ t.Stores id := by
  refine hs.allItems ⟨?_, fun k hk => absurd hk (Array.not_mem_empty _)⟩ fun item it hitem hadds id hid => ?_
  · exact List.forall_mem_singleton.mpr (List.forall_mem_singleton.mpr (.inl rfl))
  · obtain hstored | hgiven := (hadds.supplies hid).stored_or_given
    · exact .inr hstored
    · exact hitem id hgiven

/-- What a step schedules: in front of a part of the rest, or of captured work, come items that evaluate what the item
supplies. -/
def SchedulesSupplied (p : Setting) (item : Item) (rest : Agenda) (s' : State) : Prop :=
  ∃ added kept, s'.agenda = added ++ kept ∧ (kept <:+ rest ∨ ∃ k ∈ s'.snapshots, kept = k.agenda) ∧
    ∀ it ∈ added, ∀ id ∈ it.evaluated, Supplies p item id

theorem schedulesSupplied_of_advance {rest : Agenda} (hagenda : s.agenda = item :: rest)
    (h : advance p s = .running s') : SchedulesSupplied p item rest s' := by
  obtain ⟨added, kept, heq, hadded, hkept⟩ := (move_of_advance hagenda h).continues
  exact ⟨added, kept, heq, hkept, fun it hit id hid => (hadded it hit).supplies hid⟩

/-- A list of nodes is a tree exactly when it is not empty, its root is a program, every id that a node stores is the
number of a node, and every declared function is one; otherwise it is refused for the first thing that is wrong with
it.  Whatever a machine of the tree evaluates, at once or later, is the root or stored in a node, and what it schedules
for a node is stored in that node, or in the callee of a method call. -/
theorem accepted_trees_store_what_runs (names : NameTable) (nodes : Array Node) (root : NodeId) :
    ((∃ t, Tree.ofNodes names nodes root = .ok t) ↔
      0 < nodes.size ∧ Tree.IsProgram nodes root ∧ ∀ node ∈ nodes.toList, Tree.Fits nodes node.kind) ∧
    (∀ error, Tree.ofNodes names nodes root = .error error ↔ Tree.FirstFault nodes root error) ∧
    ∀ t, Tree.ofNodes names nodes root = .ok t → (t.names = names ∧ t.nodes = nodes ∧ t.root = root) ∧
      ∀ {σ : Type} (config : Config) (hosts : List EmbeddedFunction) (output : Output) (clock : Nat → Nat)
        (rule : PauseRule σ) (memory : σ) (s : State), (build t config hosts output clock rule memory).Reaches s →
        (State.AllItems (fun item => ∀ id ∈ item.evaluated, id = t.root ∨ t.Stores id) s) ∧
        ∀ item rest s', s.agenda = item :: rest →
          advance (build t config hosts output clock rule memory).setting s = .running s' →
          SchedulesSupplied (build t config hosts output clock rule memory).setting item rest s' :=
  ⟨Tree.exists_ofNodes_iff.trans Tree.fault?_eq_none_iff,
    fun _ => Tree.ofNodes_eq_error_iff.trans Tree.fault?_eq_some_iff,
    fun _ ht => ⟨Tree.ofNodes_eq_ok_iff.mp ht, fun _ _ _ _ _ _ _ hs =>
      ⟨hs.stored, fun _ _ _ => schedulesSupplied_of_advance⟩⟩⟩

theorem accepted_trees_store_what_runs_sample :
    (Tree.ofNodes .initial #[⟨.returnStatement (some ⟨7⟩), .dummy⟩, ⟨.program [⟨0⟩], .dummy⟩] ⟨1⟩ =
      .error (.danglingChild ⟨0⟩ ⟨7⟩)) ∧
    (∃ t, Tree.ofNodes .initial Tree.sample.nodes ⟨5⟩ = .ok t) ∧
    ∃ s', advance (build .sample .standard [] default (fun _ => 0) .never ()).setting
        (build .sample .standard [] default (fun _ => 0) .never ()).state = .running s' ∧
      SchedulesSupplied (build .sample .standard [] default (fun _ => 0) .never ()).setting (.node ⟨5⟩) [] s' := by
  refine ⟨?_, ?_, ?_⟩
  · refine ((accepted_trees_store_what_runs _ _ _).2.1 _).mpr ?_
    have hmisfit : Tree.Misfit #[⟨.returnStatement (some ⟨7⟩), .dummy⟩, ⟨.program [⟨0⟩], .dummy⟩] 0
        (.returnStatement (some ⟨7⟩)) (.danglingChild ⟨0⟩ ⟨7⟩) :=
      .dangling rfl (List.nil_append [(⟨7⟩ : NodeId)]).symm (List.forall_mem_nil _) (by decide)
    exact .node (by decide) ⟨_, [⟨0⟩], rfl, rfl⟩ rfl (fun j hj => absurd hj (Nat.not_lt_zero j)) hmisfit
  · exact ⟨.sample, Tree.ofNodes_eq_ok_iff.mpr ⟨rfl, rfl, rfl⟩⟩
  · have hgoes : (advance (build .sample .standard [] default (fun _ => 0) .never ()).setting
        (build .sample .standard [] default (fun _ => 0) .never ()).state).isRunning = true := by decide +kernel
    have hran := Progress.eq_running hgoes
    have hsample := (accepted_trees_store_what_runs .initial Tree.sample.nodes ⟨5⟩).2.2 .sample
      (Tree.ofNodes_eq_ok_iff.mpr ⟨rfl, rfl, rfl⟩)
    exact ⟨_, hran, (hsample.2 .standard [] default (fun _ => 0) .never () _ (reaches_start _)).2 _ _ _ rfl hran⟩

end Machine

end ExplicitControl
