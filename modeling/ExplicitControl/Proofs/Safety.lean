import ExplicitControl.Proofs.Contracts
import ExplicitControl.Proofs.Supply
import ExplicitControl.Proofs.Travel

/-!
# No run blames the machine

A machine starts at the root of an accepted tree, with nothing on the stash and the functions that every
program finds.  It keeps to the tree and its stash is supplied then, every step keeps it so, and whatever a
run fails with, it is neither a stash without values nor a missing node.
-/

namespace ExplicitControl

namespace Machine

variable {σ : Type} {p : Setting}

/-! ## 1. Nothing that is referred to is missing -/

/-- An error is no sign of a malformed tree.  That the stash does not run out of values is another matter. -/
def NotMalformed (e : EvalError) : Prop :=
  e.fault = .stashUnderflow ∨ e.fault.isInternal = false

theorem notMalformed_of_isOrdinary {fault : Fault} (h : fault.isOrdinary = true) :
    fault = .stashUnderflow ∨ fault.isInternal = false := by
  cases fault <;> first | exact .inl rfl | exact .inr rfl | cases h

def Contract.withinTree (p : Setting) : Contract p where
  value := Value.InTree p.tree
  item := Item.InTree p.tree
  also s := ∀ id ∈ s.current, p.tree.Has id
  allows := NotMalformed
  spot := p.tree.Has
  value_mono hle h := h.mono hle
  item_mono hle h := h.mono hle
  inert _ := Value.inTree_of_isInert
  continuation h := h
  spot_of_has h := h
  item_node h := h
  item_instr hnodes hpush := ⟨hnodes, hpush⟩
  same h hsame := hsame.current ▸ h
  captured h := h
  resumed h _ := h
  bare := notMalformed_of_isOrdinary
  placed h _ := notMalformed_of_isOrdinary h
  missing := .inr ⟨fun h => h, fun h => h, fun h => h⟩

theorem Contract.holds_withinTree_iff {s : State} : (Contract.withinTree p).Holds s ↔ s.InTree p.tree :=
  ⟨fun h => ⟨h.agenda, h.stash, h.scopes, h.heap, fun k hk => ⟨(h.snapshots k hk).1, (h.snapshots k hk).2⟩, h.also⟩,
    fun h => ⟨h.agenda, h.stash, h.scopes, h.heap, fun k hk => ⟨(h.snapshots k hk).agenda, (h.snapshots k hk).stash⟩,
      h.current⟩⟩

/-- A whole step keeps to the tree. -/
theorem inTree_execute (hp : p.PreludeOnly) {item : Item} {s : State} (hitem : item.InTree p.tree s.snapshots.size)
    (hs : s.InTree p.tree) :
    Ensures (execute p item) s (fun _ s' => s'.InTree p.tree) fun e _ => NotMalformed e := by
  have meets : (Contract.withinTree p).Meets (execute p item) s := by
    refine Contract.meets_execute (Contract.hosted_of_preludeOnly _ hp)
      (Contract.holds_withinTree_iff.mpr hs) ?_ ?_ ?_ ?_
      (fun _ _ _ _ _ _ _ _ _ => .inr rfl) fun _ _ _ _ => .inr rfl
    · rintro id rfl
      refine ⟨hitem, ?_⟩
      rintro _ ⟨⟩
      exact hitem
    · rintro i rfl
      exact hitem.1
    · rintro v rfl
      exact hitem.2 v rfl
    · rintro id name params code rfl hkind -
      exact ⟨name, params, code, hkind⟩
  exact meets.mono (fun _ _ h => Contract.holds_withinTree_iff.mp h) fun _ _ h => h.2

/-! ## 2. The start of a program -/

theorem isInert_of_mem_identify {next : Nat} {functions : List HostFunction} {entry : String × Value}
    (h : entry ∈ identify next functions) : entry.2.isInert = true := by
  obtain ⟨⟨f, identity⟩, -, rfl⟩ := List.mem_map.mp h
  rfl

theorem isInert_constants : ∀ entry ∈ Prelude.constants, entry.2.isInert = true := by
  intro entry h
  simp only [Prelude.constants, List.mem_cons, List.not_mem_nil, or_false] at h
  rcases h with rfl | rfl | rfl | rfl <;> rfl

theorem globals_inert (hosts : List EmbeddedFunction) :
    (globals hosts).All fun v => v.isInert = true := by
  refine Object.all_ofPairs fun pair hpair => ?_
  rcases List.mem_append.mp hpair with h | h
  · exact isInert_constants pair h
  · exact isInert_of_mem_identify h

theorem install_all {P : Value → Prop} (env : Env) {entries : List (String × Value)}
    (hentries : ∀ entry ∈ entries, P entry.2) (names : NameTable) {scopes : Scopes}
    (hscopes : scopes.All P) : (install env entries names scopes).2.All P := by
  induction entries generalizing names scopes with
  | nil => exact hscopes
  | cons entry rest ih =>
    rw [List.forall_mem_cons] at hentries
    refine ih hentries.2 _ (hscopes.modify _ fun f hf => hf.insert ?_)
    rintro v ⟨⟩
    exact hentries.1

variable (t : Tree) (config : Config) (hosts : List EmbeddedFunction) (output : Output)
  (clock : Nat → Nat) (rule : PauseRule σ) (memory : σ)

theorem preludeOnly_build :
    (build t config [] output clock rule memory).setting.PreludeOnly :=
  ⟨rfl, fun _ => isInert_of_mem_identify⟩

/-- All that the first state refers to is the root. -/
theorem inTree_build : (build t config hosts output clock rule memory).state.InTree t := by
  obtain ⟨body, hroot⟩ := t.kind?_root
  refine ⟨?_, fun _ h => absurd h List.not_mem_nil, ?_, ?_, ?_, fun _ h => by cases h⟩
  -- Only the root is scheduled, and all values are functions of the host and constants.
  · exact List.forall_mem_singleton.mpr ⟨_, hroot⟩
  · have : (Scopes.empty.root 0 "global").2.All (Value.InTree t 0) :=
      Scopes.All.alloc (fun _ h => by cases Array.not_mem_empty _ h) _ (Frame.all_ofName _ _)
    exact install_all _ (fun entry h => Value.inTree_of_isInert (globals_inert hosts entry h)) _ this
  · exact fun _ h => absurd h (Array.not_mem_empty _)
  · exact fun _ h => absurd h (Array.not_mem_empty _)

theorem supplied_build : (build t config hosts output clock rule memory).state.Supplied :=
  ⟨Nat.le_refl _, fun _ h => absurd h (Array.not_mem_empty _)⟩

/-! ## 3. Runs -/

/-- A step keeps to the tree and keeps the stash supplied, or fails with a fault of the program. -/
theorem sound_execute (hp : p.PreludeOnly) {s : State} {item : Item} {rest : Agenda}
    (htree : s.InTree p.tree) (hsupplied : s.Supplied) (hagenda : s.agenda = item :: rest) :
    Ensures (execute p item) { s with agenda := rest } (fun _ s' => s'.InTree p.tree ∧ s'.Supplied)
      fun e _ => e.fault.isInternal = false := by
  have items := htree.agenda
  rw [hagenda, List.forall_mem_cons] at items
  have hin := inTree_execute hp items.1 (s := { s with agenda := rest }) { htree with agenda := items.2 }
  have hsup := supplied_execute hp hsupplied hagenda
  -- The step ends in one way, about which both invariants say their part.
  unfold Ensures at hin hsup ⊢
  cases hx : execute p item { s with agenda := rest } with
  | ok _ s' =>
    rw [hx] at hin hsup
    exact ⟨hin, hsup⟩
  | error e s' =>
    rw [hx] at hin hsup
    exact hin.resolve_left hsup

/-- Whatever tree a program is, and however far it has run: everything that the machine refers to is a node
of the tree, the stash is high enough for the pending work of the registers and of every captured
continuation, and no error comes from a stash without values or from a node that is not there. -/
theorem runThrough_sound (n : Nat) :
    ((build t config [] output clock rule memory).runThrough n).progress.Meets
      (fun s => s.InTree t ∧ s.Supplied)
      (fun e => e.fault ≠ .stashUnderflow ∧ ∀ message, e.fault ≠ .malformedTree message) := by
  refine runThrough_meets (fun s item rest hs hagenda => ?_)
    ⟨inTree_build t config [] output clock rule memory,
      supplied_build t config [] output clock rule memory⟩ n
  refine (sound_execute (preludeOnly_build t config output clock rule memory) hs.1 hs.2 hagenda).mono
    (fun _ _ h => h) fun e s' he => ?_
  rw [locateError_fault]
  exact ⟨fun h => (by rw [h] at he; cases he), fun _ h => by rw [h] at he; cases he⟩

end Machine

end ExplicitControl
