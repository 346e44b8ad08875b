import ExplicitControl.Proofs.Contracts

/-!
# Where functions come from

A closure is made when its function is evaluated, in the environment that is current then, and in no other way:
operations pass values on, and those that they make themselves are inert.  So a property of all inert values and of
all continuations, which a new closure has too, is kept by every step, in whatever way the values go through the
stash, variables, arrays, objects, captured continuations and functions of the host.
-/

namespace ExplicitControl

/-- Every value that the program can get at satisfies `P`, except for those in pending instructions. -/
structure State.All (P : Value → Prop) (s : State) : Prop where
  stash : ∀ v ∈ s.stash, P v
  scopes : s.scopes.All P
  heap : s.heap.All P
  snapshots : ∀ k ∈ s.snapshots, ∀ v ∈ k.stash, P v

theorem State.All.mono {P P' : Value → Prop} (hP : ∀ v, P v → P' v) {s : State} (h : s.All P) : s.All P' :=
  ⟨fun v hv => hP v (h.stash v hv), h.scopes.mono hP, fun cell hc => (h.heap cell hc).mono hP,
    fun k hk v hv => hP v (h.snapshots k hk v hv)⟩

namespace Machine

variable {p : Setting} {P : Value → Prop}

/-! ## 1. Steps -/

def Contract.passing (p : Setting) (inert : ∀ v : Value, v.isInert = true → P v)
    (hcontinuation : ∀ k, P (.continuation k)) : Contract p where
  value _ := P
  item _ _ := True
  also _ := True
  allows _ := True
  spot _ := True
  value_mono _ h := h
  item_mono _ h := h
  inert := inert
  continuation _ := hcontinuation _
  spot_of_has _ := trivial
  item_node _ := trivial
  item_instr _ _ := trivial
  same _ _ := trivial
  captured _ := trivial
  resumed _ _ := trivial
  bare _ := trivial
  placed _ _ := trivial
  missing := .inl fun _ => trivial

section

variable (inert : ∀ v : Value, v.isInert = true → P v) (hcontinuation : ∀ k, P (.continuation k))

theorem Contract.holds_passing_iff {s : State} : (Contract.passing p inert hcontinuation).Holds s ↔ s.All P :=
  ⟨fun h => ⟨h.stash, h.scopes, h.heap, fun k hk => (h.snapshots k hk).2⟩, fun h =>
    ⟨fun _ _ => trivial, h.stash, h.scopes, h.heap, fun k hk => ⟨fun _ _ => trivial, h.snapshots k hk⟩, trivial⟩⟩

include inert hcontinuation

/-- What all inert values and all continuations satisfy is kept by every step, if the closure that it may make
satisfies it too. -/
theorem all_execute (hp : p.Keeps P) {item : Item} {s : State} (hs : s.All P)
    (hpush : ∀ v, item = .instr (.push v) → P v)
    (hmade : ∀ id name params code, item = .node id → p.tree.kind? id = some (.function name params code) →
      ∀ identity, P (.closure identity ⟨id, name, params.length, s.env⟩)) :
    Ensures (execute p item) s (fun _ s' => s'.All P) fun _ _ => True := by
  have holds_iff : ∀ {s}, (Contract.passing p inert hcontinuation).Holds s ↔ s.All P :=
    Contract.holds_passing_iff inert hcontinuation
  have meets := Contract.meets_execute (C := .passing p inert hcontinuation) ⟨fun _ => hp, .inr fun _ => trivial⟩
    (holds_iff.mpr hs) (fun _ _ => ⟨trivial, trivial⟩) (fun _ _ _ _ => trivial) hpush hmade
    (fun _ _ _ _ _ _ _ _ _ => trivial) fun _ _ _ _ => trivial
  exact meets.mono (fun _ _ h => holds_iff.mp h) fun _ _ _ => trivial

end

/-! ## 2. Operands -/

theorem all_pop {s : State} (hs : ∀ v ∈ s.stash, P v) :
    Ensures pop s (fun v s' => P v ∧ ∀ w ∈ s'.stash, P w) fun _ _ => True := by
  rw [ensures_pop]
  split
  · trivial
  next h => exact List.forall_mem_cons.mp (h ▸ hs)

theorem all_popN (k : Nat) {s : State} (hs : ∀ v ∈ s.stash, P v) :
    Ensures (onStash (Stash.popN k)) s (fun vs s' => (∀ v ∈ vs, P v) ∧ ∀ w ∈ s'.stash, P w) fun _ _ => True := by
  rw [ensures_popN]
  split
  · exact ⟨fun v hv => hs v (List.mem_of_mem_take (List.mem_reverse.mp hv)), fun w hw => hs w (List.mem_of_mem_drop hw)⟩
  · trivial

end Machine

end ExplicitControl
