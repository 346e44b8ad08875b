import ExplicitControl.Proofs.Ensures

/-!
# Operations that leave control alone

Most of what an item does has nothing to do with where control goes next: it works on values, frames and the
heap, and at most puts items in front of the pending work.  Such an operation behaves the same under any
pending work, calls and snapshots.  So what it does can be found out once, with nothing pending, and carried
over to any two machines that differ in their control only.
-/

namespace ExplicitControl

structure Control where
  agenda : Agenda
  calls : CallStack
  snapshots : Array Snapshot
  steps : Nat
  readings : Nat

namespace State

/-- The state with more work pending behind its own, and with other calls, snapshots and counters. -/
def under (s : State) (c : Control) : State :=
  { s with
    agenda := s.agenda ++ c.agenda
    calls := c.calls
    snapshots := c.snapshots
    steps := c.steps
    readings := c.readings }

def control (s : State) : Control :=
  ⟨s.agenda, s.calls, s.snapshots, s.steps, s.readings⟩

def idle (s : State) : State :=
  { s with agenda := [] }

theorem idle_under_control (s : State) : s.idle.under s.control = s := rfl

end State

namespace Machine

variable {α β : Type} {p : Setting} {P : Item → Prop}

def resultUnder (r : EStateM.Result EvalError State α) (c : Control) :
    EStateM.Result EvalError State α :=
  match r with
  | .ok a s => .ok a (s.under c)
  | .error e s => .error e (s.under c)

/-- The operation neither looks at control nor changes it, except for items put in front, which satisfy
`P`. -/
structure Local (P : Item → Prop) (x : MachineM α) : Prop where
  under : ∀ s c, x (s.under c) = resultUnder (x s) c
  schedules : ∀ s, Ensures x s
    (fun _ s' => ∃ items, (∀ item ∈ items, P item) ∧ s'.agenda = items ++ s.agenda) fun _ _ => True

/-! ## 1. Composition -/

theorem local_pure (a : α) : Local P (pure a : MachineM α) :=
  ⟨fun _ _ => rfl, fun _ => ⟨[], List.forall_mem_nil _, rfl⟩⟩

theorem Local.bind {x : MachineM α} {f : α → MachineM β} (hx : Local P x)
    (hf : ∀ a, Local P (f a)) : Local P (x >>= f) := by
  constructor
  · intro s c
    show EStateM.bind x f (s.under c) = resultUnder (EStateM.bind x f s) c
    unfold EStateM.bind
    rw [hx.under]
    cases x s with
    | ok a s' => exact (hf a).under s' c
    | error e s' => rfl
  · intro s
    rw [ensures_bind]
    refine (hx.schedules s).mono (fun a s' h => ?_) fun _ _ _ => trivial
    obtain ⟨items, hitems, hs'⟩ := h
    refine ((hf a).schedules s').mono (fun b s'' h => ?_) fun _ _ _ => trivial
    obtain ⟨more, hmore, hs''⟩ := h
    exact ⟨more ++ items, List.forall_mem_append.mpr ⟨hmore, hitems⟩,
      by rw [hs'', hs', List.append_assoc]⟩

theorem Local.map {x : MachineM α} (hx : Local P x) (f : α → β) : Local P (f <$> x) := by
  constructor
  · intro s c
    show EStateM.map f x (s.under c) = resultUnder (EStateM.map f x s) c
    unfold EStateM.map
    rw [hx.under]
    cases x s <;> rfl
  · intro s
    rw [ensures_map]
    exact hx.schedules s

/-- A look at the state is local if nothing is made of its control. -/
theorem local_get_bind {f : State → MachineM β} (hf : ∀ s c, f (s.under c) = f s)
    (h : ∀ s, Local P (f s)) : Local P (get >>= f) := by
  constructor
  · intro s c
    show f (s.under c) (s.under c) = resultUnder (f s s) c
    rw [hf]
    exact (h s).under s c
  · intro s
    exact (h s).schedules s

/-- An operation that neither looks at control nor changes it, and schedules nothing. -/
theorem local_of_steady {x : MachineM α} (hunder : ∀ s c, x (s.under c) = resultUnder (x s) c)
    (hagenda : ∀ s, Ensures x s (fun _ s' => s'.agenda = s.agenda) fun _ _ => True) : Local P x :=
  ⟨hunder, fun s => (hagenda s).mono (fun _ _ h => ⟨[], List.forall_mem_nil _, h⟩) fun _ _ _ => trivial⟩

theorem local_forM {l : List α} {f : α → MachineM PUnit} (h : ∀ a, Local P (f a)) :
    Local P (l.forM f) := by
  induction l with
  | nil => exact local_pure _
  | cons a rest ih => exact (h a).bind fun _ => ih

/-! ## 2. Operations on registers -/

theorem local_failAt (node : NodeId) (fault : Fault) : Local P (failAt p node fault : MachineM α) :=
  ⟨fun _ _ => rfl, fun _ => trivial⟩

theorem local_orFailAt (node : NodeId) (r : Except Fault α) : Local P (orFailAt p node r) := by
  cases r with
  | ok a => exact local_pure a
  | error fault => exact local_failAt node fault

theorem local_kindOf_bind {node : NodeId} {f : NodeKind → MachineM α}
    (h : ∀ kind, p.tree.kind? node = some kind → Local P (f kind)) :
    Local P (kindOf p node >>= f) := by
  unfold kindOf
  cases hkind : p.tree.kind? node with
  | some kind => exact h kind hkind
  | none => exact ⟨fun _ _ => rfl, fun _ => trivial⟩

theorem local_schedule {items : List Item} (h : ∀ item ∈ items, P item) : Local P (schedule items) := by
  -- Items in front of the pending work stay in front when there is more behind it.
  constructor
  · intro s c
    show EStateM.Result.ok () { s.under c with agenda := items ++ (s.agenda ++ c.agenda) } = _
    rw [← List.append_assoc]
    rfl
  · exact fun s => ⟨items, h, rfl⟩

theorem local_onStash (op : StashM α) : Local P (onStash op) := by
  refine local_of_steady (fun s c => ?_) fun s => ?_
  · unfold onStash
    dsimp only [State.under]
    cases op s.stash <;> rfl
  · unfold Ensures onStash
    cases op s.stash with
    | ok a stash => rfl
    | error fault stash => trivial

theorem local_push (v : Value) : Local P (push v) := local_onStash _

theorem local_pop : Local P pop := local_onStash _

theorem local_onName (node : NodeId) (name : Name) (op : ScopeM α) :
    Local P (onName p node name op) := by
  refine local_of_steady (fun s c => ?_) fun s => ?_
  · unfold onName
    dsimp only [State.under]
    cases op s.scopes <;> rfl
  · rw [ensures_onName]
    cases op s.scopes with
    | ok a scopes => rfl
    | error e scopes => trivial

theorem local_onHeap (node : NodeId) (op : EStateM Fault Heap α) : Local P (onHeap p node op) := by
  refine local_of_steady (fun s c => ?_) fun s => ?_
  · unfold onHeap
    dsimp only [State.under]
    cases op s.heap <;> rfl
  · rw [ensures_onHeap]
    cases op s.heap with
    | ok a heap => rfl
    | error e heap => trivial

theorem local_onHost (act : HostM α) (fault : HostError → EvalError) : Local P (onHost act fault) := by
  refine local_of_steady (fun s c => ?_) fun s => ?_
  · unfold onHost
    dsimp only [State.under]
    cases act ⟨s.heap, s.output⟩ <;> rfl
  · rw [ensures_onHost]
    cases act ⟨s.heap, s.output⟩ with
    | ok a host => rfl
    | error e host => trivial

theorem local_allocate (make : Heap → Value × Heap) : Local P (allocate make) :=
  local_of_steady (fun _ _ => rfl) fun _ => rfl

theorem local_newFrame (make : UInt32 → Scopes → Env × Scopes) : Local P (newFrame make) :=
  local_of_steady (fun _ _ => rfl) fun _ => rfl

theorem local_setEnv (env : Env) : Local P (setEnv env) :=
  local_of_steady (fun _ _ => rfl) fun _ => rfl

theorem local_freshIdentity : Local P freshIdentity :=
  local_of_steady (fun _ _ => rfl) fun _ => rfl

/-! ## 3. What is left of control -/

/-- A local operation leaves calls and snapshots as they are. -/
theorem Local.ensures {x : MachineM α} (hx : Local P x) (s : State) :
    Ensures x s
      (fun _ s' => s'.calls = s.calls ∧ s'.snapshots = s.snapshots ∧
        ∃ items, (∀ item ∈ items, P item) ∧ s'.agenda = items ++ s.agenda) fun _ _ => True := by
  have h := hx.schedules s
  -- Found out with nothing pending, and carried over to the control of the state.
  have hunder := hx.under s.idle s.control
  rw [State.idle_under_control] at hunder
  unfold Ensures at h ⊢
  rw [hunder] at h ⊢
  cases hr : x s.idle with
  | error e s' => trivial
  | ok a s' =>
    rw [hr] at h
    exact ⟨rfl, rfl, h⟩

/-- Snapshots stay as they are, also where the operation fails. -/
theorem Local.snapshots {x : MachineM α} (hx : Local P x) (s : State) :
    Ensures x s (fun _ s' => s'.snapshots = s.snapshots) fun _ s' => s'.snapshots = s.snapshots := by
  have hunder := hx.under s.idle s.control
  rw [State.idle_under_control] at hunder
  unfold Ensures
  rw [hunder]
  cases x s.idle <;> rfl

end Machine

end ExplicitControl
