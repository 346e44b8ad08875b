import ExplicitControl.Machine.Run
import ExplicitControl.Proofs.Ensures

/-!
# Runs without their pauses

A pause leaves the registers as they are, so a run is determined by what each item does to them.  `advance`
carries out the next item on the registers alone and `travel` iterates it; `runThrough` goes through exactly
the states that `travel` does.  What every item keeps, a whole run keeps.
-/

namespace ExplicitControl

inductive Progress where
  | running (s : State)
  | finished (v : Value) (s : State)
  | failed (e : EvalError) (s : State)

namespace Progress

def state : Progress → State
  | running s | finished _ s | failed _ s => s

/-- Every state that the program may go on from satisfies `I`, and every error satisfies `J`.  A machine that
has failed is in no particular state and should be dropped. -/
def Meets (I : State → Prop) (J : EvalError → Prop) : Progress → Prop
  | running s => I s
  | finished _ s => I s
  | failed e _ => J e

theorem Meets.mono {I I' : State → Prop} {J J' : EvalError → Prop} {progress : Progress}
    (h : progress.Meets I J) (hI : ∀ s, I s → I' s) (hJ : ∀ e, J e → J' e) : progress.Meets I' J' := by
  cases progress with
  | running s => exact hI s h
  | finished v s => exact hI s h
  | failed e s => exact hJ e h

end Progress

/-- The end of a program, as far as it can be observed.  The heap tells what an array or an object among the
values holds. -/
inductive Ending where
  | finished (v : Value) (heap : Heap) (output : Output)
  | failed (fault : Fault) (node : Option NodeId) (span : Option Span) (heap : Heap) (output : Output)

def Progress.ending : Progress → Option Ending
  | .running _ => none
  | .finished v s => some (.finished v s.heap s.output)
  | .failed e s => some (.failed e.fault e.node e.span s.heap s.output)

def Progress.isLimited : Progress → Bool
  | .failed e _ => e.fault.isResource
  | _ => false

def Progress.isFinished : Progress → Bool
  | .finished .. => true
  | _ => false

def Progress.isRunning : Progress → Bool
  | .running _ => true
  | _ => false

theorem Progress.eq_running {progress : Progress} (h : progress.isRunning = true) :
    progress = .running progress.state := by
  cases progress with
  | running s => rfl
  | _ => cases h

def Outcome.progress {σ : Type} : Outcome σ → Progress
  | .running m | .paused _ m => .running m.state
  | .finished v m => .finished v m.state
  | .failed e m => .failed e m.state

def Outcome.machine {σ : Type} : Outcome σ → Machine σ
  | .running m | .finished _ m | .paused _ m | .failed _ m => m

def Item.node? : Item → Option NodeId
  | node id => some id
  | instr _ => none

theorem State.exists_agenda {s : State} {id : NodeId} (h : s.agenda.head?.bind Item.node? = some id) :
    ∃ rest, s.agenda = .node id :: rest := by
  obtain ⟨item, hhead, hnode⟩ := Option.bind_eq_some_iff.mp h
  obtain ⟨rest, hagenda⟩ := List.head?_eq_some_iff.mp hhead
  cases item with
  | node id' =>
    cases hnode
    exact ⟨rest, hagenda⟩
  | instr i => cases hnode

namespace Machine

def advanceBy (exec : Item → MachineM Unit) (p : Setting) (s : State) : Progress :=
  match s.agenda with
  | [] => .finished s.result s
  | item :: rest =>
    match exec item { s with agenda := rest } with
    | .ok () s' => .running s'
    | .error e s' => .failed (locateError p s' e) s'

def travelBy (exec : Item → MachineM Unit) (p : Setting) : Nat → State → Progress
  | 0, s => .running s
  | n + 1, s =>
    match advanceBy exec p s with
    | .running s' => travelBy exec p n s'
    | ended => ended

def advance (p : Setting) : State → Progress :=
  advanceBy (execute p) p

def travel (p : Setting) : Nat → State → Progress :=
  travelBy (execute p) p

def journey (p : Setting) : Nat → State → List (Item × State)
  | 0, _ => []
  | n + 1, s =>
    (s.agenda.head?.map fun item => (item, (advance p s).state)).toList ++
      match advance p s with
      | .running s' => journey p n s'
      | _ => []

theorem travel_succ (p : Setting) (n : Nat) (s : State) :
    travel p (n + 1) s =
      match advance p s with
      | .running s' => travel p n s'
      | ended => ended := rfl

theorem advance_nil (p : Setting) {s : State} (h : s.agenda = []) : advance p s = .finished s.result s := by
  rw [advance, advanceBy, h]

variable {σ : Type}

/-! ## 1. One step -/

def ahead (m : Machine σ) : Option NodeId :=
  m.state.agenda.head?.bind Item.node?

/-- The node that the next step asks the pause rule about. -/
def inquiry (m : Machine σ) : Option NodeId :=
  if m.resuming then none else m.ahead

def recalled (m : Machine σ) : σ :=
  m.inquiry.elim m.memory fun id => (m.rule m.memory m.setting.tree id).2

/-- The item that the next step carries out.  There is none if the step pauses before a node, or if nothing
is left to do. -/
def next? (m : Machine σ) : Option Item :=
  m.state.agenda.head?.filter fun item => !(m.askRule item).1

def CarriesOut (m : Machine σ) (memory : σ) : Prop :=
  match advance m.setting m.state with
  | .running s =>
    let m' : Machine σ := ⟨m.setting, s, m.rule, memory, false⟩
    m.step = .running m' ∨ ∃ id, m.step = .paused id m'
  | .finished v s => s = m.state ∧ m.step = .finished v m
  | .failed e s => m.step = .failed e ⟨m.setting, s, m.rule, memory, false⟩

/-- A step that does not pause is the effect of the next item on the registers. -/
theorem carriesOut_of_step {p : Setting} {s : State} {rule : PauseRule σ} {memory memory' : σ}
    {resuming resuming' : Bool} {item : Item} {rest : Agenda} (hs : s.agenda = item :: rest)
    (hstep : (⟨p, s, rule, memory, resuming⟩ : Machine σ).step =
      carryOut item (dropItem ⟨p, s, rule, memory', resuming'⟩)) :
    (⟨p, s, rule, memory, resuming⟩ : Machine σ).CarriesOut memory' := by
  simp only [CarriesOut, hstep, advance, advanceBy, hs, dropItem, carryOut, List.tail_cons]
  cases execute p item { s with agenda := rest } with
  | error e s' => rfl
  | ok _ s' =>
    dsimp only
    cases debuggerOf? p.tree item with
    | none => exact .inl rfl
    | some id => exact .inr ⟨id, rfl⟩

/-- A step either pauses before the next item, a node that the rule has just been asked about, with the
registers unchanged, or carries it out. -/
theorem step_cases (m : Machine σ) :
    (m.next? = none ∧
        ∃ id, m.inquiry = some id ∧ m.step = .paused id { m with memory := m.recalled, resuming := true }) ∨
      (m.next? = m.state.agenda.head? ∧ m.CarriesOut m.recalled) := by
  obtain ⟨p, s, rule, memory, resuming⟩ := m
  cases hs : s.agenda with
  | nil =>
    refine .inr ⟨by simp only [next?, hs, List.head?_nil, Option.filter_none], ?_⟩
    simp only [CarriesOut, advance, advanceBy, step, hs, and_self]
  | cons item rest =>
    -- The rule is asked about nodes only, and not about one that it has paused before.
    cases item with
    | instr i =>
      have hstep : (⟨p, s, rule, memory, resuming⟩ : Machine σ).step =
          carryOut (.instr i) (dropItem ⟨p, s, rule, memory, resuming⟩) := by
        simp only [step, hs, askRule]
      refine .inr ⟨by simp [next?, hs, askRule], ?_⟩
      have hrecalled : (⟨p, s, rule, memory, resuming⟩ : Machine σ).recalled = memory := by
        simp [recalled, inquiry, ahead, hs, Item.node?]
      rw [hrecalled]
      exact carriesOut_of_step hs hstep
    | node id =>
      cases resuming with
      | true =>
        have hstep : (⟨p, s, rule, memory, true⟩ : Machine σ).step =
            carryOut (.node id) (dropItem ⟨p, s, rule, memory, true⟩) := by
          simp only [step, hs, askRule, if_true]
        exact .inr ⟨by simp [next?, hs, askRule], carriesOut_of_step hs hstep⟩
      | false =>
        have hinquiry : (⟨p, s, rule, memory, false⟩ : Machine σ).inquiry = some id := by
          simp [inquiry, ahead, hs, Item.node?]
        rcases hask : rule memory p.tree id with ⟨_ | _, memory'⟩
        · have hstep : (⟨p, s, rule, memory, false⟩ : Machine σ).step =
              carryOut (.node id) (dropItem ⟨p, s, rule, memory', false⟩) := by
            simp [step, hs, askRule, hask]
          refine .inr ⟨by simp [next?, hs, askRule, hask], ?_⟩
          simp only [recalled, hinquiry, Option.elim_some, hask]
          exact carriesOut_of_step hs hstep
        · exact .inl ⟨by simp [next?, hs, askRule, hask], id, hinquiry,
            by simp [recalled, hinquiry, step, hs, askRule, hask]⟩

/-! ## 2. Errors -/

theorem attachBacktrace_fault (c : CallStack) (e : EvalError) :
    (c.attachBacktrace e).fault = e.fault := by
  unfold CallStack.attachBacktrace
  split <;> rfl

/-- Completing an error leaves what went wrong as it was. -/
theorem locateError_fault (p : Setting) (s : State) (e : EvalError) :
    (locateError p s e).fault = e.fault := by
  unfold locateError
  dsimp only
  rw [attachBacktrace_fault]
  split
  · split <;> rfl
  · rfl

theorem attachBacktrace_place (c : CallStack) (e : EvalError) :
    (c.attachBacktrace e).node = e.node ∧ (c.attachBacktrace e).span = e.span := by
  unfold CallStack.attachBacktrace
  split
  · exact ⟨rfl, rfl⟩
  · exact ⟨rfl, rfl⟩

/-- The place of an error depends on nothing but the node evaluated last. -/
theorem locateError_place (p : Setting) {s s' : State} (h : s'.current = s.current) (e : EvalError) :
    (locateError p s' e).node = (locateError p s e).node ∧
      (locateError p s' e).span = (locateError p s e).span := by
  unfold locateError
  dsimp only
  rw [(attachBacktrace_place _ _).1, (attachBacktrace_place _ _).1, (attachBacktrace_place _ _).2,
    (attachBacktrace_place _ _).2, h]
  exact ⟨rfl, rfl⟩

/-! ## 3. Runs -/

section

variable {exec : Item → MachineM Unit} {p : Setting} {s s' : State}

theorem travelBy_running (n : Nat) (h : advanceBy exec p s = .running s') :
    travelBy exec p (n + 1) s = travelBy exec p n s' := by
  rw [travelBy, h]

theorem travelBy_finished {v : Value} (n : Nat) (h : advanceBy exec p s = .finished v s') :
    travelBy exec p (n + 1) s = .finished v s' := by
  rw [travelBy, h]

theorem travelBy_failed {e : EvalError} (n : Nat) (h : advanceBy exec p s = .failed e s') :
    travelBy exec p (n + 1) s = .failed e s' := by
  rw [travelBy, h]

/-- A run that has not ended goes on from where it is. -/
theorem travelBy_add {m : Nat} (n : Nat) (h : travelBy exec p m s = .running s') :
    travelBy exec p (m + n) s = travelBy exec p n s' := by
  -- On the first part of the run, which never ends.
  induction m generalizing s with
  | zero =>
    cases h
    rw [Nat.zero_add]
  | succ m ih =>
    rw [Nat.succ_add]
    cases ha : advanceBy exec p s with
    | running s₁ =>
      rw [travelBy_running m ha] at h
      rw [travelBy_running (m + n) ha, ih h]
    | finished v s₁ => rw [travelBy_finished m ha] at h; cases h
    | failed e s₁ => rw [travelBy_failed m ha] at h; cases h

/-- A run that has ended stays as it is. -/
theorem travelBy_ended {m : Nat} (n : Nat) {r : Progress} (h : travelBy exec p m s = r)
    (hr : ∀ s', r ≠ .running s') : travelBy exec p (m + n) s = r := by
  -- The end comes at some step, and what is left of `n` is not used.
  induction m generalizing s with
  | zero => exact absurd h.symm (hr s)
  | succ m ih =>
    rw [Nat.succ_add]
    cases ha : advanceBy exec p s with
    | running s₁ =>
      rw [travelBy_running m ha] at h
      rw [travelBy_running (m + n) ha, ih h]
    | finished v s₁ => rw [travelBy_finished m ha] at h; rw [travelBy_finished (m + n) ha, h]
    | failed e s₁ => rw [travelBy_failed m ha] at h; rw [travelBy_failed (m + n) ha, h]

theorem advanceBy_ok {item : Item} {rest : Agenda} (hs : s.agenda = item :: rest)
    (h : exec item { s with agenda := rest } = .ok () s') : advanceBy exec p s = .running s' := by
  unfold advanceBy
  rw [hs]
  dsimp only
  rw [h]

theorem advanceBy_error {item : Item} {rest : Agenda} {e : EvalError} (hs : s.agenda = item :: rest)
    (h : exec item { s with agenda := rest } = .error e s') :
    advanceBy exec p s = .failed (locateError p s' e) s' := by
  unfold advanceBy
  rw [hs]
  dsimp only
  rw [h]

end

section

variable {p : Setting} {s s' : State} {item : Item} {rest : Agenda}

/-- What is ensured of the next item holds of the state that it leads to. -/
theorem Ensures.of_advance {post : Unit → State → Prop} {fail : EvalError → State → Prop}
    (h : Ensures (execute p item) { s with agenda := rest } post fail) (hs : s.agenda = item :: rest)
    (hrun : advance p s = .running s') : post () s' := by
  cases hx : execute p item { s with agenda := rest } with
  | ok _ t =>
    rw [advance, advanceBy_ok hs hx] at hrun
    cases hrun
    exact (ensures_of_ok hx).mp h
  | error e t => rw [advance, advanceBy_error hs hx] at hrun; cases hrun

/-- An item that fails at limits only is carried out, unless there is a limit. -/
theorem advance_of_ensures {post : State → Prop}
    (h : Ensures (execute p item) { s with agenda := rest } (fun _ s' => post s')
      fun e _ => e.fault.isResource = true) (hs : s.agenda = item :: rest) :
    (advance p s).isLimited = true ∨ ∃ s', advance p s = .running s' ∧ post s' := by
  cases hx : execute p item { s with agenda := rest } with
  | ok _ t => exact .inr ⟨t, advanceBy_ok hs hx, (ensures_of_ok hx).mp h⟩
  | error e t =>
    rw [advance, advanceBy_error hs hx]
    exact .inl ((congrArg Fault.isResource (locateError_fault p t e)).trans ((ensures_of_error hx).mp h))

end

/-- The next item is carried out in any case. -/
theorem journey_cons {p : Setting} {s : State} {item : Item} {rest : Agenda} (hs : s.agenda = item :: rest)
    (n : Nat) : journey p (n + 1) s =
      (item, (advance p s).state) :: match advance p s with
        | .running s' => journey p n s'
        | _ => [] := by
  rw [journey, hs]
  rfl

theorem journey_succ {p : Setting} {s s' : State} {item : Item} {rest : Agenda} (hs : s.agenda = item :: rest)
    (h : advance p s = .running s') (n : Nat) : journey p (n + 1) s = (item, s') :: journey p n s' := by
  rw [journey_cons hs, h]
  rfl

/-- What is carried out goes on from where the run is. -/
theorem journey_add {p : Setting} {s s' : State} {m : Nat} (n : Nat) (h : travel p m s = .running s') :
    journey p (m + n) s = journey p m s ++ journey p n s' := by
  induction m generalizing s with
  | zero =>
    cases h
    rw [Nat.zero_add]
    rfl
  | succ m ih =>
    rw [Nat.succ_add]
    rw [travel_succ] at h
    cases ha : advance p s with
    | running s₁ =>
      rw [ha] at h
      rw [journey, journey, ha]
      dsimp only
      rw [ih h, List.append_assoc]
    | finished v s₁ => rw [ha] at h; cases h
    | failed e s₁ => rw [ha] at h; cases h

/-- A bound that may depend on where a run goes on is one bound, since it goes on in one place at most. -/
theorem exists_bound {progress : Progress} {P : State → Nat → Prop} (h : ∀ s, ∃ n, P s n) :
    ∃ n, ∀ s, progress = .running s → P s n := by
  cases progress with
  | running s =>
    obtain ⟨n, hn⟩ := h s
    exact ⟨n, fun _ hs => by cases hs; exact hn⟩
  | finished v s => exact ⟨0, fun _ hs => by cases hs⟩
  | failed e s => exact ⟨0, fun _ hs => by cases hs⟩

/-- The items that `n` steps carry out, each with the registers that it leaves.  After a pause the machine goes
on, and the pause itself carries out nothing. -/
def log : Nat → Machine σ → List (Item × State)
  | 0, _ => []
  | n + 1, m =>
    (m.next?.map fun item => (item, m.step.progress.state)).toList ++
      match m.step with
      | .running m | .paused _ m => log n m
      | _ => []

/-- `n` steps of the machine carry out the same items as a run of `k` items on the registers, and come to the
same. -/
def Passes (m : Machine σ) (n k : Nat) : Prop :=
  m.log n = journey m.setting k m.state ∧ (m.runThrough n).progress = travel m.setting k m.state

theorem passes_zero (m : Machine σ) : m.Passes 0 0 :=
  ⟨rfl, rfl⟩

/-- A step that pauses before a node carries out nothing. -/
theorem Passes.pause {m m' : Machine σ} {id : NodeId} {n k : Nat} (hnext : m.next? = none)
    (hstep : m.step = .paused id m') (hsetting : m'.setting = m.setting) (hstate : m'.state = m.state)
    (h : m'.Passes n k) : m.Passes (n + 1) k := by
  rw [Passes, hsetting, hstate] at h
  exact ⟨by simpa [log, hnext, hstep] using h.1, by simpa only [runThrough, hstep] using h.2⟩

/-- After a step that carries out an item, a run agrees with the items carried out one after the other as
far as it does from there. -/
theorem CarriesOut.passes {m : Machine σ} {memory : σ} (h : m.CarriesOut memory)
    (hnext : m.next? = m.state.agenda.head?) {n k : Nat}
    (hrest : ∀ s, advance m.setting m.state = .running s →
      (⟨m.setting, s, m.rule, memory, false⟩ : Machine σ).Passes n k) :
    m.Passes (n + 1) (k + 1) := by
  unfold CarriesOut at h
  cases ha : advance m.setting m.state with
  | running s =>
    rw [ha] at h
    rw [Passes, travel, travelBy_running k ha]
    obtain hstep | ⟨id, hstep⟩ := h
    · simp only [log, journey, Machine.runThrough, hstep, hnext, ha]
      exact ⟨congrArg _ (hrest s ha).1, (hrest s ha).2⟩
    · simp only [log, journey, Machine.runThrough, hstep, hnext, ha]
      exact ⟨congrArg _ (hrest s ha).1, (hrest s ha).2⟩
  | finished v s =>
    rw [ha] at h
    rw [Passes, travel, travelBy_finished k ha]
    simp only [log, journey, Machine.runThrough, h.2, hnext, ha, Outcome.progress, h.1, and_self]
  | failed e s =>
    rw [ha] at h
    rw [Passes, travel, travelBy_failed k ha]
    simp only [log, journey, Machine.runThrough, h, hnext, ha, Outcome.progress, and_self]

/-- A run carries out some number of items, and nothing else happens to the registers. -/
theorem exists_travel (m : Machine σ) (n : Nat) : ∃ k, m.Passes n k := by
  -- On the steps of the run; one that pauses carries out nothing, so `k` may be less than `n`.
  induction n generalizing m with
  | zero => exact ⟨0, m.passes_zero⟩
  | succ n ih =>
    obtain ⟨hnext, id, -, hstep⟩ | ⟨hnext, h⟩ := step_cases m
    · obtain ⟨k, hk⟩ := ih { m with memory := m.recalled, resuming := true }
      exact ⟨k, .pause hnext hstep rfl rfl hk⟩
    · obtain ⟨k, hk⟩ := exists_bound fun s => ih ⟨m.setting, s, m.rule, m.recalled, false⟩
      exact ⟨k + 1, h.passes hnext hk⟩

/-- Whatever pauses there are, a run that is long enough carries out any number of items. -/
theorem exists_runThrough (m : Machine σ) (k : Nat) : ∃ n, m.Passes n k := by
  -- On the items; a pause costs one step more for the item behind it.
  induction k generalizing m with
  | zero => exact ⟨0, m.passes_zero⟩
  | succ k ih =>
    have carried : ∀ m : Machine σ, m.next? = m.state.agenda.head? → m.CarriesOut m.recalled →
        ∃ n, m.Passes n (k + 1) := by
      intro m hnext h
      obtain ⟨n, hn⟩ := exists_bound fun s => ih ⟨m.setting, s, m.rule, m.recalled, false⟩
      exact ⟨n + 1, h.passes hnext hn⟩
    obtain ⟨hnext, id, -, hstep⟩ | ⟨hnext, h⟩ := step_cases m
    · -- A machine that has paused goes on with the item that it paused before.
      obtain ⟨-, id', hask, -⟩ | ⟨hnext', h⟩ := step_cases { m with memory := m.recalled, resuming := true }
      · exact absurd hask (by simp [inquiry])
      · obtain ⟨n, hn⟩ := carried _ hnext' h
        exact ⟨n + 1, .pause hnext hstep rfl rfl hn⟩
    · exact carried m hnext h

/-- What runs come to, with their pauses, is what carrying out items comes to. -/
theorem exists_progress_iff (m : Machine σ) (P : Progress → Prop) :
    (∃ n, P (m.runThrough n).progress) ↔ ∃ k, P (travel m.setting k m.state) := by
  constructor
  · rintro ⟨n, hn⟩
    obtain ⟨k, -, hk⟩ := exists_travel m n
    exact ⟨k, hk ▸ hn⟩
  · rintro ⟨k, hk⟩
    obtain ⟨n, -, hn⟩ := exists_runThrough m k
    exact ⟨n, hn.symm ▸ hk⟩

theorem forall_progress_iff (m : Machine σ) (P : Progress → Prop) :
    (∀ n, P (m.runThrough n).progress) ↔ ∀ k, P (travel m.setting k m.state) := by
  constructor
  · intro h k
    obtain ⟨n, -, hn⟩ := exists_runThrough m k
    exact hn ▸ h n
  · intro h n
    obtain ⟨k, -, hk⟩ := exists_travel m n
    exact hk.symm ▸ h k

theorem advanceBy_finished {exec : Item → MachineM Unit} {p : Setting} {s s' : State} {v : Value}
    (h : advanceBy exec p s = .finished v s') : s.agenda = [] ∧ s' = s ∧ v = s.result := by
  unfold advanceBy at h
  split at h
  next hnil => cases h; exact ⟨hnil, rfl, rfl⟩
  next => split at h <;> cases h

/-- A program has ended when nothing is left to do. -/
theorem travelBy_finished_agenda {exec : Item → MachineM Unit} {p : Setting} {n : Nat} {s s' : State}
    {v : Value} (h : travelBy exec p n s = .finished v s') : s'.agenda = [] ∧ v = s'.result := by
  induction n generalizing s with
  | zero => cases h
  | succ n ih =>
    cases ha : advanceBy exec p s with
    | running s₁ => exact ih (by rwa [travelBy_running n ha] at h)
    | failed e s₁ => rw [travelBy_failed n ha] at h; cases h
    | finished w s₁ =>
      rw [travelBy_finished n ha] at h
      cases h
      obtain ⟨hnil, rfl, rfl⟩ := advanceBy_finished ha
      exact ⟨hnil, rfl⟩

theorem agenda_of_finished {m : Machine σ} {n : Nat} {v : Value} {s : State}
    (h : (m.runThrough n).progress = .finished v s) : s.agenda = [] := by
  obtain ⟨k, -, hk⟩ := exists_travel m n
  rw [hk] at h
  exact (travelBy_finished_agenda h).1

/-! ## 4. Endings -/

theorem ne_running_of_ending {r : Progress} {e : Ending} (h : r.ending = some e) (s : State) :
    r ≠ .running s := by
  rintro rfl
  cases h

/-- A run has at most one end. -/
theorem ending_unique {exec : Item → MachineM Unit} {p : Setting} {s : State} {m n : Nat} {e e' : Ending}
    (hm : (travelBy exec p m s).ending = some e) (hn : (travelBy exec p n s).ending = some e') :
    e = e' := by
  have hm' := travelBy_ended n rfl (ne_running_of_ending hm)
  have hn' := travelBy_ended m rfl (ne_running_of_ending hn)
  -- Both ends are the end of the run of `m + n` items.
  rw [Nat.add_comm n m, hm'] at hn'
  rw [hn', hn] at hm
  exact (Option.some.inj hm).symm

/-- A run that finishes comes to nothing new after its end. -/
theorem exists_le_of_finished {exec : Item → MachineM Unit} {p : Setting} {m : Nat} {s : State}
    (h : (travelBy exec p m s).isFinished = true) (n : Nat) :
    ∃ k, k ≤ m ∧ travelBy exec p n s = travelBy exec p k s := by
  by_cases hn : n ≤ m
  · exact ⟨n, hn, rfl⟩
  · obtain ⟨k, rfl⟩ := Nat.exists_eq_add_of_le (Nat.le_of_not_le hn)
    refine ⟨m, Nat.le_refl m, travelBy_ended k rfl fun t ht => ?_⟩
    rw [ht] at h
    cases h

/-- A run that finishes comes to no limit. -/
theorem not_limited_of_finished {exec : Item → MachineM Unit} {p : Setting} {m : Nat} {s : State}
    (h : (travelBy exec p m s).isFinished = true) (n : Nat) :
    (travelBy exec p n s).isLimited = false := by
  obtain ⟨k, hk, heq⟩ := exists_le_of_finished h n
  obtain ⟨j, rfl⟩ := Nat.exists_eq_add_of_le hk
  rw [heq]
  cases hend : travelBy exec p k s with
  | running t => rfl
  | finished v t => rfl
  | failed e t =>
    -- A run that has failed does not finish later.
    rw [travelBy_ended j hend (by simp)] at h
    cases h

/-! ## 5. Invariants -/

/-- What holds at the start and is kept by every item holds all along, and every error that an item can
end in from there is the error of the run. -/
theorem travelBy_meets {exec : Item → MachineM Unit} {p : Setting} {I : State → Prop}
    {J : EvalError → Prop}
    (hexec : ∀ s item rest, I s → s.agenda = item :: rest →
      Ensures (exec item) { s with agenda := rest } (fun _ s' => I s')
        fun e s' => J (locateError p s' e))
    {s : State} (hs : I s) (n : Nat) : (travelBy exec p n s).Meets I J := by
  -- On the number of items, with the invariant for the state that each begins in.
  induction n generalizing s with
  | zero => exact hs
  | succ n ih =>
    cases ha : s.agenda with
    | nil =>
      have hend : advanceBy exec p s = .finished s.result s := by rw [advanceBy, ha]
      rw [travelBy_finished n hend]
      exact hs
    | cons item rest =>
      have h := hexec s item rest hs ha
      cases hx : exec item { s with agenda := rest } with
      | ok _ s' =>
        rw [travelBy_running n (advanceBy_ok ha hx)]
        exact ih ((ensures_of_ok hx).mp h)
      | error e s' =>
        rw [travelBy_failed n (advanceBy_error ha hx)]
        exact (ensures_of_error hx).mp h

/-- The same of a run with pauses. -/
theorem runThrough_meets {m : Machine σ} {I : State → Prop} {J : EvalError → Prop}
    (hexec : ∀ s item rest, I s → s.agenda = item :: rest →
      Ensures (execute m.setting item) { s with agenda := rest } (fun _ s' => I s')
        fun e s' => J (locateError m.setting s' e))
    (hs : I m.state) (n : Nat) : (m.runThrough n).progress.Meets I J :=
  (forall_progress_iff m (Progress.Meets I J)).mpr (travelBy_meets hexec hs) n

end Machine

end ExplicitControl
