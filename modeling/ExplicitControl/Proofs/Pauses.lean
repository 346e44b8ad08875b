import ExplicitControl.Proofs.Placement
import ExplicitControl.Proofs.Travel

/-!
# Pausing is transparent

Where a run pauses decides nothing about what it does.  A machine that is run on after each of its pauses
carries out the same items, with the same registers after each, as one that never pauses before a node; its
pause rule is asked about the nodes that are evaluated, about each of them once and in their order.
-/

namespace ExplicitControl

variable {σ τ : Type}

def Outcome.hasEnded : Outcome σ → Bool
  | .finished .. | .failed .. => true
  | .running _ | .paused .. => false

def PauseRule.after (rule : PauseRule σ) (t : Tree) (ids : List NodeId) (memory : σ) : σ :=
  ids.foldl (fun memory id => (rule memory t id).2) memory

theorem PauseRule.after_append (rule : PauseRule σ) (t : Tree) (ids ids' : List NodeId) (memory : σ) :
    rule.after t (ids ++ ids') memory = rule.after t ids' (rule.after t ids memory) :=
  List.foldl_append

namespace Machine

/-! ## 1. Running on after each pause -/

inductive RunsTo : Machine σ → Outcome σ → Prop where
  | ended {m : Machine σ} {n : Nat} {o : Outcome σ} (hrun : m.run n = o) (hend : o.hasEnded = true) :
      RunsTo m o
  | resumed {m m' : Machine σ} {n : Nat} {id : NodeId} {o : Outcome σ} (hrun : m.run n = .paused id m')
      (hrest : RunsTo m' o) : RunsTo m o

theorem runThrough_of_ended {m : Machine σ} {n : Nat} {o : Outcome σ} (hrun : m.run n = o)
    (hend : o.hasEnded = true) : m.runThrough n = o := by
  induction n generalizing m with
  | zero => subst hrun; cases hend
  | succ n ih =>
    rw [run] at hrun
    rw [runThrough]
    cases hstep : m.step with
    | running m' => rw [hstep] at hrun; exact ih hrun
    | finished v m' => rw [hstep] at hrun; exact hrun
    | failed e m' => rw [hstep] at hrun; exact hrun
    | paused id m' => rw [hstep] at hrun; subst hrun; cases hend

/-- After a pause a run is a run of the machine that has paused. -/
theorem runThrough_of_paused {m m' : Machine σ} {n : Nat} {id : NodeId} (hrun : m.run n = .paused id m') :
    ∃ k, ∀ j, m.runThrough (j + k) = m'.runThrough j := by
  induction n generalizing m with
  | zero => cases hrun
  | succ n ih =>
    rw [run] at hrun
    cases hstep : m.step with
    | running m₁ =>
      rw [hstep] at hrun
      obtain ⟨k, hk⟩ := ih hrun
      exact ⟨k + 1, fun j => by rw [← Nat.add_assoc, runThrough, hstep]; exact hk j⟩
    | paused id₁ m₁ =>
      rw [hstep] at hrun
      cases hrun
      exact ⟨1, fun j => by rw [runThrough, hstep]⟩
    | finished v m₁ => rw [hstep] at hrun; cases hrun
    | failed e m₁ => rw [hstep] at hrun; cases hrun

theorem run_of_running {m m' : Machine σ} (hstep : m.step = .running m') (n : Nat) :
    m.run (n + 1) = m'.run n := by
  rw [run, hstep]

theorem RunsTo.of_running {m m' : Machine σ} {o : Outcome σ} (hstep : m.step = .running m')
    (h : m'.RunsTo o) : m.RunsTo o := by
  cases h with
  | ended hrun hend => exact .ended ((run_of_running hstep _).trans hrun) hend
  | resumed hrun hrest => exact .resumed ((run_of_running hstep _).trans hrun) hrest

/-- Running on after each pause is the run in which the pauses are passed over. -/
theorem runsTo_iff {m : Machine σ} {o : Outcome σ} :
    m.RunsTo o ↔ o.hasEnded = true ∧ ∃ n, m.runThrough n = o := by
  constructor
  · intro h
    induction h with
    | ended hrun hend => exact ⟨hend, _, runThrough_of_ended hrun hend⟩
    | resumed hrun _ ih =>
      obtain ⟨hend, n, hn⟩ := ih
      obtain ⟨k, hk⟩ := runThrough_of_paused hrun
      exact ⟨hend, n + k, (hk n).trans hn⟩
  · rintro ⟨hend, n, hn⟩
    induction n generalizing m with
    | zero => subst hn; cases hend
    | succ n ih =>
      rw [runThrough] at hn
      cases hstep : m.step with
      | running m' => rw [hstep] at hn; exact .of_running hstep (ih hn)
      | paused id m' =>
        rw [hstep] at hn
        have hrun : m.run 1 = .paused id m' := by rw [run, hstep]
        exact .resumed hrun (ih hn)
      | finished v m' =>
        rw [hstep] at hn
        have hrun : m.run 1 = o := by rw [run, hstep]; exact hn
        exact .ended hrun hend
      | failed e m' =>
        rw [hstep] at hn
        have hrun : m.run 1 = o := by rw [run, hstep]; exact hn
        exact .ended hrun hend

/-! ## 2. Two machines with the same registers -/

theorem travel_congr {p p' : Setting} (h : advance p = advance p') (n : Nat) (s : State) :
    travel p n s = travel p' n s := by
  induction n generalizing s with
  | zero => rfl
  | succ n ih =>
    rw [travel_succ, travel_succ, h]
    cases advance p' s with
    | running s' => exact ih s'
    | finished v s' => rfl
    | failed e s' => rfl

theorem journey_congr {p p' : Setting} (h : advance p = advance p') (n : Nat) (s : State) :
    journey p n s = journey p' n s := by
  induction n generalizing s with
  | zero => rfl
  | succ n ih =>
    rw [journey, journey, h]
    cases advance p' s with
    | running s' => exact congrArg _ (ih s')
    | finished v s' => rfl
    | failed e s' => rfl

/-- Machines that begin with the same registers and do the same with every item go through the same states,
whatever their pause rules are. -/
theorem exists_same_run {m : Machine σ} {m' : Machine τ} (hstate : m.state = m'.state)
    (hadvance : advance m.setting = advance m'.setting) (n : Nat) :
    ∃ k, m.log n = m'.log k ∧ (m.runThrough n).progress = (m'.runThrough k).progress := by
  obtain ⟨j, hlog, hprogress⟩ := exists_travel m n
  obtain ⟨k, hlog', hprogress'⟩ := exists_runThrough m' j
  refine ⟨k, ?_, ?_⟩
  · rw [hlog, hlog', hstate, journey_congr hadvance]
  · rw [hprogress, hprogress', hstate, travel_congr hadvance]

theorem hasEnded_iff {o : Outcome σ} {o' : Outcome τ} (h : o.progress = o'.progress) :
    o.hasEnded = true ↔ o'.hasEnded = true := by
  cases o <;> cases o' <;> simp_all [Outcome.progress, Outcome.hasEnded]

/-- Such machines come to the same end. -/
theorem RunsTo.transfer {m : Machine σ} {m' : Machine τ} (hstate : m.state = m'.state)
    (hadvance : advance m.setting = advance m'.setting) {o : Outcome σ} (h : m.RunsTo o) :
    ∃ o', m'.RunsTo o' ∧ o'.progress = o.progress := by
  obtain ⟨hend, n, rfl⟩ := runsTo_iff.mp h
  obtain ⟨k, -, hprogress⟩ := exists_same_run hstate hadvance n
  exact ⟨m'.runThrough k, runsTo_iff.mpr ⟨(hasEnded_iff hprogress).mp hend, k, rfl⟩, hprogress.symm⟩

/-! ## 3. The clock -/

/-- Without a limit of time nobody looks at the clock. -/
theorem checkDeadline_clock {p : Setting} (htime : p.config.timeLimit = none) (clock : Nat → Nat) :
    checkDeadline { p with clock } = checkDeadline p := by
  funext s
  simp only [checkDeadline, htime]

theorem tick_clock {p : Setting} (htime : p.config.timeLimit = none) (clock : Nat → Nat) :
    tick { p with clock } = tick p := by
  simp only [tick, checkDeadline_clock htime]

theorem apply_clock {p : Setting} (htime : p.config.timeLimit = none) (clock : Nat → Nat) (arity : Nat)
    (hasReceiver : Bool) (node : NodeId) :
    apply { p with clock } arity hasReceiver node = apply p arity hasReceiver node := by
  simp only [apply, checkDeadline_clock htime]
  rfl

theorem execute_clock {p : Setting} (htime : p.config.timeLimit = none) (clock : Nat → Nat) (item : Item) :
    execute { p with clock } item = execute p item := by
  simp only [execute, tick_clock htime]
  cases item with
  | node id => rfl
  | instr i =>
    cases i with
    | apply arity hasReceiver node => simp only [execInstr, apply_clock htime]
    | marker m => cases m <;> rfl
    | _ => rfl

theorem advance_clock {p : Setting} (htime : p.config.timeLimit = none) (clock : Nat → Nat) :
    advance { p with clock } = advance p := by
  have hexec : execute { p with clock } = execute p := funext (execute_clock htime clock)
  funext s
  simp only [advance, hexec, advanceBy]
  rfl

/-! ## 4. What the rule is asked -/

def evaluated (m : Machine σ) (n : Nat) : List NodeId :=
  (m.log n).filterMap fun entry => entry.1.node?

/-- The node that the rule has been asked about and that is still to be evaluated. -/
def pending (m : Machine σ) : Option NodeId :=
  if m.resuming then m.ahead else none

theorem pending_append_inquiry (m : Machine σ) :
    m.pending.toList ++ m.inquiry.toList = m.ahead.toList := by
  unfold pending inquiry
  cases m.resuming <;> simp

theorem pending_of_inquiry {m : Machine σ} {id : NodeId} (h : m.inquiry = some id) :
    m.pending = none ∧ m.ahead = some id := by
  unfold inquiry at h
  unfold pending
  cases hresuming : m.resuming with
  | true => simp [hresuming] at h
  | false => simpa [hresuming] using h

theorem recalled_eq (m : Machine σ) :
    m.recalled = m.rule.after m.setting.tree m.inquiry.toList m.memory := by
  unfold recalled
  cases m.inquiry <;> rfl

theorem evaluated_succ (m : Machine σ) (hnext : m.next? = m.state.agenda.head?) (n : Nat) :
    m.evaluated (n + 1) = m.ahead.toList ++
      match m.step with
      | .running m' | .paused _ m' => m'.evaluated n
      | _ => [] := by
  have hhead : ∀ (o : Option Item) (s : State), List.filterMap (fun entry => entry.1.node?)
      (o.map fun item => (item, s)).toList = (o.bind Item.node?).toList := by
    rintro (_ | item) s
    · rfl
    · cases item <;> rfl
  rw [evaluated, log, List.filterMap_append, hnext, hhead]
  cases m.step <;> rfl

/-- In `n` steps the rule is asked about the nodes `ids`.  These are the nodes evaluated, but for one that it
has been asked about before, and with one that is still to be evaluated if the last step has paused
before it. -/
def Asks (m : Machine σ) (n : Nat) (ids : List NodeId) : Prop :=
  m.pending.toList ++ ids = m.evaluated n ++ (m.runThrough n).machine.pending.toList ∧
    (m.runThrough n).machine.memory = m.rule.after m.setting.tree ids m.memory

theorem Asks.pause {m m' : Machine σ} {id : NodeId} {n : Nat} {ids : List NodeId}
    (hnext : m.next? = none) (hask : m.inquiry = some id) (hstep : m.step = .paused id m')
    (hm' : m' = { m with memory := m.recalled, resuming := true }) (h : m'.Asks n ids) :
    m.Asks (n + 1) (id :: ids) := by
  obtain ⟨hids, hmemory⟩ := h
  obtain ⟨hold, hahead⟩ := pending_of_inquiry hask
  have hnew : m'.pending = some id := by rw [hm']; exact hahead
  have hevaluated : m.evaluated (n + 1) = m'.evaluated n := by simp [evaluated, log, hnext, hstep]
  refine ⟨?_, ?_⟩
  · rw [hold, hevaluated, runThrough, hstep, ← hids, hnew]
    rfl
  · rw [runThrough, hstep, hmemory, hm', recalled_eq, hask]
    rfl

theorem Asks.item {m m' : Machine σ} {n : Nat} {ids : List NodeId}
    (hnext : m.next? = m.state.agenda.head?) (hstep : m.step = .running m' ∨ ∃ id, m.step = .paused id m')
    (hm' : m' = ⟨m.setting, m'.state, m.rule, m.recalled, false⟩) (h : m'.Asks n ids) :
    m.Asks (n + 1) (m.inquiry.toList ++ ids) := by
  obtain ⟨hids, hmemory⟩ := h
  have hrun : m.runThrough (n + 1) = m'.runThrough n := by
    obtain hstep | ⟨id, hstep⟩ := hstep <;> rw [runThrough, hstep]
  have hevaluated : m.evaluated (n + 1) = m.ahead.toList ++ m'.evaluated n := by
    obtain hstep | ⟨id, hstep⟩ := hstep <;> rw [evaluated_succ m hnext, hstep]
  have hidle : m'.pending = none := by rw [hm']; rfl
  refine ⟨?_, ?_⟩
  · rw [hrun, hevaluated, List.append_assoc, ← hids, hidle, ← List.append_assoc, pending_append_inquiry]
    rfl
  · rw [hrun, hmemory, PauseRule.after_append, ← recalled_eq, hm']

theorem exists_asked (m : Machine σ) (n : Nat) : ∃ ids, m.Asks n ids := by
  -- On the steps.  What a step asks about is pending until it is evaluated.
  induction n generalizing m with
  | zero => exact ⟨[], by simp [evaluated, log, runThrough, Outcome.machine], rfl⟩
  | succ n ih =>
    obtain ⟨hnext, id, hask, hstep⟩ | ⟨hnext, h⟩ := step_cases m
    · obtain ⟨ids, hids⟩ := ih { m with memory := m.recalled, resuming := true }
      exact ⟨id :: ids, .pause hnext hask hstep rfl hids⟩
    · unfold CarriesOut at h
      cases ha : advance m.setting m.state with
      | running s =>
        rw [ha] at h
        obtain ⟨ids, hids⟩ := ih ⟨m.setting, s, m.rule, m.recalled, false⟩
        exact ⟨m.inquiry.toList ++ ids, .item hnext h rfl hids⟩
      | failed e s =>
        rw [ha] at h
        refine ⟨m.inquiry.toList, ?_, ?_⟩
        · rw [pending_append_inquiry, evaluated_succ m hnext, runThrough, h]
          simp [Outcome.machine, pending]
        · rw [runThrough, h, ← recalled_eq]
          rfl
      | finished v s =>
        rw [ha] at h
        have hempty : m.ahead = none := by
          rw [ahead, (advanceBy_finished ha).1]
          rfl
        refine ⟨[], ?_, ?_⟩
        · rw [evaluated_succ m hnext, runThrough, h.2, hempty]
          simp [Outcome.machine]
        · rw [runThrough, h.2]
          rfl

/-! ## 5. Where a machine pauses -/

/-- A step changes neither what a run never changes nor the pause rule. -/
theorem step_fixed (m : Machine σ) :
    m.step.machine.setting = m.setting ∧ m.step.machine.rule = m.rule := by
  obtain ⟨hnext, id, hask, hstep⟩ | ⟨hnext, h⟩ := step_cases m
  · rw [hstep]
    exact ⟨rfl, rfl⟩
  · unfold CarriesOut at h
    cases ha : advance m.setting m.state with
    | running s =>
      rw [ha] at h
      obtain h | ⟨id, h⟩ := h <;> rw [h] <;> exact ⟨rfl, rfl⟩
    | failed e s => rw [ha] at h; rw [h]; exact ⟨rfl, rfl⟩
    | finished v s => rw [ha] at h; rw [h.2]; exact ⟨rfl, rfl⟩

theorem runThrough_fixed (m : Machine σ) (n : Nat) :
    (m.runThrough n).machine.setting = m.setting ∧ (m.runThrough n).machine.rule = m.rule := by
  induction n generalizing m with
  | zero => exact ⟨rfl, rfl⟩
  | succ n ih =>
    have hfixed := step_fixed m
    rw [runThrough]
    cases hstep : m.step with
    | running m' => rw [hstep] at hfixed; exact ⟨(ih m').1.trans hfixed.1, (ih m').2.trans hfixed.2⟩
    | paused id m' => rw [hstep] at hfixed; exact ⟨(ih m').1.trans hfixed.1, (ih m').2.trans hfixed.2⟩
    | finished v m' => rw [hstep] at hfixed; exact hfixed
    | failed e m' => rw [hstep] at hfixed; exact hfixed

/-- A step pauses before the node that it asks about exactly if the rule says so. -/
theorem next?_of_inquiry {m : Machine σ} {id : NodeId} (h : m.inquiry = some id) :
    m.next? = none ↔ (m.rule m.memory m.setting.tree id).1 = true := by
  unfold inquiry at h
  cases hresuming : m.resuming with
  | true => simp [hresuming] at h
  | false =>
    rw [hresuming, if_neg Bool.false_ne_true, ahead] at h
    obtain ⟨item, hhead, hnode⟩ := Option.bind_eq_some_iff.mp h
    cases item with
    | instr i => cases hnode
    | node id' =>
      cases hnode
      simp [next?, hhead, askRule, hresuming, Option.filter]

theorem step_of_next {m : Machine σ} {item : Item} (h : m.next? = some item) :
    m.step = carryOut item (m.askRule item).2.dropItem := by
  obtain ⟨hhead, hask⟩ := Option.filter_eq_some_iff.mp h
  obtain ⟨rest, hagenda⟩ := List.head?_eq_some_iff.mp hhead
  have hgo : m.askRule item = (false, (m.askRule item).2) :=
    Prod.ext (by simpa using hask) rfl
  rw [step, hagenda]
  dsimp only
  rw [hgo]

/-- Carrying out an item pauses after a `debugger` statement only. -/
theorem carryOut_paused {m m' : Machine σ} {item : Item} {id : NodeId} (h : carryOut item m = .paused id m') :
    debuggerOf? m.setting.tree item = some id ∧ m'.resuming = false := by
  obtain ⟨p, s, rule, memory, resuming⟩ := m
  unfold carryOut at h
  dsimp only at h
  cases hrun : execute p item s with
  | error e s' => rw [hrun] at h; cases h
  | ok _ s' =>
    rw [hrun] at h
    dsimp only at h
    cases hdebugger : debuggerOf? p.tree item with
    | none => rw [hdebugger] at h; cases h
    | some id' => rw [hdebugger] at h; cases h; exact ⟨rfl, rfl⟩

theorem eq_of_debuggerOf? {t : Tree} {item : Item} {id : NodeId} (h : debuggerOf? t item = some id) :
    item = .node id ∧ (t.kind? id).any NodeKind.isDebugger = true := by
  cases item with
  | instr i => cases h
  | node id' =>
    simp only [debuggerOf?] at h
    split at h
    next hkind => cases h; exact ⟨rfl, hkind⟩
    next => cases h

theorem askRule_dropItem_setting (m : Machine σ) (item : Item) :
    (m.askRule item).2.dropItem.setting = m.setting := by
  obtain ⟨p, s, rule, memory, resuming⟩ := m
  cases item with
  | instr i => rfl
  | node id => cases resuming <;> rfl

/-- What happens where a machine pauses: either the next node is left as it was found, or a `debugger`
statement has been carried out. -/
theorem step_paused {m m' : Machine σ} {id : NodeId} (h : m.step = .paused id m') :
    (m.inquiry = some id ∧ (m.rule m.memory m.setting.tree id).1 = true ∧
        m' = { m with memory := m.recalled, resuming := true }) ∨
      (m.next? = some (.node id) ∧ (m.setting.tree.kind? id).any NodeKind.isDebugger = true ∧
        m'.resuming = false) := by
  obtain ⟨hnext, id', hask, hstep⟩ | ⟨hnext, hcarries⟩ := step_cases m
  · rw [h] at hstep
    cases hstep
    exact .inl ⟨hask, (next?_of_inquiry hask).mp hnext, rfl⟩
  · cases hagenda : m.state.agenda.head? with
    | none =>
      rw [step, List.head?_eq_none_iff.mp hagenda] at h
      cases h
    | some item =>
      rw [hagenda] at hnext
      rw [step_of_next hnext] at h
      obtain ⟨hdebugger, hresuming⟩ := carryOut_paused h
      rw [askRule_dropItem_setting] at hdebugger
      obtain ⟨rfl, hkind⟩ := eq_of_debuggerOf? hdebugger
      exact .inr ⟨hnext, hkind, hresuming⟩

/-! ## 6. Transparency -/

/-- Without a limit of time, a machine that is run on after each pause, and one that never pauses before a
node, carry out the same items with the same registers after each, and come to the same end.  At any moment
the rule has been asked about the nodes evaluated so far, and about the one that the run has paused before if
it has; it is asked about each once.  Where the rule says so the next step pauses, and changes nothing but
that; the only other pauses are those after `debugger` statements. -/
theorem pauses_transparent (t : Tree) (config : Config) (hosts : List EmbeddedFunction) (output : Output)
    (clock clock' : Nat → Nat) (rule : PauseRule σ) (memory : σ) (htime : config.timeLimit = none) :
    let m := build t config hosts output clock rule memory
    let quiet := build t config hosts output clock' .never ()
    (∀ n, ∃ k, m.log n = quiet.log k ∧ (m.runThrough n).progress = (quiet.runThrough k).progress) ∧
      (∀ k, ∃ n, quiet.log k = m.log n ∧ (quiet.runThrough k).progress = (m.runThrough n).progress) ∧
      (∀ r, (∃ o, m.RunsTo o ∧ o.progress = r) ↔ ∃ o, quiet.RunsTo o ∧ o.progress = r) ∧
      ∀ n,
        let m' := (m.runThrough n).machine
        m'.memory = rule.after t (m.evaluated n ++ m'.pending.toList) memory ∧
          (∀ id, m'.inquiry = some id → (rule m'.memory t id).1 = true →
            m'.step = .paused id { m' with memory := m'.recalled, resuming := true }) ∧
          ∀ id m'', m'.step = .paused id m'' →
            (m'.state.agenda.head? = some (.node id) ∧ (rule m'.memory t id).1 = true ∧
                m'' = { m' with memory := m'.recalled, resuming := true }) ∨
              (m'.next? = some (.node id) ∧ (t.kind? id).any NodeKind.isDebugger = true) := by
  intro m quiet
  have hstate : m.state = quiet.state := rfl
  have hadvance : advance m.setting = advance quiet.setting := (advance_clock htime clock').symm
  refine ⟨exists_same_run hstate hadvance, exists_same_run hstate.symm hadvance.symm, fun r => ⟨?_, ?_⟩,
    fun n => ?_⟩
  · rintro ⟨o, ho, rfl⟩
    exact ho.transfer hstate hadvance
  · rintro ⟨o, ho, rfl⟩
    exact ho.transfer hstate.symm hadvance.symm
  · intro m'
    obtain ⟨hsetting, hrule⟩ := runThrough_fixed m n
    have hsays : ∀ id, m'.rule m'.memory m'.setting.tree id = rule m'.memory t id := by
      intro id
      rw [hsetting, hrule]
      rfl
    refine ⟨?_, fun id hask hpause => ?_, fun id m'' hstep => ?_⟩
    · obtain ⟨ids, hids, hmemory⟩ := exists_asked m n
      -- Nothing has been asked before the run begins.
      rw [← hids]
      exact hmemory
    · rw [← hsays, ← next?_of_inquiry hask] at hpause
      obtain ⟨-, id', hask', hstep⟩ | ⟨hnext, -⟩ := step_cases m'
      · rw [hask] at hask'
        cases hask'
        exact hstep
      · -- A node is next, so the step would carry it out.
        have hahead := (pending_of_inquiry hask).2
        rw [ahead, ← hnext, hpause] at hahead
        cases hahead
    · obtain ⟨hask, hpause, hm''⟩ | ⟨hnext, hkind, -⟩ := step_paused hstep
      · refine .inl ⟨?_, by rw [← hsays]; exact hpause, hm''⟩
        obtain ⟨item, hhead, hnode⟩ := Option.bind_eq_some_iff.mp (pending_of_inquiry hask).2
        cases item with
        | instr i => cases hnode
        | node id' => cases hnode; exact hhead
      · rw [hsetting] at hkind
        exact .inr ⟨hnext, hkind⟩

/-- A rule that pauses at every node and remembers all that it has been asked about. -/
theorem pauses_transparent_sample :
    Config.standard.timeLimit = none ∧
      ∀ n, ∃ k,
        (build .sample .standard [] default (fun _ => 0) (fun ids _ id => (true, id :: ids)) []).log n =
            (build .sample .standard [] default (fun _ => 1) .never ()).log k ∧
          ((build .sample .standard [] default (fun _ => 0) (fun ids _ id => (true, id :: ids)) []).runThrough
              n).progress =
            ((build .sample .standard [] default (fun _ => 1) .never ()).runThrough k).progress :=
  ⟨rfl, (pauses_transparent .sample .standard [] default (fun _ => 0) (fun _ => 1)
    (fun ids _ id => (true, id :: ids)) [] rfl).1⟩

end Machine

end ExplicitControl
