import ExplicitControl.Proofs.Alike

/-!
# Limits only cut runs short

Whatever the limits of a run are, it is the run under any other limits until one of the two comes to a limit.
The limit of steps is kept exactly: a run carries out as many items as it says, and fails with the next.
-/

namespace ExplicitControl.Machine

variable {σ : Type}

/-! ## 1. The number of steps -/

def stepping (p : Setting) (stepLimit : Option Nat) : Setting :=
  { p with config := { p.config with stepLimit } }

variable {p : Setting} {limit : Nat} {s s' : State}

/-- The limit of steps is looked at first. -/
theorem tick_eq (p : Setting) (s : State) :
    tick p s =
      if p.config.stepLimit.any fun limit => limit < s.steps + 1 then
        .error (.ofFault (.timeout (s.steps + 1))) { s with steps := s.steps + 1 }
      else
        (if (s.steps + 1) % max p.config.checkInterval 1 = 0 then checkDeadline p else pure ())
          { s with steps := s.steps + 1 } := by
  unfold tick
  rw [modify_bind, get_bind]
  dsimp only
  split <;> rfl

theorem tick_within (h : s.steps < limit) :
    tick (stepping p (some limit)) s = tick (stepping p none) s := by
  have hwithin : (some limit).any (fun limit => limit < s.steps + 1) = false := by simp; omega
  rw [tick_eq, tick_eq]
  show (if (some limit).any (fun limit => limit < s.steps + 1) then _ else _) = _
  rw [hwithin]
  rfl

theorem tick_over (h : limit ≤ s.steps) :
    tick (stepping p (some limit)) s =
      .error (.ofFault (.timeout (s.steps + 1))) { s with steps := s.steps + 1 } := by
  have hover : (some limit).any (fun limit => limit < s.steps + 1) = true := by simp; omega
  rw [tick_eq]
  show (if (some limit).any (fun limit => limit < s.steps + 1) then _ else _) = _
  rw [hover]
  rfl

/-- Below the limit an item does what it does without one. -/
theorem advance_within (h : s.steps < limit) :
    advance (stepping p (some limit)) s = advance (stepping p none) s := by
  unfold advance advanceBy
  cases s.agenda with
  | nil => rfl
  | cons item rest =>
    have htick : tick (stepping p (some limit)) { s with agenda := rest } =
        tick (stepping p none) { s with agenda := rest } := tick_within h
    -- Nothing but the counting of steps looks at their limit.
    have hexec : execute (stepping p (some limit)) item { s with agenda := rest } =
        execute (stepping p none) item { s with agenda := rest } := by
      cases item with
      | node id => exact bind_congr_first htick
      | instr i =>
        cases i with
        | marker m => cases m <;> exact bind_congr_first htick
        | _ => exact bind_congr_first htick
    dsimp only
    rw [hexec]
    rfl

/-- At the limit the next item fails. -/
theorem advance_over (h : limit ≤ s.steps) {item : Item} {rest : Agenda} (hs : s.agenda = item :: rest) :
    ∃ e, advance (stepping p (some limit)) s =
        .failed e { s with agenda := rest, steps := s.steps + 1 } ∧
      e.fault = .timeout (s.steps + 1) := by
  have hexec : execute (stepping p (some limit)) item { s with agenda := rest } =
      .error (.ofFault (.timeout (s.steps + 1))) { s with agenda := rest, steps := s.steps + 1 } :=
    bind_of_error (tick_over h)
  exact ⟨_, advanceBy_error hs hexec, locateError_fault _ _ _⟩

/-- Every item counts as one step. -/
theorem advance_steps (h : advance p s = .running s') : s'.steps = s.steps + 1 := by
  unfold advance advanceBy at h
  split at h
  · cases h
  next item rest hs =>
    have hexec := matches_execute (p := p) p.config p.clock item
      { s with agenda := rest } { s with agenda := rest } rfl rfl
    rw [show p.within p.config p.clock = p from rfl] at hexec
    cases hx : execute p item { s with agenda := rest } with
    | error e t => rw [hx] at h; cases h
    | ok a t =>
      rw [hx] at h hexec
      cases h
      exact hexec.2.2

theorem travel_steps {k : Nat} (h : travel p k s = .running s') :
    s'.steps = s.steps + (journey p k s).length := by
  induction k generalizing s with
  | zero => cases h; rfl
  | succ k ih =>
    rw [travel_succ] at h
    cases hs : s.agenda with
    | nil => rw [advance_nil p hs] at h; cases h
    | cons item rest =>
      cases ha : advance p s with
      | running s₁ =>
        rw [ha] at h
        rw [journey_succ hs ha, ih h, advance_steps ha, List.length_cons]
        omega
      | finished v s₁ => rw [ha] at h; cases h
      | failed e s₁ => rw [ha] at h; cases h

/-- As many items as the limit says are carried out as without one. -/
theorem travel_within {k : Nat} (h : s.steps + (journey (stepping p none) k s).length ≤ limit) :
    journey (stepping p (some limit)) k s = journey (stepping p none) k s ∧
      travel (stepping p (some limit)) k s = travel (stepping p none) k s := by
  induction k generalizing s with
  | zero => exact ⟨rfl, rfl⟩
  | succ k ih =>
    rw [travel_succ, travel_succ]
    cases hs : s.agenda with
    | nil => simp only [journey, advance_nil _ hs, hs, and_self]
    | cons item rest =>
      rw [journey_cons hs] at h ⊢
      rw [List.length_cons] at h
      have hless : s.steps < limit := by omega
      rw [journey_cons hs, advance_within hless]
      cases ha : advance (stepping p none) s with
      | running s₁ =>
        rw [ha] at h
        have hrest := ih (s := s₁) (by rw [advance_steps ha, Nat.add_assoc, Nat.add_comm 1]; exact h)
        exact ⟨congrArg _ hrest.1, hrest.2⟩
      | finished v s₁ => exact ⟨rfl, rfl⟩
      | failed e s₁ => exact ⟨rfl, rfl⟩

/-- No more items are carried out than the limit says; the one that would be too many fails. -/
theorem travel_bound (h : s.steps ≤ limit) (k : Nat) :
    s.steps + (journey (stepping p (some limit)) k s).length ≤ limit ∨
      s.steps + (journey (stepping p (some limit)) k s).length = limit + 1 ∧
        ∃ e s', travel (stepping p (some limit)) k s = .failed e s' ∧ e.fault = .timeout (limit + 1) := by
  induction k generalizing s with
  | zero => exact .inl h
  | succ k ih =>
    rw [travel_succ]
    cases hs : s.agenda with
    | nil => rw [journey, advance_nil _ hs, hs]; exact .inl h
    | cons item rest =>
      rw [journey_cons hs]
      obtain hless | heq := Nat.lt_or_eq_of_le h
      · cases ha : advance (stepping p (some limit)) s with
        | running s₁ =>
          have hsteps := advance_steps ha
          have hrest := ih (s := s₁) (by omega)
          rwa [hsteps, Nat.add_assoc, Nat.add_comm 1] at hrest
        | finished v s₁ => exact .inl hless
        | failed e s₁ => exact .inl hless
      · obtain ⟨e, ha, he⟩ := advance_over (p := p) (Nat.le_of_eq heq.symm) hs
        rw [ha]
        refine .inr ⟨?_, e, _, rfl, by rw [he, heq]⟩
        show s.steps + 1 = limit + 1
        rw [heq]

/-- A run that has more to do after as many items as the limit says fails with the next. -/
theorem travel_over {k : Nat} (hrun : travel (stepping p none) k s = .running s')
    (hlimit : s.steps + (journey (stepping p none) k s).length = limit) (hmore : s'.agenda ≠ []) :
    ∃ e t item, travel (stepping p (some limit)) (k + 1) s = .failed e t ∧ e.fault = .timeout (limit + 1) ∧
      t.output = s'.output ∧
      journey (stepping p (some limit)) (k + 1) s = journey (stepping p none) k s ++ [(item, t)] := by
  obtain ⟨hjourney, htravel⟩ := travel_within (Nat.le_of_eq hlimit)
  have hsteps : s'.steps = limit := (travel_steps hrun).trans hlimit
  rw [hrun] at htravel
  obtain ⟨item, rest, hs⟩ := List.exists_cons_of_ne_nil hmore
  obtain ⟨e, ha, he⟩ := advance_over (p := p) (Nat.le_of_eq hsteps.symm) hs
  refine ⟨e, { s' with agenda := rest, steps := s'.steps + 1 }, item, ?_, by rw [he, hsteps], rfl, ?_⟩
  · rw [travel, travelBy_add 1 htravel]
    exact travelBy_failed 0 ha
  · rw [journey_add 1 htravel, hjourney, journey, ha, hs]
    rfl

/-! ## 2. Runs -/

theorem alike_build (t : Tree) (config limits : Config) (hosts : List EmbeddedFunction) (output : Output)
    (clock clock' : Nat → Nat) (rule : PauseRule σ) (memory : σ) :
    (build t config hosts output clock rule memory).Alike
      (build t { limits with language := config.language } hosts output clock' rule memory) :=
  ⟨limits, clock',
    (build t { limits with language := config.language } hosts output clock' rule memory).state, rfl, rfl⟩

/-- Runs of one tree in one language, under whatever limits and clocks, are alike step by step unless one of
them has come to a limit.  A run with a limit of steps carries out what the run without that limit does, if
that is no more than the limit says.  If there is more to do, it fails with the next item, after the same
items and with the same output.  It never carries out more. -/
theorem limits_cut_short (t : Tree) (config limits : Config) (hosts : List EmbeddedFunction) (output : Output)
    (clock clock' : Nat → Nat) (rule : PauseRule σ) (memory : σ) :
    let m := build t config hosts output clock rule memory
    let m' := build t { limits with language := config.language } hosts output clock' rule memory
    (∀ n, (m.run n).AlikeWithin (m'.run n)) ∧ (∀ n, (m.runThrough n).AlikeWithin (m'.runThrough n)) ∧
      ∀ limit,
        let limited := build t { config with stepLimit := some limit } hosts output clock rule memory
        let free := build t { config with stepLimit := none } hosts output clock rule memory
        (∀ n, (limited.log n).length ≤ limit ∨
          (limited.log n).length = limit + 1 ∧
            ∃ e s, (limited.runThrough n).progress = .failed e s ∧ e.fault = .timeout (limit + 1)) ∧
        (∀ n, (free.log n).length ≤ limit →
          ∃ n', limited.log n' = free.log n ∧
            (limited.runThrough n').progress = (free.runThrough n).progress) ∧
        ∀ n s, (free.runThrough n).progress = .running s → (free.log n).length = limit → s.agenda ≠ [] →
          ∃ n' e s' item, (limited.runThrough n').progress = .failed e s' ∧
            e.fault = .timeout (limit + 1) ∧ s'.output = s.output ∧
            limited.log n' = free.log n ++ [(item, s')] := by
  intro m m'
  have halike : m.Alike m' := alike_build t config limits hosts output clock clock' rule memory
  refine ⟨run_alike halike, runThrough_alike halike, fun limit => ?_⟩
  intro limited free
  have hlimited : limited.setting = stepping m.setting (some limit) := rfl
  have hfree : free.setting = stepping m.setting none := rfl
  have hstate : free.state = limited.state := rfl
  have hsteps : limited.state.steps = 0 := rfl
  refine ⟨fun n => ?_, fun n hn => ?_, fun n s hrun hn hmore => ?_⟩
  · obtain ⟨k, hlog, hprogress⟩ := exists_travel limited n
    rw [hlimited] at hlog hprogress
    have hbound := travel_bound (p := m.setting) (s := limited.state) (Nat.zero_le limit) k
    rw [hsteps, Nat.zero_add, ← hlog, ← hprogress] at hbound
    exact hbound
  · obtain ⟨k, hlog, hprogress⟩ := exists_travel free n
    rw [hfree, hstate] at hlog hprogress
    have hwithin : limited.state.steps + (journey (stepping m.setting none) k limited.state).length ≤ limit := by
      rw [hsteps, Nat.zero_add, ← hlog]
      exact hn
    obtain ⟨hjourney, htravel⟩ := travel_within hwithin
    obtain ⟨n', hlog', hprogress'⟩ := exists_runThrough limited k
    exact ⟨n', by rw [hlog', hlimited, hjourney, hlog], by rw [hprogress', hlimited, htravel, hprogress]⟩
  · obtain ⟨k, hlog, hprogress⟩ := exists_travel free n
    rw [hfree, hstate] at hlog hprogress
    have hlimit : limited.state.steps + (journey (stepping m.setting none) k limited.state).length = limit := by
      rw [hsteps, Nat.zero_add, ← hlog]
      exact hn
    obtain ⟨e, s', item, htravel, he, houtput, hjourney⟩ :=
      travel_over (hprogress.symm.trans hrun) hlimit hmore
    obtain ⟨n', hlog', hprogress'⟩ := exists_runThrough limited (k + 1)
    refine ⟨n', e, s', item, by rw [hprogress', hlimited, htravel], he, houtput, ?_⟩
    rw [hlog', hlimited, hjourney, hlog]

/-- The third item is one too many. -/
theorem limits_cut_short_sample :
    let limited := build .sample { Config.standard with stepLimit := some 2 } [] default (fun _ => 0) .never ()
    let free := build .sample { Config.standard with stepLimit := none } [] default (fun _ => 0) .never ()
    ∃ s, (free.runThrough 2).progress = .running s ∧ (free.log 2).length = 2 ∧ s.agenda ≠ [] ∧
      ∃ n e s' item, (limited.runThrough n).progress = .failed e s' ∧ e.fault = .timeout 3 ∧
        s'.output = s.output ∧ limited.log n = free.log 2 ++ [(item, s')] := by
  intro limited free
  have hrunning : (free.runThrough 2).progress.isRunning = true := by decide +kernel
  have hlength : (free.log 2).length = 2 := by decide +kernel
  have hmore : (free.runThrough 2).progress.state.agenda.isEmpty = false := by decide +kernel
  have hs := Progress.eq_running hrunning
  have hagenda : (free.runThrough 2).progress.state.agenda ≠ [] := by
    intro hnone
    rw [hnone] at hmore
    cases hmore
  obtain ⟨-, -, hlimits⟩ :=
    limits_cut_short .sample .standard .standard [] default (fun _ => 0) (fun _ => 0) .never ()
  exact ⟨_, hs, hlength, hagenda, (hlimits 2).2.2 2 _ hs hlength hagenda⟩

end ExplicitControl.Machine
