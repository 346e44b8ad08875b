import ExplicitControl.Proofs.CallDepth
import ExplicitControl.Proofs.Coupled

/-!
# Shortcuts cannot be observed

Every step of the machine is answered by one or more steps of the plain machine: the same item, and with the
end of a scope or a call all idle items before it.  So the plain machine ends when the machine does and in the
same way, and it does not end before; only limits, which the two machines may come to at different times, can
tell them apart.
-/

namespace ExplicitControl

/-- The second state goes where the first one does.  Right before the end of a scope or a call, which sets the
environment, it may have another one. -/
def State.Trails (s s' : State) : Prop :=
  ∃ (c : Control) (env : Env), s' = { s.idle with env }.under c ∧ c.Mirrors s ∧
    (s.agenda.head?.any Item.isRestore = true ∨ env = s.env)

theorem State.Mirrors.trails {s s' : State} (h : s.Mirrors s') : s.Trails s' := by
  obtain ⟨c, rfl, hc⟩ := h
  exact ⟨c, s.env, rfl, hc, .inr rfl⟩

namespace Machine

variable {p : Setting}

def PlainLimited (p : Setting) (s : State) : Prop :=
  ∃ n, (travelBy (Plain.execute p) p n s).isLimited = true

theorem plainLimited_of_running {n : Nat} {s s' : State}
    (h : travelBy (Plain.execute p) p n s = .running s') (hs' : PlainLimited p s') :
    PlainLimited p s := by
  obtain ⟨m, hm⟩ := hs'
  exact ⟨n + m, by rw [travelBy_add m h]; exact hm⟩

/-! ## 1. Steps of the plain machine alone -/

theorem locateError_isResource (p : Setting) (s : State) {e : EvalError}
    (h : e.fault.isResource = true) : (locateError p s e).fault.isResource = true := by
  rw [locateError_fault]
  exact h

/-- An instruction that succeeds is carried out, unless the step is one too many. -/
theorem plain_instr {i : Instr} {s : State} {rest : Agenda} {f : State → State}
    (hs : s.agenda = .instr i :: rest)
    (hi : ∀ steps readings, Plain.execInstr p i { s with agenda := rest, steps, readings } =
      .ok () (f { s with agenda := rest, steps, readings })) :
    PlainLimited p s ∨ ∃ steps readings, travelBy (Plain.execute p) p 1 s =
      .running (f { s with agenda := rest, steps, readings }) := by
  obtain ⟨steps, readings, h | ⟨n, h⟩⟩ := tick_cases p { s with agenda := rest }
  · refine .inr ⟨steps, readings, ?_⟩
    rw [travelBy_running 0 (advanceBy_ok hs ((bind_of_ok h).trans (hi steps readings)))]
    rfl
  · refine .inl ⟨1, ?_⟩
    rw [travelBy_failed 0 (advanceBy_error hs (bind_of_error h))]
    exact locateError_isResource p _ rfl

/-- Bringing an environment back, as a step. -/
theorem plain_restore {env : Env} {closesCall : Bool} {s : State} {rest : Agenda}
    (hs : s.agenda = .instr (.restore env closesCall) :: rest) :
    PlainLimited p s ∨ ∃ (c : Control), travelBy (Plain.execute p) p 1 s =
      .running ({ s.idle with env }.under c) ∧ c.agenda = rest ∧ c.snapshots = s.snapshots := by
  obtain hlimit | ⟨steps, readings, hrun⟩ := plain_instr (p := p) hs
    (f := fun s => { s with env, calls := if closesCall then s.calls.pop else s.calls })
    fun steps readings => by cases closesCall <;> rfl
  · exact .inl hlimit
  · exact .inr ⟨⟨rest, if closesCall then s.calls.pop else s.calls, s.snapshots, steps, readings⟩, hrun,
      rfl, rfl⟩

/-- Idle items are carried out, and only the environment, the calls and the counters change. -/
theorem plain_idle {idle : Agenda} (hidle : Agenda.Idle idle) :
    ∀ (s : State) (rest : Agenda), s.agenda = idle ++ rest →
      PlainLimited p s ∨ ∃ (n : Nat) (c : Control) (env : Env),
        travelBy (Plain.execute p) p n s = .running ({ s.idle with env }.under c) ∧
          c.agenda = rest ∧ c.snapshots = s.snapshots := by
  -- On the idle items: one step each, and a `reset` takes what it drops with it.
  induction hidle with
  | nil => exact fun s _ hs => .inr ⟨0, s.control, s.env, rfl, hs, rfl⟩
  | restore env closesCall hidle ih =>
    intro s rest hs
    obtain hlimit | ⟨c, hrun, hagenda, hsnapshots⟩ := plain_restore (p := p) hs
    · exact .inl hlimit
    obtain hlimit | ⟨n, c', env', hn, hc⟩ := ih ({ s.idle with env }.under c) rest hagenda
    · exact .inl (plainLimited_of_running hrun hlimit)
    · exact .inr ⟨1 + n, c', env', (travelBy_add n hrun).trans hn, hc.1, hc.2.trans hsnapshots⟩
  | reset hdropped hidle ih =>
    rename_i dropped idle
    intro s rest hs
    let f : State → State := fun s => { s with agenda := Agenda.unwindCall s.agenda }
    obtain hlimit | ⟨steps, readings, hrun⟩ := plain_instr (p := p) hs (f := f) fun _ _ => rfl
    · exact .inl hlimit
    have hagenda : Agenda.unwindCall ((dropped ++ .instr (.marker .call) :: idle) ++ rest) =
        idle ++ rest := by
      rw [List.append_assoc, Agenda.unwindCall_append _ hdropped]
      rfl
    obtain hlimit | ⟨n, c, env', hn, hc⟩ := ih
      (f { s with agenda := (dropped ++ .instr (.marker .call) :: idle) ++ rest, steps, readings }) rest
      hagenda
    · exact .inl (plainLimited_of_running hrun hlimit)
    · exact .inr ⟨1 + n, c, env', (travelBy_add n hrun).trans hn, hc⟩

/-- A jump comes to the end of a scope by way of the ends of others, each of which is carried out before the
jump goes on. -/
theorem plain_leave {target : Marker} {keyword : String} {again : Instr} {node : NodeId}
    (hagain : Plain.execInstr p again = leaveLoop p target keyword again node)
    {ends : Agenda} (hends : ∀ i ∈ ends, Agenda.IsScopeEnd i) {item : Item}
    (hitem : Agenda.IsScopeEnd item) :
    ∀ (dropped : Agenda) (s : State) (rest : Agenda), (∀ i ∈ dropped, i.isPassed target = true) →
      s.agenda = .instr again :: (dropped ++ (ends ++ item :: rest)) →
      PlainLimited p s ∨ ∃ (n : Nat) (c : Control) (env : Env),
        travelBy (Plain.execute p) p (n + 1) s = .running ({ s.idle with env }.under c) ∧
          c.agenda = item :: .instr again :: rest ∧ c.snapshots = s.snapshots := by
  -- The search stops at the first end of a scope, whichever that is.
  have leaves : ∀ (env : Env) (dropped rest : Agenda) (s : State),
      (∀ i ∈ dropped, i.isPassed target = true) →
      s.agenda = dropped ++ .instr (.restore env false) :: rest →
      Plain.execInstr p again s =
        .ok () { s with agenda := .instr (.restore env false) :: .instr again :: rest } := by
    intro env dropped rest s hdropped hs
    rw [hagain]
    refine leaveLoop_scope p ?_
    rw [hs, Agenda.searchLoop_append _ hdropped, Agenda.searchLoop_restore]
  -- On the ends of scopes in between. Each costs two steps, the jump to it and the end itself.
  induction ends with
  | nil =>
    intro dropped s rest hdropped hs
    obtain ⟨env, rfl⟩ := hitem
    obtain hlimit | ⟨steps, readings, hrun⟩ := plain_instr (p := p) hs
      (f := fun s => { s with agenda := .instr (.restore env false) :: .instr again :: rest })
      fun steps readings => leaves env dropped rest _ hdropped rfl
    · exact .inl hlimit
    · exact .inr ⟨0, ⟨.instr (.restore env false) :: .instr again :: rest, s.calls, s.snapshots, steps,
        readings⟩, s.env, hrun, rfl, rfl⟩
  | cons first ends ih =>
    intro dropped s rest hdropped hs
    obtain ⟨⟨env, rfl⟩, hmore⟩ := List.forall_mem_cons.mp hends
    let f : State → State := fun s =>
      { s with agenda := .instr (.restore env false) :: .instr again :: (ends ++ item :: rest) }
    obtain hlimit | ⟨steps, readings, hrun⟩ := plain_instr (p := p) hs (f := f)
      fun steps readings => leaves env dropped (ends ++ item :: rest) _ hdropped rfl
    · exact .inl hlimit
    let s₁ : State := f { s with
      agenda := dropped ++ (.instr (.restore env false) :: ends ++ item :: rest), steps, readings }
    have hs₁ : s₁.agenda = .instr (.restore env false) :: .instr again :: (ends ++ item :: rest) := rfl
    obtain hlimit | ⟨c, hrun', hagenda, hsnapshots⟩ := plain_restore (p := p) hs₁
    · exact .inl (plainLimited_of_running hrun hlimit)
    have htwo := (travelBy_add 1 hrun).trans hrun'
    obtain hlimit | ⟨n, c', env', hn, hc⟩ := ih hmore [] ({ s₁.idle with env }.under c) rest
      (List.forall_mem_nil _) hagenda
    · exact .inl (plainLimited_of_running htwo hlimit)
    · refine .inr ⟨2 + n, c', env', ?_, hc.1, hc.2.trans hsnapshots⟩
      rw [Nat.add_assoc]
      exact (travelBy_add (n + 1) htwo).trans hn

/-! ## 2. A step of the machine -/

def Answers (p : Setting) (s' : State) : Progress → Prop
  | .running s => PlainLimited p s' ∨
      ∃ n s₁, travelBy (Plain.execute p) p (n + 1) s' = .running s₁ ∧ s.Trails s₁
  | r => r.isLimited = true ∨ PlainLimited p s' ∨
      ∃ n, (travelBy (Plain.execute p) p n s').ending = r.ending

/-- Coupled operations carry out an item on both machines. -/
theorem answers_of_coupled {item item' : Item} {s s' : State} {rest rest' : Agenda}
    (hs : s.agenda = item :: rest) (hs' : s'.agenda = item' :: rest')
    (h : Coupled (execute p item { s with agenda := rest })
      (Plain.execute p item' { s' with agenda := rest' }) fun _ => State.Mirrors) :
    Answers p s' (advance p s) := by
  unfold advance
  cases hx : execute p item { s with agenda := rest } with
  | ok a t =>
    rw [advanceBy_ok hs hx]
    rw [hx] at h
    cases hy : Plain.execute p item' { s' with agenda := rest' } with
    | ok a' t' =>
      rw [hy] at h
      exact .inr ⟨0, t', travelBy_running 0 (advanceBy_ok hs' hy), h.2.trails⟩
    | error e t' =>
      rw [hy] at h
      refine .inl ⟨1, ?_⟩
      rw [travelBy_failed 0 (advanceBy_error hs' hy)]
      exact locateError_isResource p t' h
  | error e t =>
    rw [advanceBy_error hs hx]
    rw [hx] at h
    cases hy : Plain.execute p item' { s' with agenda := rest' } with
    | ok a' t' =>
      rw [hy] at h
      exact .inl (locateError_isResource p t h)
    | error e' t' =>
      rw [hy] at h
      obtain h | h | ⟨rfl, hcurrent, hheap, houtput⟩ := h
      · exact .inl (locateError_isResource p t h)
      · refine .inr (.inl ⟨1, ?_⟩)
        rw [travelBy_failed 0 (advanceBy_error hs' hy)]
        exact locateError_isResource p t' h
      -- The place of the error follows from the node evaluated last, which is the same.
      · refine .inr (.inr ⟨1, ?_⟩)
        rw [travelBy_failed 0 (advanceBy_error hs' hy)]
        obtain ⟨hnode, hspan⟩ := locateError_place p hcurrent e'
        simp only [Progress.ending, locateError_fault, hnode, hspan, hheap, houtput]

/-- The states without the item that is carried out, if it is the same on both machines. -/
theorem mirrors_rest {item : Item} (hitem : item.isRestore = false) {s : State} {c : Control}
    {env : Env} {rest rest' : Agenda} (hs : s.agenda = item :: rest)
    (hc : c.Mirrors s) (henv : s.agenda.head?.any Item.isRestore = true ∨ env = s.env)
    (hrest : Agenda.Tracks rest rest') :
    State.Mirrors { s with agenda := rest } { { s.idle with env }.under c with agenda := rest' } := by
  have henv : env = s.env := by
    refine henv.resolve_left ?_
    rw [hs, List.head?_cons, Option.any_some, hitem]
    decide
  subst henv
  exact ⟨{ c with agenda := rest' }, rfl, ⟨hrest, hc.size, hc.snapshots⟩⟩

theorem coupled_execNode {s s' : State} (h : s.Mirrors s') (id : NodeId) :
    Coupled (execute p (.node id) s) (Plain.execute p (.node id) s') fun _ => State.Mirrors := by
  refine (coupled_tick h).bind fun _ t t' ht => ?_
  obtain ⟨⟨c, rfl, hc⟩, -⟩ := ht
  have h : State.Mirrors { t with current := some id } { t.idle.under c with current := some id } :=
    ⟨c, rfl, ⟨hc.tracks, hc.size, hc.snapshots⟩⟩
  show Coupled ((kindOf p id >>= fun kind => evalKind p id kind) { t with current := some id })
    ((kindOf p id >>= fun kind => Plain.evalKind p id kind) { t.idle.under c with current := some id }) _
  unfold kindOf
  cases hkind : p.tree.kind? id with
  | none => exact .inr (.inr ⟨rfl, rfl, rfl, rfl⟩)
  | some kind => exact coupled_evalKind id kind h

theorem coupled_instr {i : Instr} (hi : isLocalInstr i = true) {s s' : State} (h : s.Mirrors s') :
    Coupled (execute p (.instr i) s) (Plain.execute p (.instr i) s') fun _ => State.Mirrors := by
  refine (coupled_tick h).bind fun _ t t' ht => ?_
  have hplain : Plain.execInstr p i = execInstr p i := by cases i <;> first | rfl | cases hi
  dsimp only
  rw [hplain]
  exact (coupled_local (local_execInstr hi) (fun _ ⟨_, hitems, h⟩ => isQuiet_offers hitems _ h) ht.1).mono
    fun _ _ _ h => h.1

theorem coupled_call {arity : Nat} {hasReceiver : Bool} {node : NodeId} {s s' : State}
    (h : s.Mirrors s') :
    Coupled (execute p (.instr (.apply arity hasReceiver node)) s)
      (Plain.execute p (.instr (.apply arity hasReceiver node)) s') fun _ => State.Mirrors :=
  (coupled_tick h).bind fun _ _ _ ht => coupled_apply ht.1 arity hasReceiver node

theorem coupled_reset {s s' : State} (h : s.Mirrors s') (hclear : s.agenda.isClear = true) :
    Coupled (execute p (.instr .reset) s) (Plain.execute p (.instr .reset) s')
      fun _ => State.Mirrors := by
  refine (coupled_tick h).bind fun _ t t' ht => ?_
  obtain ⟨⟨c, rfl, hc⟩, hagenda⟩ := ht
  rw [← hagenda] at hclear
  exact ⟨rfl, ⟨{ c with agenda := Agenda.unwindCall c.agenda }, rfl,
    ⟨hc.tracks.unwindCall hclear, hc.size, hc.snapshots⟩⟩⟩

/-- A jump that comes to the end of the loop, or to the end of all work in which there is a loop. -/
theorem coupled_leave {target : Marker} (htarget : target ≠ .call) {keyword : String} {again : Instr}
    {node : NodeId} (hreal : execInstr p again = leaveLoop p target keyword again node)
    (hplain : Plain.execInstr p again = leaveLoop p target keyword again node) {s s' : State}
    (h : s.Mirrors s') (hclear : s.agenda.isClear = true)
    (hscope : ∀ item rest, Agenda.searchLoop target s.agenda ≠ .scope item rest) :
    Coupled (execute p (.instr again) s) (Plain.execute p (.instr again) s') fun _ => State.Mirrors := by
  refine (coupled_tick h).bind fun _ t t' ht => ?_
  obtain ⟨⟨c, rfl, hc⟩, hagenda⟩ := ht
  rw [← hagenda] at hclear hscope
  have hsame := hc.tracks.searchLoop htarget hclear
  show Coupled (execInstr p again t) (Plain.execInstr p again (t.idle.under c)) _
  rw [hreal, hplain]
  cases hsearch : Agenda.searchLoop target t.agenda with
  | scope item rest => exact absurd hsearch (hscope item rest)
  | reached rest =>
    rw [hsearch] at hsame
    obtain ⟨rest', hrest', htracks⟩ := hsame
    have hsearch' : Agenda.searchLoop target (t.idle.under c).agenda = .reached rest' := hrest'
    rw [leaveLoop_reached p hsearch, leaveLoop_reached p hsearch']
    exact ⟨rfl, { c with agenda := rest' }, rfl, ⟨htracks, hc.size, hc.snapshots⟩⟩
  | outside =>
    rw [hsearch] at hsame
    have hsearch' : Agenda.searchLoop target (t.idle.under c).agenda = .outside := hsame
    rw [leaveLoop_outside p hsearch, leaveLoop_outside p hsearch']
    exact coupled_failAt ⟨c, rfl, hc⟩ _ _

/-- An instruction that succeeds is carried out by the machine, unless the step is one too many. -/
theorem advance_instr {i : Instr} {s : State} {rest : Agenda} {f : State → State}
    (hs : s.agenda = .instr i :: rest)
    (hi : ∀ steps readings, execInstr p i { s with agenda := rest, steps, readings } =
      .ok () (f { s with agenda := rest, steps, readings })) :
    (advance p s).isLimited = true ∨ ∃ steps readings, advance p s =
      .running (f { s with agenda := rest, steps, readings }) := by
  unfold advance
  obtain ⟨steps, readings, h | ⟨n, h⟩⟩ := tick_cases p { s with agenda := rest }
  · exact .inr ⟨steps, readings, advanceBy_ok hs ((bind_of_ok h).trans (hi steps readings))⟩
  · refine .inl ?_
    rw [advanceBy_error hs (bind_of_error h)]
    exact locateError_isResource p _ rfl

theorem answers_of_limited {r : Progress} (s' : State) (h : r.isLimited = true) : Answers p s' r := by
  cases r with
  | running s => cases h
  | finished v s => exact .inl h
  | failed e s => exact .inl h

/-- A jump is answered by the same jump, with the ends of further scopes on its way. -/
theorem answers_leave {target : Marker} (htarget : target ≠ .call) {keyword : String} {again : Instr}
    {node : NodeId} (hquiet : (Item.instr again).isQuiet = true)
    (hreal : execInstr p again = leaveLoop p target keyword again node)
    (hplain : Plain.execInstr p again = leaveLoop p target keyword again node) {s s' : State}
    {rest rest' : Agenda} (hs : s.agenda = .instr again :: rest)
    (hs' : s'.agenda = .instr again :: rest')
    (h : State.Mirrors { s with agenda := rest } { s' with agenda := rest' })
    (hclear : rest.isClear = true) : Answers p s' (advance p s) := by
  -- Unless it comes to the end of a scope, the jump is one step on both machines.
  by_cases hscope : ∃ item after, Agenda.searchLoop target rest = .scope item after
  · obtain ⟨item, after, hsearch⟩ := hscope
    obtain ⟨c, hc', hc⟩ := h
    have hcagenda : c.agenda = rest' := congrArg State.agenda hc'.symm
    have hsame := hc.tracks.searchLoop htarget hclear
    rw [show Agenda.searchLoop target ({ s with agenda := rest } : State).agenda = .scope item after from
      hsearch] at hsame
    obtain ⟨dropped, ends, after', hdropped, hends, hitem, hb, htracks⟩ := hsame
    obtain hlimit | ⟨steps, readings, hrun⟩ := advance_instr (p := p) hs
      (f := fun s => { s with agenda := item :: .instr again :: after }) fun steps readings => by
        rw [hreal]
        exact leaveLoop_scope p hsearch
    · exact answers_of_limited s' hlimit
    rw [hrun]
    obtain hlimit | ⟨n, c', env, hn, hagenda, hsnapshots⟩ := plain_leave (p := p) hplain hends hitem
      dropped s' after' hdropped (by rw [hs', ← hcagenda, hb])
    · exact .inl hlimit
    · have hkept : c'.snapshots = c.snapshots := hsnapshots.trans (congrArg State.snapshots hc')
      refine .inr ⟨n, _, hn, c', env, ?_, ⟨?_, ?_, ?_⟩, .inl ?_⟩
      · have hdata : s' = { s.idle.under c with agenda := s'.agenda } := by
          have := congrArg (fun t : State => { t with agenda := s'.agenda }) hc'
          exact this
        rw [hdata]
        rfl
      · obtain ⟨e, rfl⟩ := hitem
        rw [hagenda]
        exact Agenda.Tracks.opened (.quiet hquiet htracks) e
      · rw [hkept]
        exact hc.size
      · rw [hkept]
        exact hc.snapshots
      · obtain ⟨e, rfl⟩ := hitem
        rfl
  · rw [not_exists] at hscope
    exact answers_of_coupled hs hs' (coupled_leave htarget hreal hplain h hclear fun item after hsearch =>
      hscope item ⟨after, hsearch⟩)

/-- The end of a scope or a call is answered by the idle items before it, and then by itself. -/
theorem answers_restore {env : Env} {closesCall closesCall' : Bool} {idle : Agenda}
    (hidle : Agenda.Idle idle) {s s' : State} {c : Control} {env' : Env} {rest rest' : Agenda}
    (hs : s.agenda = .instr (.restore env closesCall) :: rest)
    (hs' : s' = { s.idle with env := env' }.under c)
    (hagenda : c.agenda = idle ++ .instr (.restore env closesCall') :: rest')
    (hc : c.Mirrors s) (hrest : Agenda.Tracks rest rest') : Answers p s' (advance p s) := by
  obtain hlimit | ⟨steps, readings, hrun⟩ := advance_instr (p := p) hs
    (f := fun s => { s with env, calls := if closesCall then s.calls.pop else s.calls })
    fun steps readings => by cases closesCall <;> rfl
  · exact answers_of_limited s' hlimit
  rw [hrun]
  obtain hlimit | ⟨n, c₁, env₁, hn, hagenda₁, hsnapshots₁⟩ := plain_idle (p := p) hidle s'
    (.instr (.restore env closesCall') :: rest') (by rw [hs']; exact hagenda)
  · exact .inl hlimit
  have hs₁ : ({ s'.idle with env := env₁ }.under c₁).agenda = .instr (.restore env closesCall') :: rest' :=
    hagenda₁
  obtain hlimit | ⟨c₂, hrun₂, hagenda₂, hsnapshots₂⟩ := plain_restore (p := p) hs₁
  · exact .inl (plainLimited_of_running hn hlimit)
  -- Neither idle items nor the end of a scope touch the snapshots.
  have hkept : c₂.snapshots = c.snapshots :=
    hsnapshots₂.trans (hsnapshots₁.trans (congrArg State.snapshots hs'))
  refine .inr ⟨n, _, (travelBy_add 1 hn).trans hrun₂, c₂, env, ?_, ⟨?_, ?_, ?_⟩, .inr rfl⟩
  · rw [hs']
    rfl
  · rw [hagenda₂]
    exact hrest
  · rw [hkept]
    exact hc.size
  · rw [hkept]
    exact hc.snapshots

/-- Every step of the machine is answered, as long as work on statements is where it belongs. -/
theorem answers_advance {s s' : State} (hplaced : s.agenda.Placed p.tree) (h : s.Trails s') :
    Answers p s' (advance p s) := by
  obtain ⟨c, env, hs', hc, henv⟩ := h
  cases hs : s.agenda with
  | nil =>
    have tracks := hc.tracks
    have hnil : s'.agenda = [] := by
      rw [hs] at tracks
      generalize hb : c.agenda = b at tracks
      cases tracks
      rw [hs']
      exact hb
    unfold advance
    rw [show advanceBy (execute p) p s = .finished s.result s by unfold advanceBy; rw [hs]]
    refine .inr (.inr ⟨1, ?_⟩)
    have hend : advanceBy (Plain.execute p) p s' = .finished s'.result s' := by
      unfold advanceBy
      rw [hnil]
    rw [travelBy_finished 0 hend, hs']
    rfl
  | cons item rest =>
    have tracks := hc.tracks
    rw [hs] at tracks hplaced
    generalize hb : c.agenda = b at tracks
    have hs'agenda : s'.agenda = b := by rw [hs']; exact hb
    -- How the first items are related says how many steps the answer takes.
    cases tracks with
    | scope env₁ hends hrest =>
      exact answers_restore (Agenda.idle_of_scopeEnds hends) hs hs' hb hc hrest
    | call env₁ closesCall hidle hrest => exact answers_restore hidle hs hs' hb hc hrest
    | marker hrest =>
      have hmirrors := mirrors_rest rfl hs hc henv hrest
      rw [← hs'] at hmirrors
      exact answers_of_coupled hs hs'agenda (coupled_instr rfl hmirrors)
    | quiet hitem hrest =>
      have hmirrors := mirrors_rest (Item.not_isRestore_of_isQuiet hitem) hs hc henv hrest
      rw [← hs'] at hmirrors
      cases item with
      | node id => exact answers_of_coupled hs hs'agenda (coupled_execNode hmirrors id)
      | instr i =>
        cases i with
        | restore env₁ closesCall => cases hitem
        | reset => exact answers_of_coupled hs hs'agenda (coupled_reset hmirrors (hplaced.1 rfl))
        | breakLoop node =>
          have htarget : Marker.loopEnd ≠ .call := by decide
          exact answers_leave htarget rfl rfl rfl hs hs'agenda hmirrors (hplaced.1 rfl)
        | continueLoop node =>
          have htarget : Marker.tripEnd ≠ .call := by decide
          exact answers_leave htarget rfl rfl rfl hs hs'agenda hmirrors (hplaced.1 rfl)
        | apply arity hasReceiver node =>
          exact answers_of_coupled hs hs'agenda (coupled_call hmirrors)
        | _ => exact answers_of_coupled hs hs'agenda (coupled_instr rfl hmirrors)

/-! ## 3. Runs -/

/-- The plain machine answers a run with one that takes no fewer steps. -/
theorem answers_travel (ht : p.tree.WellPlaced) {limit : Nat} (n : Nat) :
    ∀ {s s' : State}, s.Balanced p.tree limit → s.Trails s' →
      (travel p n s).isLimited = true ∨ PlainLimited p s' ∨
      (∃ t, travel p n s = .running t ∧
        ∃ m t', n ≤ m ∧ travelBy (Plain.execute p) p m s' = .running t' ∧ t.Trails t') ∨
      ∃ e m, (travel p n s).ending = some e ∧ (travelBy (Plain.execute p) p m s').ending = some e := by
  -- On the steps of the machine; each is answered by one step or more.
  induction n with
  | zero =>
    exact fun {s s'} _ h => .inr (.inr (.inl ⟨s, rfl, 0, s', Nat.le_refl _, rfl, h⟩))
  | succ n ih =>
    intro s s' hs h
    have hanswer := answers_advance (hs.now.placed ht) h
    cases hadvance : advance p s with
    | running t =>
      rw [hadvance] at hanswer
      obtain hlimit | ⟨k, t', hk, htrails⟩ := hanswer
      · exact .inr (.inl hlimit)
      have htravel : travel p (n + 1) s = travel p n t := travelBy_running n hadvance
      rw [htravel]
      obtain h | h | ⟨u, hu, m, u', hm, hrun, hu'⟩ | ⟨e, m, he, hm⟩ :=
        ih (balanced_advance hs hadvance) htrails
      · exact .inl h
      · exact .inr (.inl (plainLimited_of_running hk h))
      · refine .inr (.inr (.inl ⟨u, hu, k + 1 + m, u', by omega, ?_, hu'⟩))
        exact (travelBy_add m hk).trans hrun
      · refine .inr (.inr (.inr ⟨e, k + 1 + m, he, ?_⟩))
        rw [travelBy_add m hk]
        exact hm
    | finished v t =>
      rw [hadvance] at hanswer
      have htravel : travel p (n + 1) s = .finished v t := travelBy_finished n hadvance
      rw [htravel]
      obtain h | h | ⟨m, hm⟩ := hanswer
      · exact .inl h
      · exact .inr (.inl h)
      · exact .inr (.inr (.inr ⟨_, m, rfl, hm⟩))
    | failed e t =>
      rw [hadvance] at hanswer
      have htravel : travel p (n + 1) s = .failed e t := travelBy_failed n hadvance
      rw [htravel]
      obtain h | h | ⟨m, hm⟩ := hanswer
      · exact .inl h
      · exact .inr (.inl h)
      · exact .inr (.inr (.inr ⟨_, m, rfl, hm⟩))

/-- Where neither machine comes to a limit, they end in the same way or neither ends. -/
theorem ending_iff (ht : p.tree.WellPlaced) {limit : Nat} {s s' : State}
    (hs : s.Balanced p.tree limit) (h : s.Trails s')
    (hreal : ∀ n, (travel p n s).isLimited = false)
    (hplain : ∀ n, (travelBy (Plain.execute p) p n s').isLimited = false) (e : Ending) :
    (∃ n, (travel p n s).ending = some e) ↔
      ∃ n, (travelBy (Plain.execute p) p n s').ending = some e := by
  have notLimited : ¬PlainLimited p s' := by
    rintro ⟨n, hn⟩
    rw [hplain n] at hn
    cases hn
  constructor
  · rintro ⟨n, hn⟩
    obtain hlimit | hlimit | ⟨t, hrun, -⟩ | ⟨e', m, he', hm⟩ := answers_travel ht n hs h
    · rw [hreal n] at hlimit
      cases hlimit
    · exact absurd hlimit notLimited
    · exact absurd hrun (ne_running_of_ending hn t)
    · rw [hn] at he'
      cases he'
      exact ⟨m, hm⟩
  · rintro ⟨n, hn⟩
    -- The machine cannot outlast the plain one, whose every step answers one of its own or none.
    obtain hlimit | hlimit | ⟨t, hrun, m, t', hle, hm, -⟩ | ⟨e', m, he', hm⟩ :=
      answers_travel ht n hs h
    · rw [hreal n] at hlimit
      cases hlimit
    · exact absurd hlimit notLimited
    · have hended := travelBy_ended (m - n) rfl (ne_running_of_ending hn)
      rw [Nat.add_sub_cancel' hle, hm] at hended
      exact absurd hended.symm (ne_running_of_ending hn t')
    · rw [ending_unique hn hm]
      exact ⟨n, he'⟩

variable {σ : Type} (t : Tree) (config : Config) (hosts : List EmbeddedFunction) (output : Output)
  (clock : Nat → Nat) (rule : PauseRule σ) (memory : σ)

theorem trails_build : (build t config hosts output clock rule memory).state.Trails
    (build t config hosts output clock rule memory).state := by
  refine State.Mirrors.trails ⟨_, (State.idle_under_control _).symm, ⟨.quiet rfl .nil, rfl, ?_⟩⟩
  exact fun i k k' hk => by cases (Array.getElem?_eq_none (Nat.zero_le i)).symm.trans hk

/-- The machine and the machine without shortcuts end a well-placed program in the same way, with the same
value and output or the same error at the same place, if neither comes to a limit. -/
theorem shortcuts_unobservable (ht : t.WellPlaced)
    (hreal : ∀ n, ((build t config hosts output clock rule memory).runThrough n).progress.isLimited = false)
    (hplain : ∀ n, (Plain.travel (build t config hosts output clock rule memory).setting n
      (build t config hosts output clock rule memory).state).isLimited = false) (ending : Ending) :
    (∃ n, ((build t config hosts output clock rule memory).runThrough n).progress.ending = some ending) ↔
      ∃ n, (Plain.travel (build t config hosts output clock rule memory).setting n
        (build t config hosts output clock rule memory).state).ending = some ending := by
  have htravel := (forall_progress_iff _ fun progress => progress.isLimited = false).mp hreal
  exact (exists_progress_iff _ fun progress => progress.ending = some ending).trans
    (ending_iff ht (balanced_build t config hosts output clock rule memory)
      (trails_build t config hosts output clock rule memory) htravel hplain ending)

theorem shortcuts_unobservable_sample :
    (∃ n, ((build .sample .standard [] default (fun _ => 0) .never ()).runThrough n).progress.ending =
        some (.finished (.bool true) .empty default)) ↔
      ∃ n, (Plain.travel (build .sample .standard [] default (fun _ => 0) .never ()).setting n
        (build .sample .standard [] default (fun _ => 0) .never ()).state).ending =
          some (.finished (.bool true) .empty default) := by
  refine shortcuts_unobservable .sample .standard [] default (fun _ => 0) .never ()
    Tree.sample_wellPlaced ?_ (fun n => ?_) _
  · refine (forall_progress_iff _ fun progress => progress.isLimited = false).mpr fun k => ?_
    exact not_limited_of_finished (m := 10) (by decide +kernel) k
  · exact not_limited_of_finished (m := 11) (by decide +kernel) n

end Machine

end ExplicitControl
