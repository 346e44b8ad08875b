import ExplicitControl.Proofs.Parts
import ExplicitControl.Proofs.Plain
import ExplicitControl.Proofs.Tracks

/-!
# One step of both machines

Two states mirror each other if they differ in their control only and the second agenda tracks the first, now
and in every snapshot.  Two operations are coupled if they lead from mirroring states to mirroring states or
fail alike; where one of them comes to a limit, nothing is said.
-/

namespace ExplicitControl

structure Snapshot.Mirrors (k k' : Snapshot) : Prop where
  tracks : Agenda.Tracks k.agenda k'.agenda
  stash : k'.stash = k.stash
  env : k'.env = k.env

/-- Control of a plain machine that goes where a state of the machine does. -/
structure Control.Mirrors (s : State) (c : Control) : Prop where
  tracks : Agenda.Tracks s.agenda c.agenda
  size : c.snapshots.size = s.snapshots.size
  snapshots : ∀ (i : Nat) (k k' : Snapshot), s.snapshots[i]? = some k → c.snapshots[i]? = some k' → k.Mirrors k'

def State.Mirrors (s s' : State) : Prop :=
  ∃ c : Control, s' = s.idle.under c ∧ c.Mirrors s

namespace Machine

variable {α β : Type} {p : Setting}

/-! ## 1. Operations side by side -/

/-- Two operations end alike, with related states, unless one of them comes to a limit. -/
def Coupled (r r' : EStateM.Result EvalError State α) (R : α → State → State → Prop) : Prop :=
  match r, r' with
  | .ok a s, .ok a' s' => a' = a ∧ R a s s'
  | .error e s, .error e' s' =>
    e.fault.isResource = true ∨ e'.fault.isResource = true ∨
      e' = e ∧ s'.current = s.current ∧ s'.heap = s.heap ∧ s'.output = s.output
  | .error e _, .ok _ _ => e.fault.isResource = true
  | .ok _ _, .error e _ => e.fault.isResource = true

theorem Coupled.mono {r r' : EStateM.Result EvalError State α} {R Q : α → State → State → Prop}
    (h : Coupled r r' R) (hRQ : ∀ a s s', R a s s' → Q a s s') : Coupled r r' Q := by
  cases r with
  | ok a s =>
    cases r' with
    | ok a' s' => exact ⟨h.1, hRQ a s s' h.2⟩
    | error e s' => exact h
  | error e s =>
    cases r' with
    | ok a' s' => exact h
    | error e' s' => exact h

theorem Coupled.bind {x y : MachineM α} {f g : α → MachineM β} {s s' : State}
    {R : α → State → State → Prop} {Q : β → State → State → Prop} (h : Coupled (x s) (y s') R)
    (hfg : ∀ a t t', R a t t' → Coupled (f a t) (g a t') Q) :
    Coupled ((x >>= f) s) ((y >>= g) s') Q := by
  show Coupled (EStateM.bind x f s) (EStateM.bind y g s') Q
  unfold EStateM.bind
  cases hx : x s with
  | ok a t =>
    rw [hx] at h
    cases hy : y s' with
    | ok a' t' =>
      rw [hy] at h
      obtain ⟨rfl, h⟩ := h
      exact hfg a' t t' h
    | error e t' =>
      rw [hy] at h
      -- Only the first machine has gone on; whatever becomes of it, the other is at a limit.
      dsimp only
      cases f a t with
      | ok b u => exact h
      | error e' u => exact .inr (.inl h)
  | error e t =>
    rw [hx] at h
    cases hy : y s' with
    | ok a' t' =>
      rw [hy] at h
      dsimp only
      cases g a' t' with
      | ok b u => exact h
      | error e' u => exact .inl h
    | error e' t' =>
      rw [hy] at h
      exact h

/-- Both fail at the same node with the same fault. -/
theorem coupled_failAt {s s' : State} (h : s.Mirrors s') (node : NodeId) (fault : Fault)
    {R : α → State → State → Prop} :
    Coupled (failAt p node fault s : EStateM.Result EvalError State α) (failAt p node fault s') R := by
  obtain ⟨c, rfl, -⟩ := h
  exact .inr (.inr ⟨rfl, rfl, rfl, rfl⟩)

/-- Local work is the same on both machines. -/
theorem coupled_local {P : Item → Prop} {x : MachineM α} (hx : Local P x)
    (hquiet : ∀ item, P item → item.isQuiet = true) {s s' : State} (h : s.Mirrors s') :
    Coupled (x s) (x s') fun _ t t' =>
      t.Mirrors t' ∧ ∃ items, (∀ item ∈ items, P item) ∧ t.agenda = items ++ s.agenda := by
  obtain ⟨c, rfl, hc⟩ := h
  -- Both runs are the one with nothing pending, each under its own control.
  have hreal := hx.under s.idle s.control
  have hitems := hx.schedules s.idle
  rw [State.idle_under_control] at hreal
  rw [hreal, hx.under]
  unfold Ensures at hitems
  cases hr : x s.idle with
  | error e t => exact .inr (.inr ⟨rfl, rfl, rfl, rfl⟩)
  | ok a t =>
    rw [hr] at hitems
    obtain ⟨items, hitems, hagenda⟩ := hitems
    have hagenda : t.agenda = items := hagenda.trans (List.append_nil items)
    have htracks := hc.tracks.append fun item hitem => hquiet item (hitems item hitem)
    rw [← hagenda] at htracks hitems
    refine ⟨rfl, ⟨(t.under c).control, rfl, ⟨htracks, hc.size, hc.snapshots⟩⟩, t.agenda, hitems, rfl⟩

/-- Local work that schedules nothing leaves the agenda as it is. -/
theorem coupled_steady {x : MachineM α} (hx : Local (fun _ => False) x) {s s' : State}
    (h : s.Mirrors s') :
    Coupled (x s) (x s') fun _ t t' => t.Mirrors t' ∧ t.agenda = s.agenda := by
  refine (coupled_local hx (fun _ h => h.elim) h).mono fun a t t' ht => ⟨ht.1, ?_⟩
  obtain ⟨-, items, hitems, hagenda⟩ := ht
  rwa [List.eq_nil_iff_forall_not_mem.mpr hitems, List.nil_append] at hagenda

theorem mirrors_counters {s s' : State} (h : s.Mirrors s') (steps readings steps' readings' : Nat) :
    State.Mirrors { s with steps, readings } { s' with steps := steps', readings := readings' } := by
  obtain ⟨c, rfl, hc⟩ := h
  exact ⟨{ c with steps := steps', readings := readings' }, rfl, ⟨hc.tracks, hc.size, hc.snapshots⟩⟩

theorem coupled_checkDeadline {s s' : State} (h : s.Mirrors s') :
    Coupled (checkDeadline p s) (checkDeadline p s') fun _ t t' =>
      t.Mirrors t' ∧ t.agenda = s.agenda := by
  obtain ⟨readings, hs | hs⟩ := checkDeadline_cases p s <;>
    obtain ⟨readings', hs' | hs'⟩ := checkDeadline_cases p s' <;> rw [hs, hs']
  · exact ⟨rfl, mirrors_counters h s.steps readings s'.steps readings', rfl⟩
  · rfl
  · rfl
  · exact .inl rfl

theorem coupled_tick {s s' : State} (h : s.Mirrors s') :
    Coupled (tick p s) (tick p s') fun _ t t' => t.Mirrors t' ∧ t.agenda = s.agenda := by
  obtain ⟨steps, readings, hs | ⟨n, hs⟩⟩ := tick_cases p s <;>
    obtain ⟨steps', readings', hs' | ⟨n', hs'⟩⟩ := tick_cases p s' <;> rw [hs, hs']
  · exact ⟨rfl, mirrors_counters h steps readings steps' readings', rfl⟩
  · rfl
  · rfl
  · exact .inl rfl

/-! ## 2. Nodes -/

theorem mirrors_opened {s s' : State} (h : s.Mirrors s') :
    s.opened.Mirrors { s' with agenda := .instr (.restore s'.env false) :: s'.agenda } := by
  obtain ⟨c, rfl, hc⟩ := h
  refine ⟨{ c with agenda := .instr (.restore s.env false) :: c.agenda }, ?_, ?_⟩
  · unfold State.opened
    split <;> rfl
  · unfold State.opened
    split
    -- The machine leaves an end away where the next item brings an environment back.
    next hhead => exact ⟨hc.tracks.openedBefore hhead _, hc.size, hc.snapshots⟩
    next => exact ⟨hc.tracks.opened _, hc.size, hc.snapshots⟩

theorem mirrors_cons {s s' : State} (h : s.Mirrors s') {item : Item} (hitem : item.isQuiet = true) :
    State.Mirrors { s with agenda := item :: s.agenda } { s' with agenda := item :: s'.agenda } := by
  obtain ⟨c, rfl, hc⟩ := h
  exact ⟨{ c with agenda := item :: c.agenda }, rfl, ⟨.quiet hitem hc.tracks, hc.size, hc.snapshots⟩⟩

/-- The rest of a function in tail position is dropped at once on the one machine, and turns into idle items
on the other. -/
theorem mirrors_return {s s' : State} (h : s.Mirrors s') (argument : Option NodeId) :
    (s.turned p (.returnStatement argument)).Mirrors
      { s' with agenda := returnItem argument :: .instr .reset :: s'.agenda } := by
  unfold State.turned
  dsimp only
  split
  next htail =>
    obtain ⟨c, rfl, hc⟩ := h
    obtain ⟨dropped, env, rest, b', hdropped, hagenda, hunwind, htracks⟩ :=
      hc.tracks.inTailPosition htail
    refine ⟨{ c with agenda := returnItem argument :: .instr .reset :: c.agenda }, rfl, ⟨?_, hc.size,
      hc.snapshots⟩⟩
    -- What was dropped is idle behind a `reset`, before the end of the call.
    refine .quiet (isQuiet_returnItem argument) ?_
    rw [hunwind, hagenda]
    cases htracks with
    | quiet hitem _ => cases hitem
    | call env closesCall hidle h =>
      rename_i idle b
      have := Agenda.Tracks.call env closesCall (.reset hdropped hidle) h
      rwa [List.cons_append, List.append_assoc, List.cons_append] at this
  next => exact mirrors_cons (mirrors_cons h rfl) (isQuiet_returnItem argument)

/-- Both machines turn control for a node. -/
theorem mirrors_turned {s s' : State} (h : s.Mirrors s') (kind : NodeKind) :
    (s.turned p kind).Mirrors (s'.plainTurned p kind) := by
  have opened : ∀ b : Bool, ∀ {s s' : State}, s.Mirrors s' →
      State.Mirrors (if b then s.opened else s)
        (if b then { s' with agenda := .instr (.restore s'.env false) :: s'.agenda } else s') := by
    intro b s s' h
    cases b with
    | true => exact mirrors_opened h
    | false => exact h
  cases kind with
  | program body => exact opened (opensScope p (.program body)) (mirrors_cons h rfl)
  | block body => exact opened (opensScope p (.block body)) h
  | forLoop init test update body => exact opened (opensScope p (.forLoop init test update body)) h
  | returnStatement argument => exact mirrors_return h argument
  | _ => exact h

theorem coupled_evalKind (id : NodeId) (kind : NodeKind) {s s' : State} (h : s.Mirrors s') :
    Coupled (evalKind p id kind s) (Plain.evalKind p id kind s') fun _ => State.Mirrors := by
  rw [evalKind_eq, Plain.evalKind_eq]
  exact (coupled_local (local_kindWork id kind) (isQuiet_kindItems id kind) (mirrors_turned h kind)).mono
    fun _ _ _ h => h.1

/-! ## 3. Calls -/

def ClosesNext (s : State) : Prop :=
  ∃ env rest, s.agenda = .instr (.restore env true) :: rest

/-- Each machine records the call in its own way, and its end comes next. -/
theorem coupled_enterCall {s s' : State} (h : s.Mirrors s') (node : NodeId) (frame : CallFrame) :
    Coupled (enterCall p node frame s) (Plain.enterCall p node frame s') fun _ t t' =>
      t.Mirrors t' ∧ ClosesNext t := by
  obtain ⟨c, rfl, hc⟩ := h
  -- The plain machine always puts an end of the call in front.
  obtain ⟨e, hplain, he⟩ | ⟨calls', hplain⟩ :
      (∃ e, Plain.enterCall p node frame (s.idle.under c) = .error e (s.idle.under c) ∧
        e.fault.isResource = true) ∨
      ∃ calls', Plain.enterCall p node frame (s.idle.under c) = .ok () (s.idle.under
        { c with agenda := .instr (.restore s.env true) :: c.agenda, calls := calls' }) := by
    unfold Plain.enterCall
    obtain hpush | ⟨e, hpush, he⟩ := pushCall_cases (p := p) node frame (s.idle.under c)
    · exact .inr ⟨_, bind_of_ok hpush⟩
    · exact .inl ⟨e, bind_of_error hpush, he⟩
  · rw [hplain]
    cases enterCall p node frame s with
    | ok a t => exact he
    | error e' t => exact .inr (.inl he)
  rw [hplain]
  unfold enterCall
  rw [get_bind]
  have tracks := hc.tracks
  -- The machine may use the end of a call or of a scope instead, which becomes idle on the other side.
  obtain ⟨env, rest, hagenda, hposition⟩ | ⟨env, rest, hagenda, hposition⟩ | ⟨-, hposition⟩ :=
    callPosition_cases s.agenda
  · rw [hposition]
    refine ⟨rfl, ⟨_, rfl, ⟨?_, hc.size, hc.snapshots⟩⟩, env, rest, hagenda⟩
    show Agenda.Tracks s.agenda (.instr (.restore s.env true) :: c.agenda)
    rw [hagenda] at tracks ⊢
    generalize c.agenda = b at tracks
    cases tracks with
    | quiet hitem _ => cases hitem
    | call _ closesCall hidle h => exact .call env closesCall (.restore s.env true hidle) h
  · rw [hposition]
    obtain hpush | ⟨e, hpush, he⟩ := pushCall_cases (p := p) node frame s
    · dsimp only
      rw [bind_of_ok hpush]
      have hclose : closeWithNext s.agenda = .instr (.restore env true) :: rest := by
        rw [hagenda]
        rfl
      refine ⟨rfl, ⟨_, rfl, ⟨?_, hc.size, hc.snapshots⟩⟩, env, rest, hclose⟩
      show Agenda.Tracks (closeWithNext s.agenda) (.instr (.restore s.env true) :: c.agenda)
      rw [hclose]
      rw [hagenda] at tracks
      generalize c.agenda = b at tracks
      cases tracks with
      | quiet hitem _ => cases hitem
      | scope _ hends h =>
        exact .call env false (.restore s.env true (Agenda.idle_of_scopeEnds hends)) h
    · dsimp only
      rw [bind_of_error hpush]
      exact he
  · rw [hposition]
    obtain hpush | ⟨e, hpush, he⟩ := pushCall_cases (p := p) node frame s
    · dsimp only
      rw [bind_of_ok hpush]
      refine ⟨rfl, ⟨_, rfl, ⟨?_, hc.size, hc.snapshots⟩⟩, _, _, rfl⟩
      exact .call s.env true .nil tracks
    · dsimp only
      rw [bind_of_error hpush]
      exact he

/-- The body of a function comes before the end of its call. -/
theorem mirrors_body {s s' : State} (h : s.Mirrors s') (hnext : ClosesNext s) (body : FunctionBody) :
    State.Mirrors { s with agenda := bodyItems body ++ s.agenda }
      { s' with agenda := bodyItems body ++ s'.agenda } := by
  obtain ⟨c, rfl, hc⟩ := h
  obtain ⟨env, rest, hagenda⟩ := hnext
  refine ⟨{ c with agenda := bodyItems body ++ c.agenda }, rfl, ⟨?_, hc.size, hc.snapshots⟩⟩
  cases body with
  | expression expr => exact .quiet rfl hc.tracks
  | block statements =>
    have tracks := hc.tracks
    show Agenda.Tracks (bodyItems (.block statements) ++ s.agenda) (bodyItems (.block statements) ++ c.agenda)
    rw [hagenda] at tracks ⊢
    unfold bodyItems
    rw [List.append_assoc, List.append_assoc]
    exact Agenda.Tracks.append (Agenda.isQuiet_ofStatements statements) (.marker tracks)

theorem coupled_applyClosure {s s' : State} (h : s.Mirrors s') (f : Closure) (args : List Value)
    (receiver : Option Value) (node : NodeId) (name : String) :
    Coupled (applyClosure p f args receiver node name s)
      (Plain.applyClosure p f args receiver node name s') fun _ => State.Mirrors := by
  cases hkind : p.tree.kind? f.node with
  | none =>
    unfold applyClosure Plain.applyClosure
    rw [hkind]
    exact coupled_failAt h _ _
  | some kind =>
    cases kind with
    | function fname params body =>
      by_cases harity : params.length = args.length
      · rw [applyClosure_eq hkind harity]
        unfold Plain.applyClosure
        simp only [hkind, harity, ne_eq, not_true_eq_false, if_false]
        refine (coupled_enterCall h node _).bind fun _ t t' ht => ?_
        refine (coupled_steady (local_closureFrame _ _ _ _ _ _) ht.1).bind fun _ u u' hu => ?_
        refine ⟨rfl, mirrors_body hu.1 ?_ body⟩
        unfold ClosesNext
        rw [hu.2]
        exact ht.2
      · rw [applyClosure_arity hkind harity]
        unfold Plain.applyClosure
        simp only [hkind, harity, ne_eq, not_false_eq_true, if_true]
        obtain ⟨c, rfl, -⟩ := h
        exact .inr (.inr ⟨rfl, rfl, rfl, rfl⟩)
    | _ =>
      unfold applyClosure Plain.applyClosure
      rw [hkind]
      exact coupled_failAt h _ _

/-- The snapshot that is brought back on the one machine mirrors the one on the other. -/
theorem coupled_invoke {s s' : State} (h : s.Mirrors s') (snapshot : Nat) (args : List Value)
    (node : NodeId) :
    Coupled (invoke p snapshot args node s) (invoke p snapshot args node s') fun _ => State.Mirrors := by
  by_cases harity : 1 < args.length
  · rw [invoke_of_arity harity, invoke_of_arity harity]
    exact coupled_failAt h _ _
  obtain ⟨c, rfl, hc⟩ := h
  cases hk : s.snapshots[snapshot]? with
  | none =>
    have hk' : (s.idle.under c).snapshots[snapshot]? = none := by
      rw [Array.getElem?_eq_none_iff] at hk ⊢
      exact hc.size ▸ hk
    rw [invoke_of_missing harity hk, invoke_of_missing harity hk']
    exact coupled_failAt ⟨c, rfl, hc⟩ _ _
  | some k =>
    obtain ⟨k', hk'⟩ : ∃ k', c.snapshots[snapshot]? = some k' := by
      have hsize := (Array.getElem?_eq_some_iff.mp hk).1
      rw [← hc.size] at hsize
      exact ⟨_, Array.getElem?_eq_getElem hsize⟩
    have hk'' : (s.idle.under c).snapshots[snapshot]? = some k' := hk'
    have mirrors := hc.snapshots snapshot k k' hk hk'
    rw [invoke_of_kept harity hk, invoke_of_kept harity hk'', mirrors.stash, mirrors.env]
    exact ⟨rfl, ⟨k'.agenda, k'.calls, c.snapshots, c.steps, c.readings⟩, rfl,
      ⟨mirrors.tracks, hc.size, hc.snapshots⟩⟩

theorem coupled_capture {s s' : State} (h : s.Mirrors s') :
    Coupled (capture s) (capture s') fun _ => State.Mirrors := by
  obtain ⟨c, rfl, hc⟩ := h
  refine ⟨congrArg Value.continuation hc.size,
    { c with snapshots := c.snapshots.push ⟨c.agenda, s.stash, s.env, c.calls⟩ }, rfl, ⟨hc.tracks, ?_, ?_⟩⟩
  · show (c.snapshots.push _).size = (s.snapshots.push _).size
    rw [Array.size_push, Array.size_push, hc.size]
  · intro i k k' hk hk'
    have hk : (s.snapshots.push ⟨s.agenda, s.stash, s.env, s.calls⟩)[i]? = some k := hk
    have hk' : (c.snapshots.push ⟨c.agenda, s.stash, s.env, c.calls⟩)[i]? = some k' := hk'
    rw [Array.getElem?_push] at hk hk'
    rw [hc.size] at hk'
    -- The new snapshots mirror each other as the states do; the others did before.
    by_cases hi : i = s.snapshots.size
    · rw [if_pos hi] at hk hk'
      cases hk
      cases hk'
      exact ⟨hc.tracks, rfl, rfl⟩
    · rw [if_neg hi] at hk hk'
      exact hc.snapshots i k k' hk hk'

theorem coupled_applyPlain {s s' : State} (h : s.Mirrors s') (callee : Value) (args : List Value)
    (receiver : Option Value) (node : NodeId) (name : String) :
    Coupled (applyPlain p callee args receiver node name s)
      (Plain.applyPlain p callee args receiver node name s') fun _ => State.Mirrors := by
  cases callee with
  | closure identity f => exact coupled_applyClosure h f args receiver node name
  | host identity f =>
    exact (coupled_steady (local_applyHost f args receiver node) h).mono fun _ _ _ ht => ht.1
  | continuation snapshot => exact coupled_invoke h snapshot args node
  | _ => exact coupled_failAt h _ _

theorem coupled_applyCallCc {s s' : State} (h : s.Mirrors s') (args : List Value) (node : NodeId) :
    Coupled (applyCallCc p args node s) (Plain.applyCallCc p args node s') fun _ => State.Mirrors := by
  rcases args with _ | ⟨function, _ | ⟨second, rest⟩⟩
  · exact coupled_failAt h _ _
  · refine (coupled_capture h).bind fun k t t' ht => ?_
    cases function with
    | callCc => exact (coupled_capture ht).bind fun k' u u' hu => coupled_applyPlain hu _ _ _ _ _
    | _ => exact coupled_applyPlain ht _ _ _ _ _
  · exact coupled_failAt h _ _

theorem coupled_applyValue {s s' : State} (h : s.Mirrors s') (callee : Value) (args : List Value)
    (receiver : Option Value) (node : NodeId) :
    Coupled (applyValue p callee args receiver node s) (Plain.applyValue p callee args receiver node s')
      fun _ => State.Mirrors := by
  refine (coupled_checkDeadline h).bind fun _ t t' ht => ?_
  cases callee with
  | callCc => exact coupled_applyCallCc ht.1 args node
  | _ => exact coupled_applyPlain ht.1 _ args receiver node _

theorem coupled_apply {s s' : State} (h : s.Mirrors s') (arity : Nat) (hasReceiver : Bool)
    (node : NodeId) :
    Coupled (apply p arity hasReceiver node s) (Plain.apply p arity hasReceiver node s')
      fun _ => State.Mirrors := by
  rw [apply_eq]
  refine (coupled_steady (local_onStash _) h).bind fun args t t' ht =>
    (coupled_steady local_pop ht.1).bind fun callee u u' hu => ?_
  cases hasReceiver with
  | true =>
    exact (coupled_steady (local_pop.map some) hu.1).bind fun receiver v v' hv =>
      coupled_applyValue hv.1 callee args receiver node
  | false =>
    exact (coupled_steady (local_pure none) hu.1).bind fun receiver v v' hv =>
      coupled_applyValue hv.1 callee args receiver node

end Machine

end ExplicitControl
