import ExplicitControl.Proofs.Travel
import ExplicitControl.Proofs.Turns

/-!
# Two machines under different limits

The limits of a run are looked at when a step is counted, when a value is called and when a call is recorded,
and nowhere else.  Two machines that differ in their limits and clocks only therefore go through the same
states, as long as neither has come to a limit.
-/

namespace ExplicitControl

def CallStack.unlimited (c : CallStack) : CallStack :=
  { c with maxDepth := 0, traceFrames := 0 }

def Snapshot.unlimited (k : Snapshot) : Snapshot :=
  { k with calls := k.calls.unlimited }

/-- The registers, without the limits on calls and the number of looks at the clock. -/
def State.unlimited (s : State) : State :=
  { s with
    calls := s.calls.unlimited
    snapshots := s.snapshots.map Snapshot.unlimited
    readings := 0 }

def State.Alike (s s' : State) : Prop :=
  s'.unlimited = s.unlimited

namespace State.Alike

variable {s s' : State}

theorem agenda (h : s.Alike s') : s'.agenda = s.agenda := by
  have := congrArg State.agenda h
  exact this

theorem current (h : s.Alike s') : s'.current = s.current := by
  have := congrArg State.current h
  exact this

theorem frames (h : s.Alike s') : s'.calls.frames = s.calls.frames := by
  have := congrArg (fun s : State => s.calls.frames) h
  exact this

theorem snapshot (h : s.Alike s') (i : Nat) :
    s'.snapshots[i]?.map Snapshot.unlimited = s.snapshots[i]?.map Snapshot.unlimited := by
  have hmap : s'.snapshots.map Snapshot.unlimited = s.snapshots.map Snapshot.unlimited :=
    congrArg State.snapshots h
  rw [← Array.getElem?_map, hmap, Array.getElem?_map]

theorem size (h : s.Alike s') : s'.snapshots.size = s.snapshots.size := by
  have hmap := congrArg (fun s : State => s.snapshots.size) h
  simpa only [State.unlimited, Array.size_map] using hmap

/-- A change that does not look at limits keeps states alike. -/
theorem map (h : s.Alike s') {f : State → State} (hf : ∀ s, (f s).unlimited = f s.unlimited) :
    (f s).Alike (f s') := by
  unfold State.Alike at h ⊢
  rw [hf, hf, h]

/-- So does putting something behind and changing control in one way. -/
theorem under (t : State) (h : s.Alike s') : (t.under s.control).Alike (t.under s'.control) := by
  have hcontrol : ∀ s : State, (t.under s.control).unlimited = { t with
      agenda := t.agenda ++ s.unlimited.agenda
      calls := s.unlimited.calls
      snapshots := s.unlimited.snapshots
      steps := s.unlimited.steps
      readings := 0 } := fun _ => rfl
  unfold State.Alike at h ⊢
  rw [hcontrol, hcontrol, h]

theorem idle (h : s.Alike s') : s' = s.idle.under s'.control := by
  have hs : ∀ s c : State, s.idle.under c.control = s.unlimited.idle.under c.control := fun _ _ => rfl
  rw [hs s, ← h]
  rfl

end State.Alike

def Setting.within (p : Setting) (limits : Config) (clock : Nat → Nat) : Setting :=
  { p with config := { limits with language := p.config.language }, clock }

namespace Machine

variable {α β : Type} {p : Setting} {limits : Config} {clock : Nat → Nat} {n : Nat} {s s' : State}

/-! ## 1. Operations side by side -/

/-- Two operations end alike, after `n` steps, unless one of them comes to a limit. -/
def Together (n : Nat) (r r' : EStateM.Result EvalError State α) : Prop :=
  match r, r' with
  | .ok a s, .ok a' s' => a' = a ∧ s.Alike s' ∧ s.steps = n
  | .error e s, .error e' s' =>
    e.fault.isResource = true ∨ e'.fault.isResource = true ∨ e' = e ∧ s.Alike s'
  | .error e _, .ok _ _ => e.fault.isResource = true
  | .ok _ _, .error e _ => e.fault.isResource = true

/-- From states that are alike, after `n` steps, the operations end alike after `m`. -/
def Matches (n m : Nat) (x y : MachineM α) : Prop :=
  ∀ s s', s.Alike s' → s.steps = n → Together m (x s) (y s')

theorem Matches.bind {n m k : Nat} {x y : MachineM α} {f g : α → MachineM β} (h : Matches n m x y)
    (hfg : ∀ a, Matches m k (f a) (g a)) : Matches n k (x >>= f) (y >>= g) := by
  intro s s' hs hn
  have h := h s s' hs hn
  show Together k (EStateM.bind x f s) (EStateM.bind y g s')
  unfold EStateM.bind
  cases hx : x s with
  | ok a t =>
    rw [hx] at h
    cases hy : y s' with
    | ok a' t' =>
      rw [hy] at h
      obtain ⟨rfl, ht, hm⟩ := h
      exact hfg a' t t' ht hm
    | error e t' =>
      rw [hy] at h
      -- Only the first has gone on; whatever becomes of it, the other is at a limit.
      dsimp only
      cases f a t with
      | ok b u => exact h
      | error e' u => exact .inr (.inl h)
  | error e t =>
    rw [hx] at h
    cases hy : y s' with
    | ok a' t' =>
      rw [hy] at h
      dsimp only
      cases g a' t' with
      | ok b u => exact h
      | error e' u => exact .inl h
    | error e' t' =>
      rw [hy] at h
      exact h

theorem matches_local {P : Item → Prop} {x : MachineM α} (hx : Local P x) : Matches n n x x := by
  intro s s' h hn
  -- Both runs are the one with nothing pending, each under its own control.
  have hfirst := hx.under s.idle s.control
  have hsecond := hx.under s.idle s'.control
  rw [State.idle_under_control] at hfirst
  rw [← h.idle] at hsecond
  rw [hfirst, hsecond]
  cases x s.idle with
  | ok a t => exact ⟨rfl, .under t h, hn⟩
  | error e t => exact .inr (.inr ⟨rfl, .under t h⟩)

theorem matches_failAt (node : NodeId) (fault : Fault) :
    Matches n n (failAt p node fault : MachineM α) (failAt p node fault) :=
  fun _ _ h _ => .inr (.inr ⟨rfl, h⟩)

/-- A change of control that depends on nothing but what is alike. -/
theorem matches_modify {f : State → State} (hf : ∀ s, (f s).unlimited = f s.unlimited)
    (hsteps : ∀ s, (f s).steps = s.steps) : Matches n n (modify f) (modify f) :=
  fun s _ h hn => ⟨rfl, h.map hf, (hsteps s).trans hn⟩

/-- What is chosen by the agenda is chosen alike. -/
theorem matches_get {f g : State → MachineM α}
    (h : ∀ s s' : State, s.Alike s' → Matches n n (f s) (g s')) : Matches n n (get >>= f) (get >>= g) := by
  intro s s' hs hn
  exact h s s' hs s s' hs hn

/-! ## 2. Limits -/

theorem matches_checkDeadline : Matches n n (checkDeadline p) (checkDeadline (p.within limits clock)) := by
  intro s s' h hn
  obtain ⟨readings, hs | hs⟩ := checkDeadline_cases p s <;>
    obtain ⟨readings', hs' | hs'⟩ := checkDeadline_cases (p.within limits clock) s' <;> rw [hs, hs']
  · exact ⟨rfl, h, hn⟩
  · rfl
  · rfl
  · exact .inl rfl

theorem matches_tick : Matches n (n + 1) (tick p) (tick (p.within limits clock)) := by
  intro s s' h hn
  have counted : ∀ readings readings', State.Alike { s with steps := s.steps + 1, readings }
      { s' with steps := s'.steps + 1, readings := readings' } :=
    fun _ _ => h.map (f := fun s => { s with steps := s.steps + 1 }) fun _ => rfl
  obtain ⟨readings, hs | hs⟩ := tick_counts p s <;>
    obtain ⟨readings', hs' | hs'⟩ := tick_counts (p.within limits clock) s' <;> rw [hs, hs']
  · exact ⟨rfl, counted _ _, congrArg (· + 1) hn⟩
  · rfl
  · rfl
  · exact .inl rfl

theorem matches_pushCall (node : NodeId) (frame : CallFrame) :
    Matches n n (onCalls p node (CallStack.push frame))
      (onCalls (p.within limits clock) node (CallStack.push frame)) := by
  intro s s' h hn
  have recorded := h.map (f := fun s =>
    { s with calls := { s.calls with frames := s.calls.frames.push frame } }) fun _ => rfl
  obtain hs | ⟨e, hs, he⟩ := pushCall_cases p node frame s <;>
    obtain hs' | ⟨e', hs', he'⟩ := pushCall_cases (p.within limits clock) node frame s' <;> rw [hs, hs']
  · exact ⟨rfl, recorded, hn⟩
  · exact he'
  · exact he
  · exact .inl he

/-! ## 3. Calls -/

theorem matches_enterCall (node : NodeId) (frame : CallFrame) :
    Matches n n (enterCall p node frame) (enterCall (p.within limits clock) node frame) := by
  refine matches_get fun s s' h => ?_
  rw [h.agenda]
  split
  · exact matches_modify (fun _ => rfl) fun _ => rfl
  · exact (matches_pushCall node frame).bind fun _ => matches_modify (fun _ => rfl) fun _ => rfl
  · exact (matches_pushCall node frame).bind fun _ => matches_modify (fun _ => rfl) fun _ => rfl

theorem matches_applyClosure (f : Closure) (args : List Value) (receiver : Option Value) (node : NodeId)
    (name : String) :
    Matches n n (applyClosure p f args receiver node name)
      (applyClosure (p.within limits clock) f args receiver node name) := by
  have hfail : ∀ fault, Matches n n (failAt p node fault : MachineM Unit)
      (failAt (p.within limits clock) node fault) := matches_failAt node
  cases hkind : p.tree.kind? f.node with
  | none =>
    have hkind' : (p.within limits clock).tree.kind? f.node = none := hkind
    unfold applyClosure
    rw [hkind, hkind']
    exact hfail _
  | some kind =>
    have hkind' : (p.within limits clock).tree.kind? f.node = some kind := hkind
    cases kind with
    | function fname params body =>
      by_cases harity : params.length = args.length
      · rw [applyClosure_eq hkind harity, applyClosure_eq hkind' harity]
        refine (matches_enterCall node _).bind fun _ => ?_
        refine Matches.bind (matches_local (P := fun _ => True)
          (local_closureFrame f params args receiver node body)) fun _ => ?_
        exact matches_local (P := fun _ => True) (local_schedule fun _ _ => trivial)
      · rw [applyClosure_arity hkind harity, applyClosure_arity hkind' harity]
        exact hfail _
    | _ =>
      unfold applyClosure
      rw [hkind, hkind']
      exact hfail _

theorem matches_invoke (snapshot : Nat) (args : List Value) (node : NodeId) :
    Matches n n (invoke p snapshot args node) (invoke (p.within limits clock) snapshot args node) := by
  unfold invoke
  split
  · exact matches_failAt node _
  · refine matches_get fun s s' h => ?_
    have hkept := h.snapshot snapshot
    cases hs : s.snapshots[snapshot]? with
    | none =>
      rw [hs] at hkept
      rw [Option.map_eq_none_iff.mp hkept]
      exact matches_failAt node _
    | some kept =>
      rw [hs] at hkept
      obtain ⟨kept', hs', heq⟩ := Option.map_eq_some_iff.mp hkept
      rw [hs']
      -- The registers come from snapshots that are the same apart from limits.
      intro s s' h hn
      have taken : ∀ (k : Snapshot) (s : State),
          State.unlimited { s with
            agenda := k.agenda
            stash := args.head?.getD .undefined :: k.stash
            env := k.env
            calls := k.calls } =
          { s.unlimited with
            agenda := k.unlimited.agenda
            stash := args.head?.getD .undefined :: k.unlimited.stash
            env := k.unlimited.env
            calls := k.unlimited.calls } := fun _ _ => rfl
      refine ⟨rfl, ?_, hn⟩
      unfold State.Alike at h ⊢
      rw [taken, taken, heq, h]

/-- The snapshot is another one, but the same apart from limits; so is the continuation. -/
theorem matches_capture : Matches n n capture capture := by
  intro s s' h hn
  refine ⟨congrArg Value.continuation h.size, ?_, hn⟩
  refine h.map (f := fun s =>
    { s with snapshots := s.snapshots.push ⟨s.agenda, s.stash, s.env, s.calls⟩ }) fun s => ?_
  simp only [State.unlimited, Array.map_push]
  rfl

theorem matches_applyPlain (callee : Value) (args : List Value) (receiver : Option Value) (node : NodeId)
    (name : String) :
    Matches n n (applyPlain p callee args receiver node name)
      (applyPlain (p.within limits clock) callee args receiver node name) := by
  cases callee with
  | closure identity f => exact matches_applyClosure f args receiver node name
  | host identity f => exact matches_local (P := fun _ => True) (local_applyHost f args receiver node)
  | continuation snapshot => exact matches_invoke snapshot args node
  | _ => exact matches_failAt node _

theorem matches_applyCallCc (args : List Value) (node : NodeId) :
    Matches n n (applyCallCc p args node) (applyCallCc (p.within limits clock) args node) := by
  unfold applyCallCc
  split
  next function =>
    refine matches_capture.bind fun continuation => ?_
    split
    · exact matches_capture.bind fun _ => matches_applyPlain _ _ _ _ _
    · exact matches_applyPlain _ _ _ _ _
  · exact matches_failAt node _

theorem matches_applyValue (callee : Value) (args : List Value) (receiver : Option Value) (node : NodeId) :
    Matches n n (applyValue p callee args receiver node)
      (applyValue (p.within limits clock) callee args receiver node) := by
  refine matches_checkDeadline.bind fun _ => ?_
  split
  · exact matches_applyCallCc args node
  · exact matches_applyPlain _ _ _ _ _

theorem matches_apply (arity : Nat) (hasReceiver : Bool) (node : NodeId) :
    Matches n n (apply p arity hasReceiver node) (apply (p.within limits clock) arity hasReceiver node) := by
  rw [apply_eq, apply_eq]
  refine Matches.bind (matches_local (P := fun _ => True) (local_onStash _)) fun args => ?_
  refine Matches.bind (matches_local (P := fun _ => True) local_pop) fun callee => ?_
  cases hasReceiver with
  | false => exact matches_applyValue callee args none node
  | true =>
    exact Matches.bind (matches_local (P := fun _ => True) (local_pop.map some)) fun receiver =>
      matches_applyValue callee args receiver node

/-! ## 4. Items -/

theorem matches_leaveLoop (target : Marker) (keyword : String) (again : Instr) (node : NodeId) :
    Matches n n (leaveLoop p target keyword again node)
      (leaveLoop (p.within limits clock) target keyword again node) := by
  refine matches_get fun s s' h => ?_
  rw [h.agenda]
  split
  · exact Matches.bind (matches_modify (fun _ => rfl) fun _ => rfl) fun _ =>
      matches_local (P := fun _ => True) (local_push _)
  · exact matches_modify (fun _ => rfl) fun _ => rfl
  · exact matches_failAt node _

theorem matches_execInstr (i : Instr) :
    Matches n n (execInstr p i) (execInstr (p.within limits clock) i) := by
  cases hi : isLocalInstr i with
  | true =>
    have hsame : execInstr (p.within limits clock) i = execInstr p i := by
      cases i with
      | marker m => cases m <;> rfl
      | apply arity hasReceiver node => cases hi
      | _ => rfl
    rw [hsame]
    exact matches_local (local_execInstr hi)
  | false =>
    cases i with
    | reset => exact matches_modify (fun _ => rfl) fun _ => rfl
    | restore env closesCall =>
      refine Matches.bind (m := n) (matches_modify (fun _ => rfl) fun _ => rfl) fun _ => ?_
      split
      · exact matches_modify (fun _ => rfl) fun _ => rfl
      · exact matches_local (P := fun _ => True) (local_pure _)
    | apply arity hasReceiver node => exact matches_apply arity hasReceiver node
    | breakLoop node => exact matches_leaveLoop _ _ _ _
    | continueLoop node => exact matches_leaveLoop _ _ _ _
    | _ => cases hi

theorem turned_unlimited (kind : NodeKind) (s : State) :
    (s.turned p kind).unlimited = s.unlimited.turned p kind := by
  have opened : ∀ s : State, s.opened.unlimited = s.unlimited.opened := by
    intro s
    unfold State.opened
    rw [apply_ite State.unlimited]
    rfl
  cases kind with
  | program body =>
    simp only [State.turned, apply_ite State.unlimited, opened]
    rfl
  | returnStatement argument =>
    simp only [State.turned, apply_ite State.unlimited]
    rfl
  | _ =>
    simp only [State.turned, apply_ite State.unlimited, opened]

theorem matches_evalNode (id : NodeId) :
    Matches n n (evalNode p id) (evalNode (p.within limits clock) id) := by
  have hwithin : evalNode (p.within limits clock) id = evalNode p id := rfl
  rw [hwithin]
  unfold evalNode kindOf
  cases hkind : p.tree.kind? id with
  | none => exact matches_failAt id _
  | some kind =>
    intro s s' h hn
    show Together n (evalKind p id kind s) (evalKind p id kind s')
    rw [evalKind_eq, evalKind_eq]
    have hturned : (s.turned p kind).Alike (s'.turned p kind) := h.map (turned_unlimited kind)
    exact matches_local (local_kindWork id kind) _ _ hturned (by rw [← hn, turned_eq])

theorem matches_execute (limits : Config) (clock : Nat → Nat) (item : Item) :
    Matches n (n + 1) (execute p item) (execute (p.within limits clock) item) := by
  refine matches_tick.bind fun _ => ?_
  cases item with
  | node id =>
    exact Matches.bind (matches_modify (fun _ => rfl) fun _ => rfl) fun _ => matches_evalNode id
  | instr i => exact matches_execInstr i

end Machine

/-! ## 5. Errors -/

/-- Two records of the same calls, each as long as its limit allows. -/
def Backtrace.Alike : Option Backtrace → Option Backtrace → Prop
  | none, none => True
  | some b, some b' => b.frames <+: b'.frames ∨ b'.frames <+: b.frames
  | _, _ => False

theorem Backtrace.alike_refl (b : Option Backtrace) : Backtrace.Alike b b := by
  cases b with
  | none => trivial
  | some b => exact .inl (List.prefix_refl _)

structure EvalError.Alike (e e' : EvalError) : Prop where
  fault : e'.fault = e.fault
  span : e'.span = e.span
  node : e'.node = e.node
  notes : e'.notes = e.notes
  backtrace : Backtrace.Alike e.backtrace e'.backtrace

theorem attachBacktrace_alike {c c' : CallStack} (h : c'.frames = c.frames) (e : EvalError) :
    (c.attachBacktrace e).Alike (c'.attachBacktrace e) := by
  have hempty : c'.isEmpty = c.isEmpty := by rw [CallStack.isEmpty, CallStack.isEmpty, h]
  unfold CallStack.attachBacktrace
  rw [hempty]
  split
  · exact ⟨rfl, rfl, rfl, rfl, Backtrace.alike_refl _⟩
  · refine ⟨rfl, rfl, rfl, rfl, ?_⟩
    show (List.take c.traceFrames _ <+: List.take c'.traceFrames c'.frames.toList.reverse) ∨
      List.take c'.traceFrames c'.frames.toList.reverse <+: List.take c.traceFrames _
    rw [h]
    obtain hle | hle := Nat.le_total c.traceFrames c'.traceFrames
    · exact .inl (List.take_prefix_take_left hle)
    · exact .inr (List.take_prefix_take_left hle)

namespace Machine

theorem locateError_alike {p : Setting} {limits : Config} {clock : Nat → Nat} {s s' : State} (h : s.Alike s')
    (e : EvalError) : (locateError p s e).Alike (locateError (p.within limits clock) s' e) := by
  unfold locateError
  rw [h.current]
  exact attachBacktrace_alike h.frames _

/-! ## 6. Machines -/

variable {σ : Type} {m m' : Machine σ}

def Alike (m m' : Machine σ) : Prop :=
  ∃ limits clock s', m.state.Alike s' ∧
    m' = { m with setting := m.setting.within limits clock, state := s' }

end Machine

def Outcome.Alike {σ : Type} : Outcome σ → Outcome σ → Prop
  | .running m, .running m' => m.Alike m'
  | .finished v m, .finished v' m' => v' = v ∧ m.Alike m'
  | .paused id m, .paused id' m' => id' = id ∧ m.Alike m'
  | .failed e m, .failed e' m' => e.Alike e' ∧ m.Alike m'
  | _, _ => False

def Outcome.isLimited {σ : Type} : Outcome σ → Bool
  | .failed e _ => e.fault.isResource
  | _ => false

/-- The machines do alike, unless one of them has come to a limit. -/
def Outcome.AlikeWithin {σ : Type} (o o' : Outcome σ) : Prop :=
  o.isLimited = true ∨ o'.isLimited = true ∨ o.Alike o'

namespace Machine

variable {σ : Type} {m m' : Machine σ}

theorem carryOut_alike (h : m.Alike m') (item : Item) :
    (carryOut item m).AlikeWithin (carryOut item m') := by
  obtain ⟨p, s, rule, memory, resuming⟩ := m
  obtain ⟨limits, clock, s', hs, rfl⟩ := h
  have hexec := matches_execute (p := p) limits clock item s s' hs rfl
  have after : ∀ {t t'}, t.Alike t' →
      Machine.Alike ⟨p, t, rule, memory, false⟩ ⟨p.within limits clock, t', rule, memory, false⟩ :=
    fun h => ⟨limits, clock, _, h, rfl⟩
  simp only [carryOut]
  cases hx : execute p item s with
  | ok a t =>
    rw [hx] at hexec
    cases hy : execute (p.within limits clock) item s' with
    | ok a' t' =>
      rw [hy] at hexec
      rw [show (p.within limits clock).tree = p.tree from rfl]
      dsimp only
      cases debuggerOf? p.tree item with
      | none => exact .inr (.inr (after hexec.2.1))
      | some id => exact .inr (.inr ⟨rfl, after hexec.2.1⟩)
    | error e t' =>
      rw [hy] at hexec
      exact .inr (.inl (by rw [Outcome.isLimited, locateError_fault]; exact hexec))
  | error e t =>
    rw [hx] at hexec
    cases hy : execute (p.within limits clock) item s' with
    | ok a t' =>
      rw [hy] at hexec
      exact .inl (by rw [Outcome.isLimited, locateError_fault]; exact hexec)
    | error e' t' =>
      rw [hy] at hexec
      obtain he | he' | ⟨rfl, ht⟩ := hexec
      · exact .inl (by rw [Outcome.isLimited, locateError_fault]; exact he)
      · exact .inr (.inl (by rw [Outcome.isLimited, locateError_fault]; exact he'))
      · exact .inr (.inr ⟨locateError_alike ht _, after ht⟩)

theorem dropItem_alike (h : m.Alike m') : m.dropItem.Alike m'.dropItem := by
  obtain ⟨limits, clock, s', hs, rfl⟩ := h
  exact ⟨limits, clock, _, hs.map (f := fun s => { s with agenda := s.agenda.tail }) fun _ => rfl, rfl⟩

theorem askRule_alike (h : m.Alike m') (item : Item) :
    (m'.askRule item).1 = (m.askRule item).1 ∧ (m.askRule item).2.Alike (m'.askRule item).2 := by
  cases item with
  | instr i => exact ⟨rfl, h⟩
  | node id =>
    obtain ⟨p, s, rule, memory, resuming⟩ := m
    obtain ⟨limits, clock, s', hs, rfl⟩ := h
    cases resuming <;> exact ⟨rfl, limits, clock, s', hs, rfl⟩

theorem step_alike (h : m.Alike m') : m.step.AlikeWithin m'.step := by
  obtain ⟨_, _, s', hs, hm'⟩ := id h
  have hagenda : m'.state.agenda = m.state.agenda := by rw [hm']; exact hs.agenda
  have hresult : m'.state.result = m.state.result := by
    have := congrArg State.result hs
    rw [hm']
    exact this
  unfold step
  rw [hagenda]
  cases m.state.agenda with
  | nil => exact .inr (.inr ⟨hresult, h⟩)
  | cons item rest =>
    dsimp only
    obtain ⟨hpauses, hasked⟩ := askRule_alike h item
    rcases hask : m.askRule item with ⟨pauses, m₁⟩
    rcases hask' : m'.askRule item with ⟨pauses', m₁'⟩
    rw [hask, hask'] at hpauses hasked
    cases hpauses
    dsimp only at hasked
    cases pauses with
    | true =>
      cases item with
      | instr i => exact .inr (.inr hasked)
      | node id =>
        obtain ⟨limits, clock, t', ht, hm₁'⟩ := hasked
        exact .inr (.inr ⟨rfl, limits, clock, t', ht, by rw [hm₁']⟩)
    | false => exact carryOut_alike (dropItem_alike hasked) item

/-! ## 7. Runs -/

/-- Machines go on alike if they do so from outcomes that are alike, since a failure is the end. -/
theorem alikeWithin_next {o o' r r' : Outcome σ} (h : o.AlikeWithin o')
    (hfailed : ∀ e t, o = .failed e t → r = .failed e t)
    (hfailed' : ∀ e t, o' = .failed e t → r' = .failed e t)
    (hnext : o.Alike o' → r.AlikeWithin r') : r.AlikeWithin r' := by
  obtain h | h | h := h
  · cases o with
    | failed e t => rw [hfailed e t rfl]; exact .inl h
    | _ => cases h
  · cases o' with
    | failed e t => rw [hfailed' e t rfl]; exact .inr (.inl h)
    | _ => cases h
  · exact hnext h

theorem run_alike (h : m.Alike m') (n : Nat) : (m.run n).AlikeWithin (m'.run n) := by
  induction n generalizing m m' with
  | zero => exact .inr (.inr h)
  | succ n ih =>
    have failed : ∀ {m : Machine σ} e t, m.step = .failed e t → m.run (n + 1) = .failed e t := by
      intro m e t hstep
      rw [run, hstep]
    refine alikeWithin_next (step_alike h) failed failed fun h => ?_
    rw [run, run]
    cases hm : m.step <;> cases hm' : m'.step <;> rw [hm, hm'] at h <;>
      first | exact ih h | exact h.elim | exact .inr (.inr h)

theorem runThrough_alike (h : m.Alike m') (n : Nat) : (m.runThrough n).AlikeWithin (m'.runThrough n) := by
  induction n generalizing m m' with
  | zero => exact .inr (.inr h)
  | succ n ih =>
    have failed : ∀ {m : Machine σ} e t, m.step = .failed e t → m.runThrough (n + 1) = .failed e t := by
      intro m e t hstep
      rw [runThrough, hstep]
    refine alikeWithin_next (step_alike h) failed failed fun h => ?_
    rw [runThrough, runThrough]
    cases hm : m.step <;> cases hm' : m'.step <;> rw [hm, hm'] at h <;>
      first | exact ih h | exact ih h.2 | exact h.elim | exact .inr (.inr h)

end Machine

end ExplicitControl
