import ExplicitControl.Proofs.Additions
import ExplicitControl.Proofs.Faithful
import ExplicitControl.Proofs.Limits
import ExplicitControl.Proofs.Located
import ExplicitControl.Proofs.TailCalls
import Mathlib.Data.List.DropRight

/-!
# What an overflow of calls tells

A call of a function of the program is recorded when the clock has been looked at and the arguments have been counted.
There may be no room for it then, unless the item behind it ends a call and so gives a place away.  This is the
only way in which a run overflows; its error tells the most recent calls and the one that did not fit, each with
the name, the arguments and the span that it was made with.
-/

namespace ExplicitControl

namespace Machine

variable {p : Setting} {s s' t : State} {item : Item} {rest : Agenda} {node : NodeId} {frame : CallFrame}
  {e : EvalError}

/-! ## 1. What fails for want of room -/

/-- Wherever the operation starts from, it does not fail for want of room. -/
def Roomy {α : Type} (x : MachineM α) : Prop :=
  ∀ s, Ensures x s (fun _ _ => True) fun e _ => e.fault.isOverflow = false

theorem isOverflow_of_ordinary (e : EvalError)
    (h : e.fault.isOrdinary = true ∨ ∃ message, e.fault = .malformedTree message) : e.fault.isOverflow = false := by
  obtain h | ⟨message, h⟩ := h
  · exact Fault.isOverflow_of_isOrdinary h
  · rw [h]
    rfl

def Contract.roomy (p : Setting) : Contract p :=
  .ofErrors p (fun e => e.fault.isOverflow = false) isOverflow_of_ordinary

section

variable {α : Type} {x : MachineM α}

theorem Contract.Keeps.roomy {Q : α → Prop} (h : ∀ n, (Contract.roomy p).Keeps n x Q) : Roomy x :=
  fun s => (h _ s (Contract.holds_ofErrors s) rfl).mono (fun _ _ _ => trivial) fun _ _ h => h.2

theorem roomy_failAt {fault : Fault} (h : fault.isOverflow = false) : Roomy (failAt p node fault : MachineM α) :=
  fun _ => h

/-- An operation finds room unless something holds anyway. -/
theorem ensures_of_holds {Q : Prop} (h : Q) (x : MachineM α) (s : State) :
    Ensures x s (fun _ _ => True) fun e _ => e.fault.isOverflow = true → Q := by
  unfold Ensures
  split
  · trivial
  · exact fun _ => h

theorem Roomy.ensures (h : Roomy x) (Q : Prop) (s : State) :
    Ensures x s (fun _ _ => True) fun e _ => e.fault.isOverflow = true → Q :=
  (h s).mono (fun _ _ h => h) fun e _ he htrue => by rw [he] at htrue; cases htrue

end

/-- A call with the wrong number of arguments is not entered. -/
theorem roomy_applyClosure {f : Closure} {args : List Value} {receiver : Option Value} {name : String}
    (h : ¬∃ fname params code, p.tree.kind? f.node = some (.function fname params code) ∧ params.length = args.length) :
    Roomy (applyClosure p f args receiver node name) := by
  obtain hfits | ⟨fault, hfault, hfails⟩ := applyClosure_cases p f args receiver node name
  · exact absurd hfits h
  · rw [hfails]
    obtain ⟨expected, given, rfl⟩ | ⟨message, rfl, -⟩ := hfault
    · exact roomy_failAt rfl
    · exact roomy_failAt rfl

theorem roomy_applyPlain (hp : p.PreludeOnly) {callee : Value} (hcallee : ∀ identity f, callee ≠ .closure identity f)
    (args : List Value) (receiver : Option Value) (name : String) :
    Roomy (applyPlain p callee args receiver node name) :=
  Contract.Keeps.roomy fun _ => Contract.keeps_applyPlain (Contract.hosted_of_preludeOnly _ hp)
    (fun identity f h => absurd h (hcallee identity f)) trivial trivial (fun _ _ => trivial) (fun _ _ => trivial) name

/-! ## 2. Calls that come to be recorded -/

/-- The next item calls a function of the program, at the node, with as many arguments as it has parameters; the
frame tells what is called, as it is written there, the arguments and the span of the node.  A function that a
continuation is captured for is called with the continuation. -/
inductive Applies (p : Setting) (s : State) : NodeId → CallFrame → Prop where
  | call {identity : Nat} {f : Closure} {name : Option Name} {params : List Name} {code : FunctionBody}
    {args : List Value}
      {receiver : Option Value} {stash : Stash} {node : NodeId} {rest : Agenda}
      (hagenda : s.agenda = .instr (.apply args.length receiver.isSome node) :: rest)
      (hoperands : s.stash = args.reverse ++ .closure identity f :: (receiver.toList ++ stash))
      (hkind : p.tree.kind? f.node = some (.function name params code)) (harity : params.length = args.length) :
      Applies p s node ⟨calleeName p node (.closure identity f), args, p.tree.span node⟩
  | callCc {identity : Nat} {f : Closure} {name : Option Name} {params : List Name} {code : FunctionBody}
      {receiver : Option Value} {stash : Stash} {node : NodeId} {rest : Agenda}
      (hagenda : s.agenda = .instr (.apply 1 receiver.isSome node) :: rest)
      (hoperands : s.stash = .closure identity f :: .callCc :: (receiver.toList ++ stash))
      (hkind : p.tree.kind? f.node = some (.function name params code)) (harity : params.length = 1) :
      Applies p s node ⟨valueName p (.closure identity f), [.continuation s.snapshots.size], p.tree.span node⟩

theorem Applies.span_eq (h : Applies p s node frame) : frame.span = p.tree.span node := by
  cases h <;> rfl

def afterEntry (p : Setting) (f : Closure) (params : List Name) (args : List Value) (receiver : Option Value)
    (node : NodeId) (code : FunctionBody) : MachineM Unit := do
  closureFrame p f params args receiver node code
  schedule (bodyItems code)

section

variable (f : Closure) (params : List Name) (args : List Value) (receiver : Option Value) (code : FunctionBody)

theorem roomy_afterEntry : Roomy (afterEntry p f params args receiver node code) :=
  Contract.Keeps.roomy fun _ => (Contract.keeps_closureFrame trivial f params (fun _ _ => trivial) (fun _ _ => trivial)
    code).bind fun _ _ => Contract.keeps_schedule fun _ _ => trivial

theorem local_afterEntry : Local (fun _ => True) (afterEntry p f params args receiver node code) :=
  (local_closureFrame f params args receiver node code).bind fun _ => local_schedule fun _ _ => trivial

end

/-- What comes after may be replaced by what ends the same. -/
theorem bind_congr_rest {α β : Type} {x : MachineM β} {f g : β → MachineM α}
    (h : ∀ b t, x s = .ok b t → f b t = g b t) : (x >>= f) s = (x >>= g) s := by
  cases hx : x s with
  | ok b t => rw [bind_of_ok hx, bind_of_ok hx, h b t hx]
  | error e t => rw [bind_of_error hx, bind_of_error hx]

/-- The step takes the operands, looks at the clock and enters the call; what is left of it then neither lacks room nor
changes the calls. -/
theorem Applies.execute_eq (h : Applies p s node frame) (hs : s.agenda = item :: rest) :
    ∃ (stash : Stash) (prepare : State → State) (after : MachineM Unit),
      (∀ t, (prepare t).agenda = t.agenda ∧ (prepare t).calls = t.calls) ∧ Roomy after ∧ Local (fun _ => True) after ∧
      execute p item { s with agenda := rest } = (tick p >>= fun _ => modify (fun t => { t with stash }) >>= fun _ =>
        checkDeadline p >>= fun _ => modify prepare >>= fun _ => enterCall p node frame >>= fun _ => after)
          { s with agenda := rest } := by
  cases h with
  | @call identity f name params code args receiver stash node rest hagenda hoperands hkind harity =>
    obtain ⟨rfl, rfl⟩ := List.cons.inj (hs.symm.trans hagenda)
    refine ⟨stash, id, afterEntry p f params args receiver node code, fun _ => ⟨rfl, rfl⟩,
      roomy_afterEntry f params args receiver code, local_afterEntry f params args receiver code,
      bind_congr_rest fun _ t ht => ?_⟩
    obtain ⟨readings, hcounted⟩ := eq_of_tick ht
    have hstash : t.stash = args.reverse ++ .closure identity f :: (receiver.toList ++ stash) :=
      (congrArg State.stash hcounted).trans hoperands
    show apply p args.length receiver.isSome node t = _
    rw [apply_taken node hstash]
    show (checkDeadline p >>= fun _ => applyClosure p f args receiver node _) { t with stash } = _
    rw [applyClosure_eq hkind harity]
    rfl
  | @callCc identity f name params code receiver stash node rest hagenda hoperands hkind harity =>
    obtain ⟨rfl, rfl⟩ := List.cons.inj (hs.symm.trans hagenda)
    refine ⟨stash, State.captured, afterEntry p f params [.continuation s.snapshots.size] none node code,
      fun _ => ⟨rfl, rfl⟩, roomy_afterEntry f params _ none code, local_afterEntry f params _ none code,
      bind_congr_rest fun _ t ht => ?_⟩
    obtain ⟨readings, hcounted⟩ := eq_of_tick ht
    have hstash : t.stash = [Value.closure identity f].reverse ++ .callCc :: (receiver.toList ++ stash) :=
      (congrArg State.stash hcounted).trans hoperands
    show apply p [Value.closure identity f].length receiver.isSome node t = _
    rw [apply_taken node hstash]
    refine bind_congr_rest fun _ u hu => ?_
    obtain ⟨readings', hlooked⟩ := eq_of_checkDeadline hu
    have hsize : u.snapshots.size = s.snapshots.size := by rw [hlooked, hcounted]
    have harity : params.length = [Value.continuation s.snapshots.size].length := harity
    show applyClosure p f [.continuation u.snapshots.size] none node _ u.captured = _
    rw [hsize, applyClosure_eq hkind harity]
    rfl

/-! ## 3. Looks at the clock -/

/-- Another step may be taken, and the time is not spent when the clock is looked at for the step, if it is, and for the
call. -/
structure InTime (p : Setting) (s : State) : Prop where
  steps : ∀ limit ∈ p.config.stepLimit, s.steps < limit
  looks : ∀ look < if (s.steps + 1) % max p.config.checkInterval 1 = 0 then 2 else 1, ¬Late p (s.readings + look)

/-- The clock is looked at for the step and for the call. -/
theorem inTime_of_due (hdue : (s.steps + 1) % max p.config.checkInterval 1 = 0) : InTime p s ↔
    (∀ limit ∈ p.config.stepLimit, s.steps < limit) ∧ ¬Late p s.readings ∧ ¬Late p (s.readings + 1) := by
  constructor
  · rintro ⟨hsteps, hlooks⟩
    rw [if_pos hdue] at hlooks
    exact ⟨hsteps, hlooks 0 (by decide), hlooks 1 (by decide)⟩
  · rintro ⟨hsteps, hstep, hcall⟩
    refine ⟨hsteps, fun look hlook => ?_⟩
    rw [if_pos hdue] at hlook
    obtain rfl | rfl : look = 0 ∨ look = 1 := by omega
    · exact hstep
    · exact hcall

/-- The clock is looked at for the call only. -/
theorem inTime_of_not_due (hdue : (s.steps + 1) % max p.config.checkInterval 1 ≠ 0) : InTime p s ↔
    (∀ limit ∈ p.config.stepLimit, s.steps < limit) ∧ ¬Late p s.readings := by
  constructor
  · rintro ⟨hsteps, hlooks⟩
    rw [if_neg hdue] at hlooks
    exact ⟨hsteps, hlooks 0 (by decide)⟩
  · rintro ⟨hsteps, hcall⟩
    refine ⟨hsteps, fun look hlook => ?_⟩
    rw [if_neg hdue] at hlook
    obtain rfl : look = 0 := by omega
    exact hcall

theorem forall_stepLimit_iff (p : Setting) (n : Nat) : (∀ limit ∈ p.config.stepLimit, n < limit) ↔
    ¬(p.config.stepLimit.any fun limit => limit < n + 1) = true := by
  simp only [Option.any_eq_true, decide_eq_true_eq, not_exists, not_and]
  exact forall₂_congr fun limit _ => by omega

/-- A call is in time when the step is counted and the clock, as it is read then, leaves time for the call. -/
theorem inTime_iff (p : Setting) (s : State) : InTime p s ↔
    ∃ readings, tick p s = .ok () { s with steps := s.steps + 1, readings } ∧ ¬Late p readings := by
  rw [tick_eq]
  by_cases hlimit : (p.config.stepLimit.any fun limit => limit < s.steps + 1) = true
  · rw [if_pos hlimit]
    exact iff_of_false (fun h => (forall_stepLimit_iff p s.steps).mp h.steps hlimit) fun ⟨_, hok, _⟩ => nomatch hok
  · have hsteps := (forall_stepLimit_iff p s.steps).mpr hlimit
    rw [if_neg hlimit]
    by_cases hdue : (s.steps + 1) % max p.config.checkInterval 1 = 0
    · rw [if_pos hdue, inTime_of_due hdue, and_iff_right hsteps]
      obtain ⟨readings, hnext, ⟨hnot, hok⟩ | ⟨hlate, herror⟩⟩ := checkDeadline_split p { s with steps := s.steps + 1 }
      · rw [hok, and_iff_right hnot, ← hnext]
        exact ⟨fun h => ⟨readings, rfl, h⟩, fun ⟨_, heq, h⟩ => by cases heq; exact h⟩
      · rw [herror]
        exact iff_of_false (fun h => h.1 hlate) fun ⟨_, heq, _⟩ => nomatch heq
    · rw [if_neg hdue, inTime_of_not_due hdue, and_iff_right hsteps]
      exact ⟨fun h => ⟨s.readings, rfl, h⟩, fun ⟨_, heq, h⟩ => by cases heq; exact h⟩

/-! ## 4. What becomes of such a call -/

/-- A call that is entered comes to the limit, or it is recorded and what is left of it does not overflow. -/
theorem entry_outcome {after : MachineM Unit} (hroomy : Roomy after) (hlocal : Local (fun _ => True) after)
    (node : NodeId) (frame : CallFrame) (u : State) :
    (u.agenda.endsCall = false ∧ u.calls.maxDepth ≤ u.calls.depth ∧ (enterCall p node frame >>= fun _ => after) u =
        .error ((u.calls.overflow frame).locate node (p.tree.span node)) u) ∨
      ((u.agenda.endsCall = true ∨ u.calls.depth < u.calls.maxDepth) ∧
        Ensures (enterCall p node frame >>= fun _ => after) u
          (fun _ s' => s'.calls = (if u.agenda.endsCall then u.calls.pop else u.calls).add frame)
          fun e _ => e.fault.isOverflow = false) := by
  obtain ⟨hroom, hentered⟩ | ⟨hends, hfull, hentered⟩ := enterCall_split p node frame u
  · refine .inr ⟨hroom, ?_⟩
    have hkept := (hlocal.ensures (u.entered frame)).mono (fun _ _ h => h.1) fun _ _ h => h
    have hcalm := hroomy (u.entered frame)
    unfold Ensures at hkept hcalm ⊢
    rw [bind_of_ok hentered]
    cases hafter : after (u.entered frame) with
    | ok a t =>
      rw [hafter] at hkept
      exact hkept
    | error e t =>
      rw [hafter] at hcalm
      exact hcalm
  · exact .inl ⟨hends, hfull, bind_of_error hentered⟩

/-- The call comes too late, or there is no room for it, or it is entered. -/
theorem Applies.outcome (h : Applies p s node frame) (hs : s.agenda = item :: rest) :
    (¬InTime p s ∧ ∃ n t, execute p item { s with agenda := rest } = .error (.ofFault (.timeout n)) t) ∨
      (InTime p s ∧ rest.endsCall = false ∧ s.calls.maxDepth ≤ s.calls.depth ∧
        ∃ t, t.calls = s.calls ∧ execute p item { s with agenda := rest } =
          .error ((s.calls.overflow frame).locate node (p.tree.span node)) t) ∨
      (InTime p s ∧ (rest.endsCall = true ∨ s.calls.depth < s.calls.maxDepth) ∧
        Ensures (execute p item) { s with agenda := rest }
          (fun _ s' => s'.calls = (if rest.endsCall then s.calls.pop else s.calls).add frame)
          fun e _ => e.fault.isOverflow = false) := by
  obtain ⟨stash, prepare, after, hprepare, hroomy, hlocal, heq⟩ := h.execute_eq hs
  have htime : InTime p s ↔ InTime p { s with agenda := rest } :=
    ⟨fun h => ⟨h.steps, h.looks⟩, fun h => ⟨h.steps, h.looks⟩⟩
  rw [htime, inTime_iff]
  obtain ⟨readings, htick | htick⟩ := tick_counts p { s with agenda := rest }
  · rw [bind_of_ok htick, modify_bind] at heq
    obtain ⟨readings', -, ⟨hnot, hok⟩ | ⟨hlate, herror⟩⟩ :=
      checkDeadline_split p { s with agenda := rest, steps := s.steps + 1, readings, stash }
    · have hintime : ∃ readings, tick p { s with agenda := rest } =
          .ok () { s with agenda := rest, steps := s.steps + 1, readings } ∧ ¬Late p readings := ⟨readings, htick, hnot⟩
      rw [bind_of_ok hok, modify_bind] at heq
      obtain ⟨hagenda, hcalls⟩ := hprepare { s with agenda := rest, steps := s.steps + 1, readings := readings', stash }
      generalize prepare { s with agenda := rest, steps := s.steps + 1, readings := readings', stash } = u
        at heq hagenda hcalls
      have hentry := entry_outcome (p := p) hroomy hlocal node frame u
      rw [Ensures, ← heq, hagenda, hcalls] at hentry
      obtain ⟨hends, hfull, herror⟩ | ⟨hroom, hentered⟩ := hentry
      · exact .inr (.inl ⟨hintime, hends, hfull, u, hcalls, herror⟩)
      · exact .inr (.inr ⟨hintime, hroom, hentered⟩)
    · refine .inl ⟨?_, _, _, heq.trans (bind_of_error herror)⟩
      rintro ⟨readings'', hagain, hnot⟩
      cases htick.symm.trans hagain
      exact hnot hlate
  · refine .inl ⟨?_, _, _, heq.trans (bind_of_error htick)⟩
    rintro ⟨readings', hagain, -⟩
    cases htick.symm.trans hagain

theorem Applies.calls_of_advance (h : Applies p s node frame) (hs : s.agenda = item :: rest)
    (hrun : advance p s = .running s') :
    s'.calls = (if rest.endsCall then s.calls.pop else s.calls).add frame := by
  obtain ⟨-, n, t, hx⟩ | ⟨-, -, -, t, -, hx⟩ | ⟨-, -, hentered⟩ := h.outcome hs
  · cases (advanceBy_error hs hx).symm.trans hrun
  · cases (advanceBy_error hs hx).symm.trans hrun
  · exact hentered.of_advance hs hrun

/-! ## 5. Overflows -/

/-- Calling a value overflows only if it is a function of the program, called with the right number of arguments. -/
theorem applies_apply (hp : p.PreludeOnly) {arity : Nat} {hasReceiver : Bool}
    (hs : s.agenda = .instr (.apply arity hasReceiver node) :: rest) (steps readings : Nat) :
    Ensures (apply p arity hasReceiver node) { s with agenda := rest, steps, readings } (fun _ _ => True)
      fun e _ => e.fault.isOverflow = true → ∃ frame, Applies p s node frame := by
  refine ensures_operands (fun _ => nofun) fun args callee receiver stash harity hreceiver hstash => ?_
  subst harity hreceiver
  unfold applyValue
  rw [ensures_bind]
  refine ensures_checkDeadline (fun readings' => ?_) fun _ => nofun
  cases callee with
  | closure identity f =>
    by_cases hfits : ∃ fname params code, p.tree.kind? f.node = some (.function fname params code) ∧
        params.length = args.length
    · obtain ⟨fname, params, code, hkind, harity⟩ := hfits
      exact ensures_of_holds ⟨_, .call hs hstash hkind harity⟩ _ _
    · exact (roomy_applyClosure hfits).ensures _ _
  | callCc =>
    dsimp only
    unfold applyCallCc
    rcases args with _ | ⟨function, _ | ⟨second, others⟩⟩
    · exact (roomy_failAt rfl).ensures _ _
    · dsimp only
      rw [ensures_bind]
      refine (ensures_modifyGet _).mpr ?_
      cases function with
      | closure identity f =>
        by_cases hfits : ∃ fname params code, p.tree.kind? f.node = some (.function fname params code) ∧
          params.length = 1
        · obtain ⟨fname, params, code, hkind, harity⟩ := hfits
          exact ensures_of_holds ⟨_, .callCc hs hstash hkind harity⟩ _ _
        · exact (roomy_applyClosure hfits).ensures _ _
      | callCc =>
        -- A second continuation is captured, and the first one is called with it.
        rw [ensures_bind]
        refine (ensures_modifyGet _).mpr ?_
        exact (roomy_applyPlain hp (fun _ _ h => by cases h) _ _ _).ensures _ _
      | _ => exact (roomy_applyPlain hp (fun _ _ h => by cases h) _ _ _).ensures _ _
    · exact (roomy_failAt rfl).ensures _ _
  | _ => exact (roomy_applyPlain hp (fun _ _ h => by cases h) _ _ _).ensures _ _

theorem applies_execute (hp : p.PreludeOnly) (hs : s.agenda = item :: rest) :
    Ensures (execute p item) { s with agenda := rest } (fun _ _ => True)
      fun e _ => e.fault.isOverflow = true → ∃ node frame, Applies p s node frame := by
  by_cases hcalls : ∃ arity hasReceiver node, item = .instr (.apply arity hasReceiver node)
  · obtain ⟨arity, hasReceiver, node, rfl⟩ := hcalls
    unfold execute
    rw [ensures_bind]
    refine ensures_count (fun readings => ?_) fun _ => nofun
    exact (applies_apply hp hs _ readings).mono (fun _ _ h => h) fun _ _ h he => ⟨node, h he⟩
  · -- Only calling a value may overflow.
    have inUse : (Contract.roomy p).AllowsInUse := fun _ _ => rfl
    have hroomy : Roomy (execute p item) := Contract.ofErrors_execute hp
      (fun arity hasReceiver node h => absurd ⟨arity, hasReceiver, node, h⟩ hcalls) fun _ _ => inUse
    exact hroomy.ensures _ _

/-- The next item makes a call, in time, when as many calls are live as may be, and the item behind it ends none of
them. -/
structure Overflows (p : Setting) (s : State) (node : NodeId) (frame : CallFrame) : Prop where
  applies : Applies p s node frame
  inTime : InTime p s
  full : s.calls.depth = p.config.maxCallDepth
  nested : Agenda.endsCall s.agenda.tail = false

end Machine

/-- The error of the call that did not fit, and the registers that it leaves.  It tells the last of the live calls
followed by that call, oldest first, and at least that call; and it is placed at that call, which is not live. -/
structure EvalError.TellsOverflow (p : Setting) (s : State) (node : NodeId) (frame : CallFrame) (e : EvalError)
    (s' : State) : Prop where
  fault : e.fault = .stackOverflow p.config.maxCallDepth
    ((s.calls.frames.toList ++ [frame]).rtake (max 1 p.config.traceFrames))
  placed : e.node = some node
  spanned : e.span = some (p.tree.span node)
  unrecorded : s'.calls = s.calls

namespace CallStack

variable {c : CallStack} {frame : CallFrame}

/-- The calls that an overflow tells are the last of all, the one that does not fit included. -/
theorem overflow_fault (c : CallStack) (frame : CallFrame) : (c.overflow frame).fault =
    .stackOverflow c.maxDepth ((c.frames.toList ++ [frame]).rtake (max 1 c.traceFrames)) := by
  have hlength : c.frames.toList.length = c.depth := Array.length_toList
  have hdrop : (c.frames.toList ++ [frame]).rtake (max 1 c.traceFrames) =
      c.frames.toList.drop (c.depth - (c.traceFrames - 1)) ++ [frame] := by
    rw [List.rtake, List.length_append, hlength, List.length_singleton,
      show c.depth + 1 - max 1 c.traceFrames = c.depth - (c.traceFrames - 1) by omega]
    exact List.drop_append_of_le_length (by omega)
  rw [hdrop]
  rfl

end CallStack

namespace Machine

variable {p : Setting} {s s' : State} {item : Item} {rest : Agenda} {node : NodeId} {frame : CallFrame} {e : EvalError}

/-- An error with a span keeps its place. -/
theorem locateError_placed {span : Span} (hspan : e.span = some span) :
    (locateError p s e).span = some span ∧ (locateError p s e).node = e.node := by
  have hplace := attachBacktrace_place s.calls
  unfold locateError
  cases s.current with
  | none => exact ⟨(hplace e).2.trans hspan, (hplace e).1⟩
  | some id =>
    rw [hspan, Option.isNone_some]
    exact ⟨(hplace e).2.trans hspan, (hplace e).1⟩

structure Limited (p : Setting) (c : CallStack) : Prop where
  maxDepth : c.maxDepth = p.config.maxCallDepth
  traceFrames : c.traceFrames = p.config.traceFrames
  bounded : c.depth ≤ p.config.maxCallDepth

theorem tellsOverflow (h : Applies p s node frame) (hlimited : Limited p s.calls) (hcalls : s'.calls = s.calls) :
    EvalError.TellsOverflow p s node frame
      (locateError p s' ((s.calls.overflow frame).locate node (p.tree.span node))) s' := by
  have hspan : ((s.calls.overflow frame).locate node (p.tree.span node)).span = some (p.tree.span node) :=
    congrArg some h.span_eq
  obtain ⟨hplaced, hnode⟩ := locateError_placed (p := p) (s := s') hspan
  refine ⟨?_, hnode, hplaced, hcalls⟩
  rw [locateError_fault, ← hlimited.maxDepth, ← hlimited.traceFrames]
  exact s.calls.overflow_fault frame

/-- A call that overflows fails. -/
theorem Overflows.advance (h : Overflows p s node frame) (hlimited : Limited p s.calls) :
    ∃ e s', advance p s = .failed e s' ∧ e.TellsOverflow p s node frame s' := by
  cases hs : s.agenda with
  | nil =>
    have hnone := h.applies
    cases hnone with
    | call hagenda => cases hs.symm.trans hagenda
    | callCc hagenda => cases hs.symm.trans hagenda
  | cons item rest =>
    have hnested := h.nested
    rw [hs, List.tail_cons] at hnested
    obtain ⟨hlate, -⟩ | ⟨-, -, -, t, hcalls, hx⟩ | ⟨-, hroom, -⟩ := h.applies.outcome hs
    · exact absurd h.inTime hlate
    · exact ⟨_, _, advanceBy_error hs hx, tellsOverflow h.applies hlimited hcalls⟩
    · rw [hnested, hlimited.maxDepth, h.full] at hroom
      exact absurd hroom (by simp)

/-- A step that overflows makes a call that does. -/
theorem overflows_of_advance (hp : p.PreludeOnly) (hlimited : Limited p s.calls) (h : advance p s = .failed e s')
    (he : e.fault.isOverflow = true) :
    ∃ node frame, Overflows p s node frame ∧ e.TellsOverflow p s node frame s' := by
  obtain ⟨item, rest, e₀, hs, hx, rfl⟩ := exists_error_of_advance h
  rw [locateError_fault] at he
  obtain ⟨node, frame, happlies⟩ := (ensures_of_error hx).mp (applies_execute hp hs) he
  refine ⟨node, frame, ?_⟩
  obtain ⟨-, n, t, hlate⟩ | ⟨htime, hends, hfull, t, hcalls, hover⟩ | ⟨-, -, hfits⟩ := happlies.outcome hs
  · cases hx.symm.trans hlate
    cases he
  · cases hx.symm.trans hover
    rw [hlimited.maxDepth] at hfull
    exact ⟨⟨happlies, htime, Nat.le_antisymm hlimited.bounded hfull, by rw [hs]; exact hends⟩,
      tellsOverflow happlies hlimited hcalls⟩
  · rw [(ensures_of_error hx).mp hfits] at he
    cases he

/-! ## 6. Where live calls come from -/

variable {σ : Type} {m : Machine σ} {c : CallStack} {n n' : Nat}

def HasCalled (m : Machine σ) (n : Nat) (frame : CallFrame) : Prop :=
  ∃ s s' node, m.Reaches s ∧ s.steps = n ∧ Applies m.setting s node frame ∧ advance m.setting s = .running s'

/-- The run has made all these calls, one after another, before so many steps had been taken. -/
def Recorded (m : Machine σ) (n : Nat) (c : CallStack) : Prop :=
  ∃ steps : List Nat, steps.Pairwise (· < ·) ∧ (∀ k ∈ steps, k < n) ∧ List.Forall₂ m.HasCalled steps c.frames.toList

theorem Recorded.mono (h : m.Recorded n c) (hle : n ≤ n') : m.Recorded n' c := by
  obtain ⟨steps, hsorted, hbefore, hmade⟩ := h
  exact ⟨steps, hsorted, fun k hk => Nat.lt_of_lt_of_le (hbefore k hk) hle, hmade⟩

theorem Recorded.add (h : m.Recorded n c) (hframe : m.HasCalled n frame) : m.Recorded (n + 1) (c.add frame) := by
  obtain ⟨steps, hsorted, hbefore, hmade⟩ := h
  refine ⟨steps ++ [n], List.pairwise_append.mpr ⟨hsorted, List.pairwise_singleton _ n, fun k hk j hj => ?_⟩,
    List.forall_mem_append.mpr ⟨fun k hk => ?_, List.forall_mem_singleton.mpr (Nat.lt_succ_self n)⟩, ?_⟩
  · rw [List.mem_singleton.mp hj]
    exact hbefore k hk
  · exact Nat.lt_succ_of_lt (hbefore k hk)
  · rw [CallStack.add, Array.toList_push]
    exact List.rel_append hmade (.cons hframe .nil)

theorem Recorded.pop (h : m.Recorded n c) : m.Recorded n c.pop := by
  obtain ⟨steps, hsorted, hbefore, hmade⟩ := h
  have hsub : List.Sublist steps.dropLast steps := List.dropLast_sublist steps
  refine ⟨steps.dropLast, hsorted.sublist hsub, fun k hk => hbefore k (hsub.subset hk), ?_⟩
  rw [CallStack.pop, Array.toList_pop, List.dropLast_eq_take, List.dropLast_eq_take, hmade.length_eq]
  exact List.forall₂_take _ hmade

/-- A call leaves the live calls alone, brings back those of a continuation, or is one of the program. -/
theorem Call.recalls {callee : Value} {args : List Value} (h : Call p s s' callee args) :
    s'.calls = s.calls ∨ (∃ k ∈ s.snapshots, s'.calls = k.calls) ∨
      ∃ identity f fname params code, callee = .closure identity f ∧
        p.tree.kind? f.node = some (.function fname params code) ∧ params.length = args.length := by
  cases h with
  | enter hclosure hkind harity hagenda hstash hcalls hsnapshots hmade hnames =>
    exact .inr (.inr ⟨_, _, _, _, _, hclosure, hkind, harity⟩)
  | answer hagenda hstash hstill => exact .inl hstill.calls
  | invoke hcontinuation harity hkept hregisters hscopes hsnapshots =>
    exact .inr (.inl ⟨_, Array.mem_of_getElem? hkept, congrArg Snapshot.calls hregisters⟩)

/-- What a step does to the live calls. -/
theorem Move.recalls (h : Move p { s with agenda := rest } s' item) (hs : s.agenda = item :: rest) :
    s'.calls = s.calls ∨ s'.calls = s.calls.pop ∨ (∃ k ∈ s.snapshots, s'.calls = k.calls) ∨
      ∃ node frame, Applies p s node frame := by
  cases h with
  | plain hkind hopened hgoes hagenda hstill => exact .inl hstill.calls
  | scope hkind hopened hagenda hcalls hsnapshots hmade hnames => exact .inl hcalls
  | returned hkind hagenda hstash hstill => exact .inl hstill.calls
  | instr hplain hoffered hagenda hstill => exact .inl hstill.calls
  | assign howner hslot hvalue hmutability hagenda henv hcalls hsnapshots hscopes => exact .inl hcalls
  | declare howner hagenda henv hcalls hsnapshots hscopes => exact .inl hcalls
  | freshTrip hvars hagenda hcalls hsnapshots hmade => exact .inl hcalls
  | @restore env closesCall hagenda hstash henv hcalls hscopes hsnapshots =>
    cases closesCall with
    | false => exact .inl hcalls
    | true => exact .inr (.inl hcalls)
  | reset hagenda hstash hstill => exact .inl hstill.calls
  | reached htarget hsearch hagenda hstash hstill => exact .inl hstill.calls
  | stopped htarget hsearch hagenda hstash hstill => exact .inl hstill.calls
  | call hoperands houtcome =>
    obtain hsame | hkept | ⟨identity, f, fname, params, code, rfl, hkind, harity⟩ := houtcome.recalls
    · exact .inl hsame
    · exact .inr (.inr (.inl hkept))
    · exact .inr (.inr (.inr ⟨_, _, .call hs hoperands hkind harity⟩))
  | callCc hoperands houtcome =>
    -- The continuation that has just been captured keeps the calls that are live.
    obtain hsame | ⟨k, hk, hkept⟩ | ⟨identity, f, fname, params, code, rfl, hkind, harity⟩ := houtcome.recalls
    · exact .inl hsame
    · obtain hk | ⟨-, hcalls⟩ := mem_captured hk
      · exact .inr (.inr (.inl ⟨k, hk, hkept⟩))
      · exact .inl (hkept.trans hcalls)
    · exact .inr (.inr (.inr ⟨_, _, .callCc hs hoperands hkind harity⟩))
  | callCcTwice hoperands houtcome =>
    obtain hsame | ⟨k, hk, hkept⟩ | ⟨identity, f, fname, params, code, hclosure, hkind, harity⟩ := houtcome.recalls
    · exact .inl hsame
    · obtain hk | ⟨-, hcalls⟩ := mem_captured hk
      · obtain hk | ⟨-, hcalls⟩ := mem_captured hk
        · exact .inr (.inr (.inl ⟨k, hk, hkept⟩))
        · exact .inl (hkept.trans hcalls)
      · exact .inl (hkept.trans hcalls)
    · cases hclosure

/-- Live calls have been made by the run, and so have those that continuations have kept. -/
theorem Reaches.recorded (hs : m.Reaches s) (hcalls : m.state.calls.frames = #[])
    (hsnapshots : m.state.snapshots = #[]) :
    m.Recorded s.steps s.calls ∧ ∀ k ∈ s.snapshots, m.Recorded s.steps k.calls := by
  refine hs.induct (I := fun s => m.Recorded s.steps s.calls ∧ ∀ k ∈ s.snapshots, m.Recorded s.steps k.calls)
    ⟨⟨[], .nil, List.forall_mem_nil _, ?_⟩, fun k hk => ?_⟩ fun s s' item rest hreach ih hagenda hrun hmove => ?_
  · rw [hcalls]
    exact .nil
  · rw [hsnapshots] at hk
    exact absurd hk (Array.not_mem_empty k)
  · obtain ⟨hlive, hkept⟩ := ih
    have hsteps : s'.steps = s.steps + 1 := advance_steps hrun
    have hlater : s.steps ≤ s'.steps := Nat.le_of_lt (Nat.lt_of_lt_of_eq (Nat.lt_succ_self _) hsteps.symm)
    refine ⟨?_, fun k hk => ?_⟩
    · obtain hsame | hpop | ⟨k, hk, hsame⟩ | ⟨node, frame, happlies⟩ := hmove.recalls hagenda
      · exact hsame ▸ hlive.mono hlater
      · exact hpop ▸ hlive.pop.mono hlater
      · exact hsame ▸ (hkept k hk).mono hlater
      · have hframe : m.HasCalled s.steps frame := ⟨s, s', node, hreach, rfl, happlies, hrun⟩
        rw [happlies.calls_of_advance hagenda hrun, hsteps]
        split
        · exact hlive.pop.add hframe
        · exact hlive.add hframe
    · obtain hold | ⟨-, -, hsame⟩ := hmove.captures k hk
      · exact (hkept k hold).mono hlater
      · exact hsame ▸ hlive.mono hlater

/-! ## 7. Runs -/

theorem limited_of_reaches (t : Tree) (config : Config) (output : Output) (clock : Nat → Nat) (rule : PauseRule σ)
    (memory : σ) (hs : (build t config [] output clock rule memory).Reaches s) :
    Limited (build t config [] output clock rule memory).setting s.calls := by
  have hnow := hs.balanced.now
  have hp := preludeOnly_build t config output clock rule memory
  have horiented := hs.oriented hp (oriented_build t config [] output clock rule memory)
  exact ⟨hnow.maximum, horiented.records.calls, hnow.bounded⟩

/-- A run overflows just when it makes a call of a function of the program, in time and with the right number of
arguments, while as many calls are live as may be and the item behind ends none of them.  The error tells the most
recent of the live calls and the one that did not fit.  Each live call has been made in an earlier step of the run,
one after another, and is told as it was made. -/
theorem overflows_are_told (t : Tree) (config : Config) (output : Output) (clock : Nat → Nat) (rule : PauseRule σ)
    (memory : σ) :
    let m := build t config [] output clock rule memory
    (∀ n e s', (m.runThrough n).progress = .failed e s' → e.fault.isOverflow = true →
      ∃ s node frame, m.Reaches s ∧ advance m.setting s = .failed e s' ∧ Overflows m.setting s node frame ∧
        e.TellsOverflow m.setting s node frame s') ∧
      (∀ s node frame, m.Reaches s → Overflows m.setting s node frame →
        ∃ n e s', (m.runThrough n).progress = .failed e s' ∧ e.TellsOverflow m.setting s node frame s') ∧
      ∀ s, m.Reaches s → s.calls.depth ≤ config.maxCallDepth ∧ m.Recorded s.steps s.calls := by
  intro m
  have hp : m.setting.PreludeOnly := preludeOnly_build t config output clock rule memory
  refine ⟨fun n e s' hfails he => ?_, fun s node frame hs hover => ?_, fun s hs => ?_⟩
  · obtain ⟨k, -, hk⟩ := exists_travel m n
    obtain ⟨j, s, hj, hfailed⟩ := exists_failing_step (hk.symm.trans hfails)
    have hs : m.Reaches s := reaches_iff.mpr ⟨j, hj⟩
    obtain ⟨node, frame, hover, htells⟩ :=
      overflows_of_advance hp (limited_of_reaches t config output clock rule memory hs) hfailed he
    exact ⟨s, node, frame, hs, hfailed, hover, htells⟩
  · obtain ⟨e, s', hfailed, htells⟩ := hover.advance (limited_of_reaches t config output clock rule memory hs)
    obtain ⟨k, hk⟩ := reaches_iff.mp hs
    have hends : travel m.setting (k + 1) m.state = .failed e s' :=
      (travelBy_add 1 hk).trans (travelBy_failed 0 hfailed)
    obtain ⟨n, hn⟩ := (exists_progress_iff m (· = .failed e s')).mpr ⟨k + 1, hends⟩
    exact ⟨n, e, s', hn, htells⟩
  · exact ⟨(limited_of_reaches t config output clock rule memory hs).bounded, (hs.recorded rfl rfl).1⟩

end Machine

/-- The program `const f = x => !f(x); f(true);`. -/
def Tree.descent : Tree where
  names := ⟨#["", "f", "x"]⟩
  nodes := #[⟨.identifier ⟨1⟩, ⟨16, 17⟩⟩, ⟨.identifier ⟨2⟩, ⟨18, 19⟩⟩, ⟨.call ⟨0⟩ [⟨1⟩], ⟨16, 20⟩⟩,
    ⟨.unary .not ⟨2⟩, ⟨15, 20⟩⟩, ⟨.function none [⟨2⟩] (.expression ⟨3⟩), ⟨10, 20⟩⟩,
    ⟨.declaration .constKind ⟨1⟩ ⟨4⟩, ⟨0, 21⟩⟩, ⟨.identifier ⟨1⟩, ⟨22, 23⟩⟩, ⟨.literal (.bool true), ⟨24, 28⟩⟩,
    ⟨.call ⟨6⟩ [⟨7⟩], ⟨22, 29⟩⟩, ⟨.expressionStatement ⟨8⟩, ⟨22, 30⟩⟩, ⟨.program [⟨5⟩, ⟨9⟩], ⟨0, 30⟩⟩]
  root := ⟨10⟩
  accepted := by decide

namespace Machine

/-- With room for three calls, the fourth does not fit.  Two calls may be told: the third, and the fourth. -/
theorem overflows_are_told_descent :
    let m := build .descent { Config.standard with maxCallDepth := 3, traceFrames := 2 } [] default
      (fun _ => 0) .never ()
    ∃ e s' s node frame, (m.runThrough 40).progress = .failed e s' ∧ Overflows m.setting s node frame ∧
      e.TellsOverflow m.setting s node frame s' ∧ s.calls.depth = 3 ∧ m.Recorded s.steps s.calls ∧ node = ⟨2⟩ := by
  intro m
  have hplace : (m.runThrough 40).progress.error?.map (fun e => (e.fault.isOverflow, e.node)) =
      some (true, some ⟨2⟩) := by decide +kernel
  obtain ⟨e, hfailed, hwhat⟩ := Progress.exists_failed hplace
  obtain ⟨hoverflow, hnode⟩ := Prod.mk.inj hwhat
  obtain ⟨htold, -, hlive⟩ := overflows_are_told .descent { Config.standard with maxCallDepth := 3, traceFrames := 2 }
    default (fun _ => 0) .never ()
  obtain ⟨s, node, frame, hs, -, hover, htells⟩ := htold 40 e _ hfailed hoverflow
  exact ⟨e, _, s, node, frame, hfailed, hover, htells, hover.full, (hlive s hs).2,
    Option.some.inj (htells.placed.symm.trans hnode)⟩

end Machine

end ExplicitControl
