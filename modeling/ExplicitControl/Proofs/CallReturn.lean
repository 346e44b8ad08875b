import ExplicitControl.Proofs.CallWork
import ExplicitControl.Proofs.Tidy

/-!
# Returning to a continuation is invoking it

A continuation that is captured for a call keeps the registers as the call leaves them behind.  When the call
returns, the stash, the calls and the environment are just what the continuation makes of them when it is
invoked with the value returned.  The one difference is in the work that is pending: the end of a scope or of a
call that comes next has served the call already, and is still to come for the continuation.
-/

namespace ExplicitControl

/-! ## 1. What stays -/

structure CallStack.Under (below c : CallStack) : Prop where
  frames : below.frames.toList <+: c.frames.toList
  maxDepth : c.maxDepth = below.maxDepth
  traceFrames : c.traceFrames = below.traceFrames

namespace CallStack

variable {below c : CallStack}

theorem Under.add (h : below.Under c) (frame : CallFrame) : below.Under (c.add frame) := by
  refine ⟨?_, h.maxDepth, h.traceFrames⟩
  show _ <+: (c.frames.push frame).toList
  rw [Array.toList_push]
  exact h.frames.trans (List.prefix_append _ _)

theorem Under.pop (h : below.Under c) (hdepth : below.depth < c.depth) : below.Under c.pop := by
  refine ⟨?_, h.maxDepth, h.traceFrames⟩
  show _ <+: c.frames.pop.toList
  rw [Array.toList_pop]
  refine List.prefix_of_prefix_length_le h.frames (List.dropLast_prefix _) ?_
  rw [List.length_dropLast, Array.length_toList, Array.length_toList]
  exact Nat.le_sub_one_of_lt hdepth

/-- Calls that begin with those of `below`, and are as many, are those. -/
theorem Under.eq (h : below.Under c) (hdepth : c.depth = below.depth) : c = below := by
  have hlength : below.frames.toList.length = c.frames.toList.length := hdepth.symm
  have hframes : below.frames = c.frames := Array.ext' (h.frames.eq_of_length hlength)
  obtain ⟨frames, maxDepth, traceFrames⟩ := below
  obtain ⟨frames', maxDepth', traceFrames'⟩ := c
  cases hframes
  cases h.maxDepth
  cases h.traceFrames
  rfl

/-- With one call more, the others are those beneath. -/
theorem Under.eq_pop (h : below.Under c) (hdepth : c.depth = below.depth + 1) : c.pop = below := by
  refine (h.pop (by omega)).eq ?_
  show c.frames.pop.size = below.depth
  rw [Array.size_pop]
  exact Nat.sub_eq_of_eq_add hdepth

end CallStack

namespace Machine

open Agenda

variable {p : Setting} {s s' : State} {below : CallStack}

theorem Call.under {callee : Value} {args : List Value} (h : Call p s s' callee args) (hcalls : below.Under s.calls)
    (hdepth : 0 < s.agenda.closers → below.depth < s.calls.depth)
    (hnone : ∀ k, callee = .continuation k → 1 < args.length) : below.Under s'.calls := by
  cases h with
  | enter hclosure hkind harity hagenda hstash hcalls' =>
    rw [hcalls']
    refine CallStack.Under.add ?_ _
    split
    next hends =>
      -- A tail call takes the place of a live call, which is none of those beneath.
      obtain ⟨env, rest, heq⟩ := endsCall_iff.mp hends
      refine hcalls.pop (hdepth ?_)
      rw [heq, closers_cons]
      exact Nat.succ_pos _
    next => exact hcalls
  | answer hagenda hstash hstill => exact hstill.calls.symm ▸ hcalls
  | invoke hcontinuation harity => exact absurd (hnone _ hcontinuation) (Nat.not_lt.mpr harity)

/-- As long as there is a call above those beneath where one is ended, those beneath stay. -/
theorem Move.under {item : Item} (h : Move p s s' item) (hcalls : below.Under s.calls)
    (hdepth : 0 < Agenda.closers (item :: s.agenda) → below.depth < s.calls.depth)
    (hnone : ∀ k v, ¬State.Invokes { s with agenda := item :: s.agenda } k v) : below.Under s'.calls := by
  rw [closers_cons] at hdepth
  cases h with
  | plain hkind hopened hgoes hagenda hstill => exact hstill.calls.symm ▸ hcalls
  | scope hkind hopened hagenda hcalls' => exact hcalls'.symm ▸ hcalls
  | returned hkind hagenda hstash hstill => exact hstill.calls.symm ▸ hcalls
  | instr hplain hoffered hagenda hstill => exact hstill.calls.symm ▸ hcalls
  | assign howner hslot hvalue hmutability hagenda henv hcalls' => exact hcalls'.symm ▸ hcalls
  | declare howner hagenda henv hcalls' => exact hcalls'.symm ▸ hcalls
  | freshTrip hvars hagenda hcalls' => exact hcalls'.symm ▸ hcalls
  | @restore env closesCall hagenda hstash henv hcalls' =>
    rw [hcalls']
    cases closesCall with
    | true => exact hcalls.pop (hdepth (Nat.succ_pos _))
    | false => exact hcalls
  | reset hagenda hstash hstill => exact hstill.calls.symm ▸ hcalls
  | reached htarget hsearch hagenda hstash hstill => exact hstill.calls.symm ▸ hcalls
  | stopped htarget hsearch hagenda hstash hstill => exact hstill.calls.symm ▸ hcalls
  | call hoperands houtcome => exact houtcome.under hcalls hdepth fun k => one_lt_of_not_invokes hoperands hnone
  | callCc hoperands houtcome =>
    exact houtcome.under hcalls hdepth fun k hk => absurd hk (ne_continuation_of_not_invokes hoperands hnone k)
  | callCcTwice hoperands houtcome => exact absurd (invokes_of_callCcTwice hoperands) (hnone _ _)

/-- A continuation that has been captured is kept for the rest of the run. -/
theorem snapshots_travel {n : Nat} (h : travel p n s = .running s') :
    s.snapshots.toList <+: s'.snapshots.toList := by
  have kept : (travel p n s).Meets (fun t => s.snapshots.toList <+: t.snapshots.toList) fun _ => True :=
    travelBy_meets (fun t item rest ht _ =>
      (move_execute item { t with agenda := rest }).mono (fun _ _ h => ht.trans h.snapshots_prefix)
        fun _ _ _ => trivial) (List.prefix_refl _) n
  rw [h] at kept
  exact kept

/-! ## 2. Inside of a call -/

end Machine

/-- The machine is inside of a call, which ends with `b` and has found the values `base` and the calls
`below`. -/
structure State.Within (t : Tree) (b : Agenda) (base : Stash) (below : CallStack) (s : State) : Prop where
  holds : ∃ a n, s.Holds t b base a n
  calls : below.Under s.calls

namespace Machine

variable {p : Setting} {limit : Nat} {b : Agenda} {base : Stash} {below : CallStack} {s s' : State}

/-- There is a live call for the end that the machine is inside of. -/
theorem depth_within (ht : p.tree.WellPlaced) (hdepth : b.closers = below.depth + 1)
    (hbalanced : s.Balanced p.tree limit) {a : Agenda} (hagenda : s.agenda = a ++ b) :
    s.calls.depth = a.closers + (below.depth + 1) := by
  rw [← hbalanced.now.equal ht, hagenda, Agenda.closers_append, hdepth]

theorem within_advance (ht : p.tree.WellPlaced) (hb : b.IsEnd) (hdepth : b.closers = below.depth + 1)
    (hbalanced : s.Balanced p.tree limit) (hs : s.Within p.tree b base below) (hagenda : s.agenda ≠ b)
    (hnone : ∀ k v, ¬s.Invokes k v) (hrun : advance p s = .running s') :
    s'.Within p.tree b base below := by
  obtain ⟨a, n, hholds⟩ := hs.holds
  cases a with
  | nil => exact absurd hholds.agenda hagenda
  | cons item a =>
    have hagenda' : s.agenda = item :: (a ++ b) := hholds.agenda
    have hmove := move_of_advance hagenda' hrun
    have hcalm : ∀ k v, ¬State.Invokes { s with agenda := item :: (a ++ b) } k v := hagenda' ▸ hnone
    have hplaced := hbalanced.now.placed ht
    rw [hagenda'] at hplaced
    -- A jump cannot go further than to the end of its function, which is inside.
    have hmarker : item.isStatementWork p.tree = true → .instr (.marker .call) ∈ a := by
      intro hwork
      obtain ⟨env, rest, rfl⟩ := hb
      exact Agenda.mem_marker_of_isClear (hplaced.1 hwork)
    have hlive := depth_within ht hdepth hbalanced hholds.agenda
    obtain ⟨a', n', hagenda', hexpects, hover⟩ := hmove.holds ht (.call hb) rfl
      (by rw [List.append_nil]; exact hholds.expects) ⟨hholds.values.suffix, hholds.values.size⟩
      (fun hwork => List.mem_append_left _ (hmarker hwork)) hcalm
    exact ⟨⟨a', n', hagenda', List.append_nil a' ▸ hexpects, hover⟩,
      hmove.under hs.calls (fun _ => show below.depth < s.calls.depth by omega) hcalm⟩

/-- From `s` the machine comes to the end `b` of a call in `n` items, for the first time, and has invoked no
continuation. -/
structure Completes (p : Setting) (b : Agenda) (n : Nat) (s s' : State) : Prop where
  run : travel p n s = .running s'
  agenda : s'.agenda = b
  inside : ∀ m < n, ∀ r, travel p m s = .running r → r.agenda ≠ b ∧ ∀ k v, ¬r.Invokes k v

/-- What the machine finds when a call completes. -/
theorem within_completes (ht : p.tree.WellPlaced) (hb : b.IsEnd) (hdepth : b.closers = below.depth + 1)
    {n : Nat} (hbalanced : s.Balanced p.tree limit) (hs : s.Within p.tree b base below)
    (h : Completes p b n s s') : s'.Balanced p.tree limit ∧ s'.Within p.tree b base below := by
  -- On the items; none of those before the end leads out of the call.
  obtain ⟨hrun, -, hinside⟩ := h
  induction n generalizing s with
  | zero =>
    cases hrun
    exact ⟨hbalanced, hs⟩
  | succ n ih =>
    rw [travel_succ] at hrun
    cases ha : advance p s with
    | running s₁ =>
      rw [ha] at hrun
      obtain ⟨hagenda, hnone⟩ := hinside 0 (Nat.succ_pos n) s rfl
      refine ih (balanced_advance hbalanced ha)
        (within_advance ht hb hdepth hbalanced hs hagenda hnone ha) hrun fun m hm r hr => ?_
      refine hinside (m + 1) (Nat.succ_lt_succ hm) r ?_
      rw [travel_succ, ha]
      exact hr
    | finished v s₁ => rw [ha] at hrun; cases hrun
    | failed e s₁ => rw [ha] at hrun; cases hrun

/-- A call that completes has left one value on the stash that it has found, and one call on the calls. -/
theorem stash_of_within (ht : p.tree.WellPlaced) (hdepth : b.closers = below.depth + 1)
    (hbalanced : s.Balanced p.tree limit) (hs : s.Within p.tree b base below) (hagenda : s.agenda = b) :
    (∃ v, s.stash = v :: base) ∧ s.calls.pop = below := by
  obtain ⟨a, n, hholds⟩ := hs.holds
  have ha : a = [] := by
    have heq := hagenda.symm.trans hholds.agenda
    exact List.self_eq_append_left.mp heq
  subst ha
  have hlive := depth_within ht hdepth hbalanced hholds.agenda
  have hone : n = 1 := hholds.expects.height.symm
  subst hone
  exact ⟨hholds.values.exists_cons, hs.calls.eq_pop (hlive.trans (Nat.zero_add _))⟩

/-! ## 3. Capturing, invoking and returning -/

/-- Carrying out a call, of a value that is called by `x`. -/
theorem ensures_call (args : List Value) {callee : Value} {receiver : Option Value} {node : NodeId}
    {rest : Agenda} {stash : Stash} {x : MachineM Unit} {post : Unit → State → Prop}
    {fail : EvalError → State → Prop}
    (hstash : s.stash = args.reverse ++ callee :: (receiver.toList ++ stash))
    (hx : applyValue p callee args receiver node = checkDeadline p >>= fun _ => x)
    (hfail : ∀ n t, fail (.ofFault (.timeout n)) t)
    (h : ∀ steps readings, Ensures x { s with agenda := rest, stash, steps, readings } post fail) :
    Ensures (execute p (.instr (.apply args.length receiver.isSome node))) { s with agenda := rest } post
      fail := by
  unfold execute
  rw [ensures_bind]
  refine ensures_tick (fun steps readings => ?_) fun _ _ n => hfail n _
  have htaken : apply p args.length receiver.isSome node { s with agenda := rest, steps, readings } =
      applyValue p callee args receiver node { s with agenda := rest, stash, steps, readings } :=
    apply_taken node hstash
  have hlook : Ensures (checkDeadline p >>= fun _ => x)
      { s with agenda := rest, stash, steps, readings } post fail := by
    rw [ensures_bind]
    exact ensures_checkDeadline (fun readings => h steps readings) fun _ => hfail _ _
  rw [← hx] at hlook
  unfold Ensures at hlook ⊢
  rw [← htaken] at hlook
  exact hlook

/-- A function that a continuation is captured for is entered with that continuation. -/
theorem entered_of_callCc {a : Agenda} {stash : Stash} {identity : Nat} {f : Closure} {receiver : Option Value}
    {node : NodeId} (hstash : s.stash = .closure identity f :: .callCc :: (receiver.toList ++ stash))
    (h : Move p { s with agenda := a } s' (.instr (.apply 1 receiver.isSome node))) :
    ∃ fname params code frame, p.tree.kind? f.node = some (.function fname params code) ∧
      s'.agenda = bodyItems code ++ a.closing s.env ∧ s'.stash = stash ∧
      s'.calls = (if a.endsCall then s.calls.pop else s.calls).add frame ∧
      frame.args = [.continuation s.snapshots.size] ∧ s'.snapshots = s.snapshots.push ⟨a, stash, s.env, s.calls⟩ := by
  have hoperands : s.stash = [Value.closure identity f].reverse ++ .callCc :: (receiver.toList ++ stash) := hstash
  have hmove : Move p { s with agenda := a } s'
    (.instr (.apply [Value.closure identity f].length receiver.isSome node)) := h
  obtain hcall | ⟨-, ⟨function, hargs, hcall⟩ | ⟨hargs, -⟩⟩ := hmove.called hoperands
  · exact absurd rfl hcall.ne_callCc
  · cases hargs
    exact hcall.entered
  · cases hargs

/-- A continuation that is invoked makes the registers that it has kept, and nothing else changes. -/
theorem advance_invokes {k : Nat} {v : Value} {kept : Snapshot} (h : s.Invokes k v)
    (hkept : s.snapshots[k]? = some kept) :
    (advance p s).isLimited = true ∨
      ∃ s', advance p s = .running s' ∧ s'.registers = kept.resumed v ∧ s'.store = s.store := by
  obtain ⟨args, callee, receiver, node, rest, stash, hagenda, hstash, hinvoked⟩ := h
  refine advance_of_ensures ?_ hagenda
  have invoked : ∀ {args : List Value} {t : State}, ¬1 < args.length → args.head?.getD .undefined = v →
      t.snapshots[k]? = some kept → t.store = s.store →
      Ensures (invoke p k args node) t (fun _ s' => s'.registers = kept.resumed v ∧ s'.store = s.store)
        fun e _ => e.fault.isResource = true := by
    intro args t harity hv ht hstore
    rw [ensures_of_ok (invoke_of_kept harity ht node), hv]
    exact ⟨rfl, hstore⟩
  unfold Value.invoked? at hinvoked
  split at hinvoked
  · cases hinvoked
    exact ensures_call _ hstash (x := invoke p k [] node) rfl (fun _ _ => rfl) fun _ _ =>
      invoked (by simp) rfl hkept rfl
  · cases hinvoked
    exact ensures_call _ hstash (x := invoke p k [v] node) rfl (fun _ _ => rfl) fun _ _ =>
      invoked (by simp) rfl hkept rfl
  · cases hinvoked
    -- Another continuation is captured first, and is the argument.
    refine ensures_call _ hstash (x := applyCallCc p [.continuation k] node) rfl (fun _ _ => rfl) fun _ _ => ?_
    have hlt := (Array.getElem?_eq_some_iff.mp hkept).1
    have hpushed : ∀ k', (s.snapshots.push k')[k]? = some kept := fun k' => by
      rw [Array.getElem?_push, if_neg (Nat.ne_of_lt hlt), hkept]
    unfold applyCallCc
    dsimp only
    rw [ensures_bind]
    refine (ensures_modifyGet _).mpr ?_
    show Ensures (invoke p k [.continuation s.snapshots.size] node) _ _ _
    refine invoked (by simp) rfl ?_ rfl
    exact hpushed _
  · cases hinvoked
    -- The first of two continuations that are captured just now is not the one that is kept.
    rw [Array.getElem?_eq_none (Nat.le_refl _)] at hkept
    cases hkept
  · cases hinvoked

/-- The end of a scope or of a call brings an environment back, and at most ends a call. -/
theorem advance_restore {env : Env} {closesCall : Bool} {rest : Agenda}
    (hs : s.agenda = .instr (.restore env closesCall) :: rest) :
    (advance p s).isLimited = true ∨ ∃ s', advance p s = .running s' ∧
      s'.registers = ⟨rest, s.stash, env, if closesCall then s.calls.pop else s.calls⟩ ∧
      s'.store = s.store := by
  refine advance_of_ensures ?_ hs
  unfold execute
  rw [ensures_bind]
  refine ensures_tick (fun steps readings => ?_) fun _ _ _ => rfl
  cases closesCall with
  | true => exact ⟨rfl, rfl⟩
  | false => exact ⟨rfl, rfl⟩

theorem isEnd_closing (env : Env) (a : Agenda) : (a.closing env).IsEnd := by
  obtain ⟨-, -, hclosing⟩ | ⟨env', closesCall, rest, -, -, hclosing⟩ := closing_cases env a
  · exact ⟨env, a, hclosing⟩
  · exact ⟨env', rest, hclosing⟩

/-- A function that a continuation has been captured for is inside of its call. -/
theorem within_entered (ht : p.tree.WellPlaced) {id : NodeId} {fname : Option Name} {params : List Name}
    {code : FunctionBody} (hkind : p.tree.kind? id = some (.function fname params code)) {frame : CallFrame}
    (hagenda : s.agenda = bodyItems code ++ b) (hstash : s.stash = base) (hcalls : s.calls = below.add frame) :
    s.Within p.tree b base below := by
  have hend : Agenda.Expects p.tree [] 1 := ⟨trivial, rfl⟩
  have hbody := expects_bodyItems ht hkind (n := 0) hend
  rw [List.append_nil] at hbody
  subst hstash
  refine ⟨⟨bodyItems code, 0, hagenda, hbody, List.suffix_refl _, rfl⟩, ?_⟩
  rw [hcalls]
  exact CallStack.Under.add ⟨List.prefix_refl _, rfl, rfl⟩ frame

/-- Where the machine goes when a call completes, and when its continuation is invoked. -/
theorem return_registers {a : Agenda} {env : Env} {calls : CallStack} {v : Value}
    (hagenda : s.agenda = a.closing env) (hstash : s.stash = v :: base)
    (hcalls : s.calls.pop = if a.endsCall then calls.pop else calls) :
    (advance p s).isLimited = true ∨ ∃ r₁, advance p s = .running r₁ ∧ r₁.store = s.store ∧
      (a.endsScope = false → r₁.registers = (Snapshot.mk a base env calls).resumed v) ∧
      (a.endsScope = true → ∀ r₂ : State, r₂.registers = (Snapshot.mk a base env calls).resumed v →
        (advance p r₂).isLimited = true ∨
          ∃ r₃, advance p r₂ = .running r₃ ∧ r₃.registers = r₁.registers ∧ r₃.store = r₂.store) := by
  obtain ⟨hhead, hends, hclosing⟩ | ⟨env', closesCall, rest, rfl, hends, hclosing⟩ := closing_cases env a
  · rw [hclosing] at hagenda
    rw [hends] at hcalls
    obtain hlimit | ⟨r₁, hrun, hregisters, hstore⟩ := advance_restore (p := p) hagenda
    · exact .inl hlimit
    refine .inr ⟨r₁, hrun, hstore, fun _ => ?_, fun h => ?_⟩
    · rw [hregisters, if_pos rfl, hcalls, hstash]
      rfl
    · rw [Agenda.endsScope, hhead] at h
      cases h
  · rw [hclosing] at hagenda
    rw [hends] at hcalls
    obtain hlimit | ⟨r₁, hrun, hregisters, hstore⟩ := advance_restore (p := p) hagenda
    · exact .inl hlimit
    refine .inr ⟨r₁, hrun, hstore, fun h => (by cases h), fun _ r₂ hr₂ => ?_⟩
    -- The item that has ended the call ends a scope, or another call, when it comes to the continuation.
    have hagenda₂ : r₂.agenda = .instr (.restore env' closesCall) :: rest := congrArg Snapshot.agenda hr₂
    have hstash₂ : r₂.stash = v :: base := congrArg Snapshot.stash hr₂
    have hcalls₂ : r₂.calls = calls := congrArg Snapshot.calls hr₂
    obtain hlimit | ⟨r₃, hrun₃, hregisters₃, hstore₃⟩ := advance_restore (p := p) hagenda₂
    · exact .inl hlimit
    refine .inr ⟨r₃, hrun₃, ?_, hstore₃⟩
    rw [hregisters₃, hregisters, hstash, hstash₂, hcalls₂, if_pos rfl, hcalls]

variable {σ : Type} (t : Tree) (config : Config) (hosts : List EmbeddedFunction) (output : Output)
  (clock : Nat → Nat) (rule : PauseRule σ) (memory : σ)

/-- A continuation `k` is captured for a function, in front of the work `a` and above the values `stash`.  It is
kept for the rest of the run, and whenever it is invoked, with whatever value and by whatever state, it makes
the registers of the capture with that value on top, and changes nothing else.  If the call of the function
completes without any continuation being invoked, it has left one value on `stash`, and its end makes the very
registers that `k` makes with that value; but if `a` begins with the end of a scope or of a call, that item has
ended the call, and the registers are those that `k` makes once it has been carried out as well. -/
theorem callCc_return (ht : t.WellPlaced) {n : Nat} {s s₁ : State} {a : Agenda} {stash : Stash} {identity : Nat}
    {f : Closure} {receiver : Option Value} {node : NodeId}
    (hs : ((build t config hosts output clock rule memory).runThrough n).progress = .running s)
    (hagenda : s.agenda = .instr (.apply 1 receiver.isSome node) :: a)
    (hstash : s.stash = .closure identity f :: .callCc :: (receiver.toList ++ stash))
    (hstep : advance (build t config hosts output clock rule memory).setting s = .running s₁) :
    let p := (build t config hosts output clock rule memory).setting
    let k := s.snapshots.size
    let kept : Snapshot := ⟨a, stash, s.env, s.calls⟩
    (∃ fname params code, t.kind? f.node = some (.function fname params code) ∧
        s₁.agenda = bodyItems code ++ a.closing s.env ∧ s₁.stash = stash) ∧
      s₁.calls.frames.back?.map CallFrame.args = some [.continuation k] ∧
      (∀ m r, travel p m s₁ = .running r → r.snapshots[k]? = some kept) ∧
      (∀ r v, r.snapshots[k]? = some kept → r.Invokes k v → (advance p r).isLimited = true ∨
        ∃ r', advance p r = .running r' ∧ r'.registers = kept.resumed v ∧ r'.store = r.store) ∧
      ∀ m s₂, Completes p (a.closing s.env) m s₁ s₂ →
        ∃ v, s₂.stash = v :: stash ∧ ((advance p s₂).isLimited = true ∨
          ∃ r₁, advance p s₂ = .running r₁ ∧ r₁.store = s₂.store ∧
            (a.endsScope = false → r₁.registers = kept.resumed v) ∧
            (a.endsScope = true → ∀ r₂ : State, r₂.registers = kept.resumed v →
              (advance p r₂).isLimited = true ∨
                ∃ r₃, advance p r₂ = .running r₃ ∧ r₃.registers = r₁.registers ∧ r₃.store = r₂.store)) := by
  intro p k kept
  have hbalanced := runThrough_balanced t config hosts output clock rule memory n
  rw [hs] at hbalanced
  obtain ⟨fname, params, code, frame, hkind, hagenda₁, hstash₁, hcalls₁, hargs, hsnapshots₁⟩ :=
    entered_of_callCc hstash (move_of_advance hagenda hstep)
  refine ⟨⟨fname, params, code, hkind, hagenda₁, hstash₁⟩, ?_, fun m r hr => ?_,
    fun r v hkept hinvokes => advance_invokes hinvokes hkept, fun m s₂ hcompletes => ?_⟩
  · rw [hcalls₁]
    show (Array.push _ _).back?.map CallFrame.args = _
    rw [Array.back?_push, Option.map_some, hargs]
  · have hcaptured : s₁.snapshots.toList[k]? = some kept := by
      rw [hsnapshots₁, Array.toList_push]
      exact List.getElem?_concat_length
    obtain ⟨later, hlater⟩ := snapshots_travel hr
    rw [← Array.getElem?_toList, ← hlater, List.getElem?_append_left (List.getElem?_eq_some_iff.mp hcaptured).1]
    exact hcaptured
  · have hbalanced₁ := balanced_advance (p := p) hbalanced hstep
    have hdepth : (a.closing s.env).closers = (if a.endsCall then s.calls.pop else s.calls).depth + 1 := by
      have hequal := hbalanced₁.now.equal ht
      rw [hagenda₁, hcalls₁, Agenda.closers_append, Agenda.closers_bodyItems, Nat.zero_add] at hequal
      rw [hequal]
      exact Array.size_push _
    have hwithin := within_entered (p := p) ht hkind hagenda₁ hstash₁ hcalls₁
    obtain ⟨hbalanced₂, hwithin₂⟩ :=
      within_completes ht (isEnd_closing s.env a) hdepth hbalanced₁ hwithin hcompletes
    obtain ⟨⟨v, hv⟩, hpop⟩ := stash_of_within ht hdepth hbalanced₂ hwithin₂ hcompletes.agenda
    exact ⟨v, hv, return_registers hcompletes.agenda hv hpop⟩

end Machine

/-- A program that captures a continuation for a function, which returns at once. -/
def Tree.capturing : Tree where
  names := ⟨#["", "call_cc", "k"]⟩
  nodes := #[⟨.literal (.bool true), .dummy⟩, ⟨.function none [⟨2⟩] (.expression ⟨0⟩), .dummy⟩,
    ⟨.identifier ⟨1⟩, .dummy⟩, ⟨.call ⟨2⟩ [⟨1⟩], .dummy⟩, ⟨.expressionStatement ⟨3⟩, .dummy⟩,
    ⟨.program [⟨4⟩], .dummy⟩]
  root := ⟨5⟩
  accepted := by decide

def State.capturesFor (id : NodeId) (s : State) : Bool :=
  match s.agenda, s.stash with
  | .instr (.apply 1 false _) :: _, .closure _ f :: .callCc :: _ => f.node == id
  | _, _ => false

theorem State.exists_of_capturesFor {id : NodeId} {s : State} (h : s.capturesFor id = true) :
    ∃ (a : Agenda) (stash : Stash) (identity : Nat) (f : Closure) (node : NodeId), f.node = id ∧
      s.agenda = .instr (.apply 1 false node) :: a ∧ s.stash = .closure identity f :: .callCc :: stash := by
  unfold capturesFor at h
  split at h
  · exact ⟨_, _, _, _, _, eq_of_beq h, ‹_›, ‹_›⟩
  · cases h

namespace Machine

theorem advance_literal {p : Setting} {s : State} {id : NodeId} {rest : Agenda} {literal : Literal}
    (hkind : p.tree.kind? id = some (.literal literal)) (hs : s.agenda = .node id :: rest) :
    (advance p s).isLimited = true ∨ ∃ s', advance p s = .running s' ∧ s'.agenda = rest := by
  refine advance_of_ensures ?_ hs
  unfold execute
  rw [ensures_bind]
  refine ensures_tick (fun steps readings => ?_) fun _ _ _ => rfl
  rw [ensures_bind, ensures_modify]
  unfold evalNode
  rw [ensures_bind, ensures_kindOf hkind]
  rfl

theorem callCc_return_sample :
    let m := build .capturing .standard [] default (fun _ => 0) .never ()
    ∃ (s s₁ s₂ : State) (a : Agenda) (stash : Stash) (identity : Nat) (f : Closure) (node : NodeId),
      Tree.capturing.WellPlaced ∧ (m.runThrough 5).progress = .running s ∧
        s.agenda = .instr (.apply 1 false node) :: a ∧ s.stash = .closure identity f :: .callCc :: stash ∧
        advance m.setting s = .running s₁ ∧ Completes m.setting (a.closing s.env) 1 s₁ s₂ ∧
        ∃ v, s₂.stash = v :: stash ∧ ((advance m.setting s₂).isLimited = true ∨
          ∃ r₁, advance m.setting s₂ = .running r₁ ∧ r₁.store = s₂.store ∧
            (a.endsScope = false → r₁.registers = (Snapshot.mk a stash s.env s.calls).resumed v) ∧
            (a.endsScope = true → ∀ r₂ : State,
              r₂.registers = (Snapshot.mk a stash s.env s.calls).resumed v →
              (advance m.setting r₂).isLimited = true ∨ ∃ r₃, advance m.setting r₂ = .running r₃ ∧
                r₃.registers = r₁.registers ∧ r₃.store = r₂.store)) := by
  intro m
  have ht : Tree.capturing.WellPlaced := by decide
  -- Where the program is, and that it has not ended, is found out by running it.
  have hrunning : (m.runThrough 5).progress.isRunning = true := by decide +kernel
  have hcaptures : (m.runThrough 5).progress.state.capturesFor ⟨1⟩ = true := by decide +kernel
  have hrunning₁ : (advance m.setting (m.runThrough 5).progress.state).isRunning = true := by decide +kernel
  have hlimited : (advance m.setting (advance m.setting (m.runThrough 5).progress.state).state).isLimited =
      false := by
    decide +kernel
  have hs := Progress.eq_running hrunning
  have hs₁ := Progress.eq_running hrunning₁
  generalize (m.runThrough 5).progress.state = s at hcaptures hlimited hs hs₁
  generalize (advance m.setting s).state = s₁ at hlimited hs₁
  obtain ⟨a, stash, identity, f, node, hf, hagenda, hstash⟩ := State.exists_of_capturesFor hcaptures
  -- The function that captures is called without a receiver.
  have happly : s.agenda = .instr (.apply 1 (none : Option Value).isSome node) :: a := hagenda
  obtain ⟨⟨fname, params, code, hkind, hagenda₁, -⟩, -, -, -, hreturn⟩ :=
    callCc_return .capturing .standard [] default (fun _ => 0) .never () ht hs happly hstash hs₁
  rw [hf] at hkind
  cases hkind
  have hliteral : m.setting.tree.kind? ⟨0⟩ = some (.literal (.bool true)) := rfl
  obtain hlimit | ⟨s₂, hs₂, hagenda₂⟩ := advance_literal hliteral hagenda₁
  · rw [hlimited] at hlimit
    cases hlimit
  have hcompletes : Completes m.setting (a.closing s.env) 1 s₁ s₂ := by
    refine ⟨?_, hagenda₂, fun j hj r hr => ?_⟩
    · rw [travel_succ, hs₂]
      rfl
    · obtain rfl := Nat.lt_one_iff.mp hj
      cases hr
      rw [hagenda₁]
      refine ⟨List.cons_ne_self _ _, fun k v ⟨_, _, _, _, _, _, hnext, _⟩ => ?_⟩
      rw [hagenda₁] at hnext
      cases hnext
  exact ⟨s, s₁, s₂, a, stash, identity, f, node, ht, hs, hagenda, hstash, hs₁, hcompletes,
    hreturn 1 s₂ hcompletes⟩

end Machine

end ExplicitControl
