import ExplicitControl.Proofs.Completions

/-!
# Sequences and calls of a faithful evaluator

An evaluator is faithful if the machine follows it on every expression and every statement.  Given one for the
children of a node, the machine follows the evaluation of lists of expressions and statements, and of calls.
-/

namespace ExplicitControl

open Agenda Machine

/-- The machine follows the evaluator on each node, whatever work comes behind. -/
structure Structural.Evaluator.Faithful (p : Setting) (fuel : Nat) (r : Structural.Evaluator) : Prop where
  expression : ∀ {id : NodeId} {a : Agenda} {stash : Stash} {env : Env} {s : State},
    p.tree.isExpression id = true → s.At (.node id :: a) stash env →
    Follows p fuel s (r.expression id env s.store) (Yielded a stash env)
  statement : ∀ {id : NodeId} {a : Agenda} {stash : Stash} {env : Env} {s : State},
    p.tree.isStatement id = true → s.At (.node id :: a) stash env →
    Follows p fuel s (r.statement id env s.store) (Completed a stash env)

namespace Machine

variable {α β : Type} {p : Setting} {fuel : Nat} {r : Structural.Evaluator} {a : Agenda} {stash : Stash}
  {env : Env} {s : State}

/-! ## 1. Sequences -/

theorem endsScope_nodes (ids : List NodeId) (ha : a.endsScope = false) :
    endsScope (ids.map Item.node ++ a) = false := by
  cases ids with
  | nil => exact ha
  | cons id rest => rfl

/-- The values of expressions are on the stash, the last of them topmost. -/
theorem follows_values (hr : r.Faithful p fuel) (ha : a.endsScope = false) {ids : List NodeId}
    (hids : ∀ id ∈ ids, p.tree.isExpression id = true) (hs : s.At (ids.map Item.node ++ a) stash env) :
    Follows p fuel s (Structural.values r env ids s.store) fun vs t =>
      vs.length = ids.length ∧ t.At a (vs.reverse ++ stash) env := by
  -- On the list; what is behind an expression ends no scope, so its environment stays.
  induction ids generalizing stash s with
  | nil => exact follows_pure ⟨rfl, hs⟩
  | cons id rest ih =>
    obtain ⟨hid, hrest⟩ := List.forall_mem_cons.mp hids
    refine (hr.expression hid hs).bind fun v t ht => ?_
    refine (ih hrest (ht.at (endsScope_nodes rest ha))).bind fun vs u hu => follows_pure ⟨?_, ?_⟩
    · rw [List.length_cons, List.length_cons, hu.1]
    · rw [List.reverse_cons, List.append_assoc]
      exact hu.2

/-- The items of statements are passed by in a search. -/
theorem isPassed_ofStatements (target : Marker) (ids : List NodeId) :
    ∀ item ∈ ofStatements ids, item.isPassed target = true :=
  forall_mem_ofStatements (fun _ _ => rfl) rfl rfl

theorem follows_statements (hr : r.Faithful p fuel) {ids : List NodeId}
    (hids : ∀ id ∈ ids, p.tree.isStatement id = true) (hs : s.At (ofStatements ids ++ a) stash env) :
    Follows p fuel s (Structural.statements r env ids s.store) (Completed a stash env) := by
  induction ids generalizing s with
  | nil =>
    refine follows_last (y := pure (Completion.normal .undefined)) hs fun t ht _ => ?_
    exact ⟨.normal .undefined, rfl, .inl ht.agenda, congrArg (Value.undefined :: ·) ht.stash, .inr ht.env⟩
  | cons id rest ih =>
    obtain ⟨hid, hrest⟩ := List.forall_mem_cons.mp hids
    cases rest with
    | nil => exact hr.statement hid hs
    | cons next rest =>
      -- The value is dropped by the item behind, past which the other completions go.
      have hpassed : ∀ target, ∀ item ∈ Item.instr .pop :: ofStatements (next :: rest),
          item.isPassed target = true := fun target =>
        List.forall_mem_cons.mpr ⟨rfl, isPassed_ofStatements target _⟩
      refine (hr.statement hid hs).bind fun c t ht => ?_
      cases c with
      | normal v =>
        exact follows_pop (Yielded.at ht rfl) (g := Structural.statements r env (next :: rest))
          fun u hu => ih hrest hu
      | broke node => exact follows_pure (ht.behind _ _ hpassed (by simp))
      | continued node => exact follows_pure (ht.behind _ _ hpassed (by simp))
      | returned v => exact follows_pure (ht.behind _ _ hpassed (by simp))

/-! ## 2. Calls -/

/-- A call is recorded, and its end comes next: an item of its own, or one that ends a scope or a call anyway. -/
def CallEnds (env : Env) (a b : Agenda) : Prop :=
  b = .instr (.restore env true) :: a ∨
    ∃ env' closesCall rest, a = .instr (.restore env' closesCall) :: rest ∧
      b = .instr (.restore env' true) :: rest

theorem CallEnds.endsScope {b : Agenda} (h : CallEnds env a b) : b.endsScope = true := by
  obtain rfl | ⟨_, _, _, -, rfl⟩ := h
  · rfl
  · rfl

theorem callEnds_closing (env : Env) (a : Agenda) : CallEnds env a (a.closing env) := by
  obtain ⟨-, -, hclosing⟩ | ⟨env', closesCall, rest, ha, -, hclosing⟩ := closing_cases env a
  · exact .inl hclosing
  · exact .inr ⟨env', closesCall, rest, ha, hclosing⟩

theorem agrees_closureFrame (f : Closure) (params : List Name) (args : List Value)
    (receiver : Option Value) (node : NodeId) (code : FunctionBody) (hs : s.At a stash env) :
    Agrees (closureFrame p f params args receiver node code s)
      (Structural.frame p f params args receiver node code s.store)
      fun _ inner t => t.At a stash inner := by
  refine (agrees_newFrame _).bind fun inner _ t ht => ?_
  have hat := ht.at hs
  obtain ⟨rfl, -⟩ := ht
  refine (agrees_forM _ fun _ st => agrees_onName _ _ _).bind fun _ _ u hu => ?_
  have hu := hu.at hat
  have hset : setEnv inner u = .ok () { u with env := inner } := rfl
  rw [bind_of_ok hset]
  have hentered : State.At { u with env := inner } a stash inner := ⟨hu.agenda, hu.stash, rfl⟩
  cases code with
  | expression expr => exact ⟨inner, rfl, hentered⟩
  | block body =>
    show Agrees (declareAll p body { u with env := inner })
      ((Structural.declareAll p body inner >>= fun _ => pure inner) u.store) _
    rw [← bind_pure (declareAll p body)]
    refine (agrees_declareAll body hentered).bind fun _ _ w hw => ?_
    exact ⟨inner, rfl, hw.at hentered⟩

/-- The value of a call is on the stash when the call has ended. -/
theorem follows_called {inner : Env} {b : Agenda} (hb : CallEnds env a b) {v : Value}
    (h : Yielded b stash inner v s) :
    Follows p fuel s ((pure v : EvalM Value) s.store) (Yielded a stash env) := by
  obtain rfl | ⟨env', closesCall, rest, rfl, rfl⟩ := hb
  · exact follows_restore h (g := pure v) fun t ht => follows_pure ht.yielded
  · -- The end of the caller's scope or call serves the call as well, and is still to come.
    refine follows_pure ⟨.inr ?_, h.stash, .inl rfl⟩
    obtain h | ⟨_, _, closesCall', _, heq, h⟩ := h.agenda
    · exact ⟨env', closesCall, true, rest, rfl, h⟩
    · cases heq
      exact ⟨env', closesCall, closesCall', rest, rfl, h⟩

/-- The body of a function, with the end of its call behind it. -/
theorem follows_body (hr : r.Faithful p fuel) (ht : p.tree.WellPlaced) {fnode : NodeId}
    {fname : Option Name} {params : List Name} {code : FunctionBody}
    (hkind : p.tree.kind? fnode = some (.function fname params code)) {inner : Env} {b : Agenda}
    (hb : CallEnds env a b) (hs : s.At (bodyItems code ++ b) stash inner) :
    Follows p fuel s (Structural.body p r inner code s.store) (Yielded a stash env) := by
  cases code with
  | expression expr =>
    have hexpr := ht.isExpression hkind (List.mem_cons_self : expr ∈ [expr])
    rw [← bind_pure (Structural.body p r inner (.expression expr))]
    exact (hr.expression hexpr hs).bind fun v t ht => follows_called hb ht
  | block body =>
    have hbody : ∀ id ∈ body, p.tree.isStatement id = true := fun id hid => ht.isStatement hkind hid
    have hs : s.At (ofStatements body ++ .instr (.marker .call) :: b) stash inner :=
      ⟨by rw [hs.agenda, bodyItems, List.append_assoc]; rfl, hs.stash, hs.env⟩
    refine (follows_statements hr hbody hs).bind fun c t ht => ?_
    cases c with
    | normal v =>
      -- The marker turns the value of the last statement into `undefined`.
      have ht := Yielded.at ht rfl
      refine follows_silent ht (g := pure Value.undefined) (fun u hu => ?_)
        fun (u : State) (hu : u.At b (.undefined :: stash) inner) => follows_called hb hu.yielded
      refine ⟨{ u with stash := .undefined :: stash }, ?_, rfl, hu.agenda, rfl, hu.env⟩
      show onStash (Stash.replaceTop .undefined) u = _
      unfold onStash Stash.replaceTop
      rw [hu.stash]
    | returned v =>
      refine follows_called hb (⟨?_, ht.stash, .inl hb.endsScope⟩ : Yielded b stash inner v t)
      exact ht.agenda
    | broke node => exact follows_outside rfl ht (searchLoop_call (by decide) b)
    | continued node => exact follows_outside rfl ht (searchLoop_call (by decide) b)

/-- Looking at the clock is no part of an evaluation. -/
theorem agrees_checkDeadline {f : Unit → MachineM β} {y : EStateM.Result Stop Store α}
    {post : β → α → State → Prop} (h : ∀ readings, Agrees (f () { s with readings }) y post) :
    Agrees ((checkDeadline p >>= f) s) y post := by
  obtain ⟨readings, hlook | hlook⟩ := checkDeadline_cases p s
  · rw [bind_of_ok hlook]
    exact h readings
  · rw [bind_of_error hlook]
    exact .inl rfl

/-- Callee, arguments and receiver are taken off the stash. -/
theorem apply_taken {f : Value} {args : List Value} {receiver : Option Value} (node : NodeId)
    (hs : s.stash = args.reverse ++ f :: (receiver.toList ++ stash)) :
    apply p args.length receiver.isSome node s = applyValue p f args receiver node { s with stash } := by
  rw [apply_eq, bind_of_ok (popN_eq hs), bind_of_ok (pop_eq rfl)]
  cases receiver with
  | none => rfl
  | some o =>
    have hpop : (some <$> pop : MachineM (Option Value))
        { s with stash := o :: stash } = .ok (some o) { s with stash } := rfl
    exact bind_of_ok hpop

section

variable {f : Value} {args : List Value} {receiver : Option Value} {node : NodeId} {x : MachineM Unit}

/-- A call, of a value that is called by `x`. -/
theorem follows_apply {post : α → State → Prop}
    (hs : s.At (.instr (.apply args.length receiver.isSome node) :: a)
      (args.reverse ++ f :: (receiver.toList ++ stash)) env)
    (hx : applyValue p f args receiver node = checkDeadline p >>= fun _ => x) {y : EvalM β}
    {g : β → EvalM α} (h : ∀ t : State, t.At a stash env → t.snapshots = #[] →
      Agrees (x t) (y t.store) fun _ b s' => Follows p fuel s' (g b s'.store) post) :
    Follows p fuel s ((y >>= g) s.store) post := by
  refine (follows_instr hs fun t ht hsnapshots => ?_).less (Nat.le_succ fuel)
  show Agrees (apply p args.length receiver.isSome node t) _ _
  rw [apply_taken node ht.stash, hx]
  exact agrees_checkDeadline fun readings =>
    h { t with stash, readings } ⟨ht.agenda, rfl, ht.env⟩ hsnapshots

/-- A call that is over when its step is. -/
theorem follows_applied (hs : s.At (.instr (.apply args.length receiver.isSome node) :: a)
      (args.reverse ++ f :: (receiver.toList ++ stash)) env)
    (hx : applyValue p f args receiver node = checkDeadline p >>= fun _ => x) {y : EvalM Value}
    (h : ∀ t : State, t.At a stash env → t.snapshots = #[] →
      Agrees (x t) (y t.store) fun _ => Yielded a stash env) :
    Follows p fuel s (y s.store) (Yielded a stash env) := by
  rw [← bind_pure y]
  exact follows_apply hs hx fun t ht hsnapshots =>
    (h t ht hsnapshots).mono fun _ _ _ => follows_pure

end

theorem callClosure_eq {f : Closure} {fname : Option Name} {params : List Name} {code : FunctionBody}
    (hkind : p.tree.kind? f.node = some (.function fname params code)) {args : List Value}
    (harity : params.length = args.length) (receiver : Option Value) (node : NodeId) (name : String) :
    Structural.callClosure p r f args receiver node name =
      Structural.frame p f params args receiver node code >>= fun inner =>
        Structural.body p r inner code := by
  unfold Structural.callClosure
  rw [hkind]
  exact if_neg (not_not_intro harity)

/-- What is no function, or is one with other parameters, is not entered. -/
theorem agrees_callClosure {f : Closure} {args : List Value}
    (h : ∀ fname params code, p.tree.kind? f.node = some (.function fname params code) →
      params.length ≠ args.length)
    (receiver : Option Value) (node : NodeId) (name : String) {post : Unit → Value → State → Prop} :
    Agrees (applyClosure p f args receiver node name s)
      (Structural.callClosure p r f args receiver node name s.store) post := by
  cases hkind : p.tree.kind? f.node with
  | none =>
    unfold applyClosure Structural.callClosure
    rw [hkind]
    exact agrees_failAt _ _
  | some kind =>
    cases kind with
    | function fname params code =>
      have harity := h fname params code hkind
      rw [applyClosure_arity hkind harity]
      unfold Structural.callClosure
      rw [hkind]
      dsimp only
      rw [if_pos harity]
      exact agrees_failAt _ _
    | _ =>
      unfold applyClosure Structural.callClosure
      rw [hkind]
      exact agrees_failAt _ _

/-- The machine follows the call of a function of the program. -/
theorem follows_callClosure (hr : r.Faithful p fuel) (ht : p.tree.WellPlaced) {identity : Nat}
    {f : Closure} {args : List Value} {receiver : Option Value} {node : NodeId}
    (hs : s.At (.instr (.apply args.length receiver.isSome node) :: a)
      (args.reverse ++ .closure identity f :: (receiver.toList ++ stash)) env) :
    Follows p fuel s (Structural.callClosure p r f args receiver node
      (calleeName p node (.closure identity f)) s.store) (Yielded a stash env) := by
  generalize hname : calleeName p node (.closure identity f) = name
  have hx : applyValue p (.closure identity f) args receiver node = checkDeadline p >>= fun _ =>
      applyClosure p f args receiver node name := by
    rw [← hname]
    rfl
  by_cases hfits : ∃ fname params code, p.tree.kind? f.node = some (.function fname params code) ∧
      params.length = args.length
  · obtain ⟨fname, params, code, hkind, harity⟩ := hfits
    rw [callClosure_eq hkind harity]
    refine follows_apply hs hx fun t ht' _ => ?_
    rw [applyClosure_eq hkind harity]
    -- Where no further call is allowed, the run comes to a limit.
    obtain hentered | ⟨e, he, hresource⟩ := enterCall_cases p node ⟨name, args, p.tree.span node⟩ t
    · rw [bind_of_ok hentered]
      have hat : (t.entered ⟨name, args, p.tree.span node⟩).At (a.closing env) stash env :=
        ⟨by rw [← ht'.agenda, ← ht'.env]; rfl, ht'.stash, ht'.env⟩
      refine (agrees_closureFrame f params args receiver node code hat).andThen fun _ inner w hw => ?_
      exact ⟨(), _, rfl, rfl, follows_body hr ht hkind (callEnds_closing env a)
        ⟨congrArg (bodyItems code ++ ·) hw.agenda, hw.stash, hw.env⟩⟩
    · rw [bind_of_error he]
      exact .inl hresource
  · exact follows_applied hs hx fun t _ _ => agrees_callClosure
      (fun fname params code hkind harity => hfits ⟨fname, params, code, hkind, harity⟩) receiver node name

theorem follows_callHost {identity : Nat} {f : HostFunction} {args : List Value}
    {receiver : Option Value} {node : NodeId}
    (hs : s.At (.instr (.apply args.length receiver.isSome node) :: a)
      (args.reverse ++ .host identity f :: (receiver.toList ++ stash)) env) :
    Follows p fuel s (Structural.callHost p f args receiver node s.store) (Yielded a stash env) := by
  refine follows_applied hs (x := applyHost p f args receiver node) rfl fun t ht _ => ?_
  unfold applyHost Structural.callHost
  dsimp only
  by_cases harity : f.arity.accepts args.length = true
  · rw [if_pos harity, if_neg (by rw [harity]; decide)]
    exact (agrees_onHost _ _).push ht
  · rw [if_neg harity, if_pos (by simpa using harity)]
    exact agrees_failAt _ _

/-! ### Captured continuations -/

/-- Once a continuation has been captured it remains so, whatever is called. -/
theorem snapshots_applyPlain (callee : Value) (args : List Value) (receiver : Option Value)
    (node : NodeId) (name : String) (s : State) :
    Ensures (applyPlain p callee args receiver node name) s (fun _ s' => s'.snapshots = s.snapshots)
      fun _ s' => s'.snapshots = s.snapshots := by
  have hfails : ∀ fault, Ensures (failAt p node fault : MachineM Unit) s
      (fun _ s' => s'.snapshots = s.snapshots) fun _ s' => s'.snapshots = s.snapshots := fun _ => rfl
  cases callee with
  | host identity f => exact (local_applyHost (P := fun _ => True) f args receiver node).snapshots s
  | continuation snapshot =>
    show Ensures (invoke p snapshot args node) s _ _
    unfold invoke
    dsimp only
    split
    · exact rfl
    · rw [ensures_bind, ensures_get]
      split
      · exact rfl
      · exact rfl
  | closure identity f =>
    show Ensures (applyClosure p f args receiver node name) s _ _
    obtain ⟨fname, params, code, hkind, harity⟩ | ⟨fault, -, hfault⟩ :=
      applyClosure_cases p f args receiver node name
    · rw [applyClosure_eq hkind harity, ensures_bind]
      obtain hentered | ⟨e, he, -⟩ := enterCall_cases p node ⟨name, args, p.tree.span node⟩ s
      · rw [ensures_of_ok hentered, ensures_bind]
        exact (local_closureFrame (P := fun _ => True) f params args receiver node code).snapshots _
      · rw [ensures_of_error he]
    · rw [hfault]
      exact hfails fault
  | _ => exact hfails _

/-- A call with a continuation leaves one captured. -/
theorem snapshots_applyCallCc (function : Value) (node : NodeId) (s : State) :
    Ensures (applyCallCc p [function] node) s (fun _ s' => s'.snapshots ≠ #[])
      fun _ s' => s'.snapshots ≠ #[] := by
  have hcalled : ∀ (callee : Value) args name (t : State), t.snapshots ≠ #[] →
      Ensures (applyPlain p callee args none node name) t (fun _ s' => s'.snapshots ≠ #[])
        fun _ s' => s'.snapshots ≠ #[] := fun callee args name t ht =>
    (snapshots_applyPlain callee args none node name t).mono (fun _ _ h => h ▸ ht) fun _ _ h => h ▸ ht
  have hpushed : ∀ (kept : Array Snapshot) k, kept.push k ≠ #[] := fun kept k h =>
    absurd (congrArg Array.size h) (by rw [Array.size_push]; exact Nat.succ_ne_zero _)
  unfold applyCallCc
  dsimp only
  rw [ensures_bind]
  refine (ensures_modifyGet _).mpr ?_
  cases function with
  | callCc =>
    rw [ensures_bind]
    exact (ensures_modifyGet _).mpr (hcalled _ _ _ _ (hpushed _ _))
  | _ => exact hcalled _ _ _ _ (hpushed _ _)

theorem escapes_callCc {function : Value} {receiver : Option Value} {node : NodeId}
    (hs : s.At (.instr (.apply 1 receiver.isSome node) :: a)
      (function :: .callCc :: (receiver.toList ++ stash)) env) : ∃ k, (travel p k s).Escapes := by
  -- Whatever is called with the continuation, it is captured before.
  have hstep : Ensures (execute p (.instr (.apply 1 receiver.isSome node))) { s with agenda := a }
      (fun _ s' => s'.snapshots ≠ #[]) fun e s' => e.fault.isResource = true ∨ s'.snapshots ≠ #[] := by
    unfold execute
    rw [ensures_bind]
    refine ensures_tick (fun steps readings => ?_) fun _ _ _ => .inl rfl
    show Ensures (apply p [function].length receiver.isSome node) _ _ _
    unfold Ensures
    rw [apply_taken node hs.stash]
    show Ensures (checkDeadline p >>= fun _ => applyCallCc p [function] node) _ _ _
    rw [ensures_bind]
    refine ensures_checkDeadline (fun _ => ?_) fun _ => .inl rfl
    exact (snapshots_applyCallCc function node _).mono (fun _ _ h => h) fun _ _ h => .inr h
  refine ⟨1, ?_⟩
  cases hx : execute p (.instr (.apply 1 receiver.isSome node)) { s with agenda := a } with
  | ok _ s' =>
    rw [show travel p 1 s = .running s' from travelBy_running 0 (advanceBy_ok hs.agenda hx)]
    exact .inr ((ensures_of_ok hx).mp hstep)
  | error e s' =>
    rw [show travel p 1 s = .failed (locateError p s' e) s' from
      travelBy_failed 0 (advanceBy_error hs.agenda hx)]
    obtain h | h := (ensures_of_error hx).mp hstep
    · exact .inl ((congrArg Fault.isResource (locateError_fault p s' e)).trans h)
    · exact .inr h

/-- A call of a value, with what is called and its arguments on the stash. -/
theorem follows_call (hr : r.Faithful p fuel) (ht : p.tree.WellPlaced) {f : Value} {args : List Value}
    {receiver : Option Value} {node : NodeId}
    (hs : s.At (.instr (.apply args.length receiver.isSome node) :: a)
      (args.reverse ++ f :: (receiver.toList ++ stash)) env) :
    Follows p fuel s (Structural.call p r f args receiver node s.store) (Yielded a stash env) := by
  cases f with
  | closure identity f => exact follows_callClosure hr ht hs
  | host identity f => exact follows_callHost hs
  | continuation snapshot =>
    -- There is no such snapshot as long as none has been captured.
    refine follows_applied hs (x := invoke p snapshot args node) rfl fun t _ hsnapshots => ?_
    unfold invoke Structural.call
    dsimp only
    by_cases harity : 1 < args.length
    · rw [if_pos harity, if_pos harity]
      exact agrees_failAt _ _
    · rw [if_neg harity, if_neg harity, get_bind, hsnapshots]
      exact agrees_failAt _ _
  | callCc =>
    by_cases harity : args.length = 1
    · obtain ⟨function, rfl⟩ := List.length_eq_one_iff.mp harity
      exact .inl (escapes_callCc hs)
    · refine follows_applied hs (x := applyCallCc p args node) rfl fun t _ _ => ?_
      unfold Structural.call applyCallCc
      dsimp only
      rw [if_neg harity]
      rcases args with _ | ⟨first, _ | ⟨second, rest⟩⟩
      · exact agrees_failAt _ _
      · exact absurd rfl harity
      · exact agrees_failAt _ _
  | _ => exact follows_applied hs rfl fun t _ _ => agrees_failAt _ _

end Machine

end ExplicitControl
