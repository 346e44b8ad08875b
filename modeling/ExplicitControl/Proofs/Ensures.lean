import ExplicitControl.Machine.Execute

/-!
# What an operation of the machine ensures

`Ensures x s post fail` says how the operation `x` ends when it is run from `s`: well, with a result and a
state that satisfy `post`, or in an error and a state that satisfy `fail`.  There is one rule for each way of
composing operations and one for each operation on a register, so that a statement about a handler is
reduced to one about the state that the handler leaves.
-/

namespace ExplicitControl.Machine

variable {α β : Type}

/-- Run from `s`, the operation ends well in a way that satisfies `post` or fails in one that satisfies
`fail`. -/
def Ensures (x : MachineM α) (s : State) (post : α → State → Prop) (fail : EvalError → State → Prop) :
    Prop :=
  match x s with
  | .ok a s' => post a s'
  | .error e s' => fail e s'

variable {s : State} {post : α → State → Prop} {fail : EvalError → State → Prop}

theorem ensures_of_ok {x : MachineM α} {a : α} {s' : State} (h : x s = .ok a s') :
    Ensures x s post fail ↔ post a s' := by
  rw [Ensures, h]

theorem ensures_of_error {x : MachineM α} {e : EvalError} {s' : State} (h : x s = .error e s') :
    Ensures x s post fail ↔ fail e s' := by
  rw [Ensures, h]

theorem Ensures.mono {x : MachineM α} {post' : α → State → Prop} {fail' : EvalError → State → Prop}
    (h : Ensures x s post fail) (hpost : ∀ a s', post a s' → post' a s')
    (hfail : ∀ e s', fail e s' → fail' e s') : Ensures x s post' fail' := by
  unfold Ensures at h ⊢
  cases hx : x s with
  | ok a s' => rw [hx] at h; exact hpost a s' h
  | error e s' => rw [hx] at h; exact hfail e s' h

/-- Two things may be found out about one operation. -/
theorem Ensures.and {x : MachineM α} {post' : α → State → Prop} {fail' : EvalError → State → Prop}
    (h : Ensures x s post fail) (h' : Ensures x s post' fail') :
    Ensures x s (fun a s' => post a s' ∧ post' a s') fail := by
  unfold Ensures at h h' ⊢
  cases hx : x s with
  | ok a s' => rw [hx] at h h'; exact ⟨h, h'⟩
  | error e s' => rw [hx] at h; exact h

/-! ## 1. Composition -/

theorem get_bind (f : State → MachineM α) (s : State) : (get >>= f) s = f s s := rfl

theorem modify_bind (f : State → State) (g : PUnit → MachineM α) (s : State) :
    (modify f >>= g) s = g ⟨⟩ (f s) := rfl

theorem schedule_bind (items : List Item) (f : Unit → MachineM α) (s : State) :
    (schedule items >>= f) s = f () { s with agenda := items ++ s.agenda } := rfl

theorem bind_of_ok {x : MachineM β} {f : β → MachineM α} {b : β} {s' : State} (h : x s = .ok b s') :
    (x >>= f) s = f b s' := by
  show EStateM.bind x f s = f b s'
  rw [EStateM.bind, h]

theorem bind_of_error {x : MachineM β} {f : β → MachineM α} {e : EvalError} {s' : State}
    (h : x s = .error e s') : (x >>= f) s = .error e s' := by
  show EStateM.bind x f s = .error e s'
  rw [EStateM.bind, h]

/-- What comes first may be replaced by what ends the same. -/
theorem bind_congr_first {x y : MachineM β} {f : β → MachineM α} {s₁ s₂ : State} (h : x s₁ = y s₂) :
    (x >>= f) s₁ = (y >>= f) s₂ := by
  show EStateM.bind x f s₁ = EStateM.bind y f s₂
  rw [EStateM.bind, EStateM.bind, h]

@[simp] theorem ensures_pure (a : α) : Ensures (pure a) s post fail ↔ post a s := Iff.rfl

@[simp] theorem ensures_bind (x : MachineM β) (f : β → MachineM α) :
    Ensures (x >>= f) s post fail ↔
      Ensures x s (fun b s' => Ensures (f b) s' post fail) fail := by
  simp only [Ensures, bind, EStateM.bind]
  cases x s <;> rfl

@[simp] theorem ensures_map (x : MachineM β) (f : β → α) :
    Ensures (f <$> x) s post fail ↔ Ensures x s (fun b s' => post (f b) s') fail := by
  simp only [Ensures, Functor.map, EStateM.map]
  cases x s <;> rfl

@[simp] theorem ensures_get {post : State → State → Prop} :
    Ensures get s post fail ↔ post s s := Iff.rfl

@[simp] theorem ensures_modify (f : State → State) {post : PUnit → State → Prop} :
    Ensures (modify f) s post fail ↔ post ⟨⟩ (f s) := Iff.rfl

@[simp] theorem ensures_modifyGet (f : State → α × State) :
    Ensures (modifyGet f) s post fail ↔ post (f s).1 (f s).2 := Iff.rfl

/-! ## 2. Failing at a node -/

/-- A node of the tree has a kind. -/
theorem ensures_kindOf {p : Setting} {node : NodeId} {kind : NodeKind}
    {post : NodeKind → State → Prop} (h : p.tree.kind? node = some kind) :
    Ensures (kindOf p node) s post fail ↔ post kind s := by
  rw [kindOf, h, ensures_pure]

/-! ## 3. Registers -/

theorem pop_eq {v : Value} {rest : Stash} (h : s.stash = v :: rest) :
    pop s = .ok v { s with stash := rest } := by
  unfold pop onStash Stash.pop
  rw [h]

theorem peek_eq {v : Value} {rest : Stash} (h : s.stash = v :: rest) :
    onStash Stash.peek s = .ok v { s with stash := v :: rest } := by
  unfold onStash Stash.peek
  rw [h]

/-- The values that were pushed last, in the order in which they were pushed. -/
theorem popN_eq {vs : List Value} {rest : Stash} (h : s.stash = vs.reverse ++ rest) :
    onStash (Stash.popN vs.length) s = .ok vs { s with stash := rest } := by
  -- The stash begins with the values reversed, since the last one is topmost.
  have htake : s.stash.take vs.length = vs.reverse := by rw [h, List.take_left' List.length_reverse]
  have hdrop : s.stash.drop vs.length = rest := by rw [h, List.drop_left' List.length_reverse]
  unfold onStash Stash.popN
  dsimp only
  rw [htake, hdrop, if_pos List.length_reverse, List.reverse_reverse]

theorem ensures_pop {post : Value → State → Prop} :
    Ensures pop s post fail ↔
      match s.stash with
      | [] => fail (.ofFault .stashUnderflow) { s with stash := [] }
      | v :: rest => post v { s with stash := rest } := by
  unfold Ensures pop onStash Stash.pop
  cases s.stash <;> rfl

theorem ensures_peek {post : Value → State → Prop} :
    Ensures (onStash Stash.peek) s post fail ↔
      match s.stash with
      | [] => fail (.ofFault .stashUnderflow) { s with stash := [] }
      | v :: rest => post v { s with stash := v :: rest } := by
  unfold Ensures onStash Stash.peek
  cases s.stash <;> rfl

theorem ensures_replaceTop (v : Value) {post : Unit → State → Prop} :
    Ensures (onStash (Stash.replaceTop v)) s post fail ↔
      match s.stash with
      | [] => fail (.ofFault .stashUnderflow) { s with stash := [] }
      | _ :: rest => post () { s with stash := v :: rest } := by
  unfold Ensures onStash Stash.replaceTop
  cases s.stash <;> rfl

theorem ensures_popN (n : Nat) {post : List Value → State → Prop} :
    Ensures (onStash (Stash.popN n)) s post fail ↔
      if n ≤ s.stash.length then post (s.stash.take n).reverse { s with stash := s.stash.drop n }
      else fail (.ofFault .stashUnderflow) s := by
  unfold Ensures onStash Stash.popN
  by_cases h : n ≤ s.stash.length
  · have : (s.stash.take n).length = n := by rw [List.length_take, Nat.min_eq_left h]
    simp only [this, h, ↓reduceIte]
  · have : (s.stash.take n).length ≠ n := by rw [List.length_take]; omega
    simp only [this, h, ↓reduceIte]

theorem ensures_onHeap (p : Setting) (node : NodeId) (op : EStateM Fault Heap α) :
    Ensures (onHeap p node op) s post fail ↔
      match op s.heap with
      | .ok a heap => post a { s with heap }
      | .error fault heap =>
        fail ((EvalError.ofFault fault).locate node (p.tree.span node)) { s with heap } := by
  unfold Ensures onHeap
  dsimp only
  cases op s.heap <;> rfl

theorem ensures_onName (p : Setting) (node : NodeId) (name : Name) (op : ScopeM α) :
    Ensures (onName p node name op) s post fail ↔
      match op s.scopes with
      | .ok a scopes => post a { s with scopes }
      | .error e scopes =>
        fail ((EvalError.ofFault (e.fault (p.nameText name))).locate node (p.tree.span node))
          { s with scopes } := by
  unfold Ensures onName
  dsimp only
  cases op s.scopes <;> rfl

theorem ensures_onHost (act : HostM α) (fault : HostError → EvalError) :
    Ensures (onHost act fault) s post fail ↔
      match act ⟨s.heap, s.output⟩ with
      | .ok a ⟨heap, output⟩ => post a { s with heap, output }
      | .error e ⟨heap, output⟩ => fail (fault e) { s with heap, output } := by
  unfold Ensures onHost
  dsimp only
  cases act ⟨s.heap, s.output⟩ <;> rfl

/-! ## 4. Limits -/

/-- The time is spent when the clock is looked at. -/
def Late (p : Setting) (look : Nat) : Prop :=
  ∃ limit ∈ p.config.timeLimit, limit * 1000000 < p.clock look

/-- A look at the clock, which is counted if there is a limit of time. -/
theorem checkDeadline_split (p : Setting) (s : State) :
    ∃ readings, (Late p readings ↔ Late p (s.readings + 1)) ∧
      (¬Late p s.readings ∧ checkDeadline p s = .ok () { s with readings } ∨
        Late p s.readings ∧ checkDeadline p s = .error (.ofFault (.timeout s.steps)) { s with readings }) := by
  cases h : p.config.timeLimit with
  | none =>
    have never : ∀ look, ¬Late p look := by
      rintro look ⟨limit, hlimit, -⟩
      rw [h] at hlimit
      cases hlimit
    refine ⟨s.readings, iff_of_false (never _) (never _), .inl ⟨never _, ?_⟩⟩
    rw [checkDeadline, h]
  | some limit =>
    have hlate : Late p s.readings ↔ limit * 1000000 < p.clock s.readings := by
      simp only [Late, h, Option.mem_some_iff, exists_eq_left']
    refine ⟨s.readings + 1, Iff.rfl, ?_⟩
    rw [hlate, checkDeadline, h]
    dsimp only
    generalize limit * 1000000 = spent
    split
    next hspent => exact .inr ⟨hspent, rfl⟩
    next hspent => exact .inl ⟨hspent, rfl⟩

/-- Looking at the clock changes nothing but the number of looks, and fails only for want of time. -/
theorem checkDeadline_cases (p : Setting) (s : State) :
    ∃ readings, checkDeadline p s = .ok () { s with readings } ∨
      checkDeadline p s = .error (.ofFault (.timeout s.steps)) { s with readings } := by
  obtain ⟨readings, -, ⟨-, h⟩ | ⟨-, h⟩⟩ := checkDeadline_split p s
  · exact ⟨readings, .inl h⟩
  · exact ⟨readings, .inr h⟩

theorem eq_of_checkDeadline {p : Setting} {s' : State} (h : checkDeadline p s = .ok () s') :
    ∃ readings, s' = { s with readings } := by
  obtain ⟨readings, hlook | hlook⟩ := checkDeadline_cases p s
  · cases hlook.symm.trans h
    exact ⟨readings, rfl⟩
  · cases hlook.symm.trans h

theorem ensures_checkDeadline {p : Setting} {post : Unit → State → Prop}
    (hpost : ∀ readings, post () { s with readings })
    (hfail : ∀ readings, fail (.ofFault (.timeout s.steps)) { s with readings }) :
    Ensures (checkDeadline p) s post fail := by
  obtain ⟨readings, h | h⟩ := checkDeadline_cases p s
  · exact (ensures_of_ok h).mpr (hpost readings)
  · exact (ensures_of_error h).mpr (hfail readings)

/-- Counting a step changes nothing but the two counters, and fails only at a limit. -/
theorem ensures_count {p : Setting} {post : Unit → State → Prop}
    (hpost : ∀ readings, post () { s with steps := s.steps + 1, readings })
    (hfail : ∀ readings,
      fail (.ofFault (.timeout (s.steps + 1))) { s with steps := s.steps + 1, readings }) :
    Ensures (tick p) s post fail := by
  have due : Ensures (if (s.steps + 1) % max p.config.checkInterval 1 = 0 then checkDeadline p
      else pure ()) { s with steps := s.steps + 1 } post fail := by
    split
    · exact ensures_checkDeadline hpost hfail
    · exact hpost _
  -- Either the limit of steps is reached, or now and then the clock is looked at.
  simp only [tick, ensures_bind, ensures_modify, ensures_get]
  split
  · exact hfail _
  · exact due

theorem ensures_tick {p : Setting} {post : Unit → State → Prop}
    (hpost : ∀ steps readings, post () { s with steps, readings })
    (hfail : ∀ steps readings n, fail (.ofFault (.timeout n)) { s with steps, readings }) :
    Ensures (tick p) s post fail :=
  ensures_count (fun readings => hpost _ readings) fun readings => hfail _ readings _

/-- A step is counted, or it is one too many. -/
theorem tick_counts (p : Setting) (s : State) :
    ∃ readings, tick p s = .ok () { s with steps := s.steps + 1, readings } ∨
      tick p s = .error (.ofFault (.timeout (s.steps + 1))) { s with steps := s.steps + 1, readings } := by
  have h : Ensures (tick p) s (fun _ s' => ∃ readings, s' = { s with steps := s.steps + 1, readings })
      fun e s' => ∃ readings, e = .ofFault (.timeout (s.steps + 1)) ∧
        s' = { s with steps := s.steps + 1, readings } :=
    ensures_count (fun readings => ⟨readings, rfl⟩) fun readings => ⟨readings, rfl, rfl⟩
  unfold Ensures at h
  cases hr : tick p s with
  | ok a s' =>
    rw [hr] at h
    obtain ⟨readings, rfl⟩ := h
    exact ⟨readings, .inl rfl⟩
  | error e s' =>
    rw [hr] at h
    obtain ⟨readings, rfl, rfl⟩ := h
    exact ⟨readings, .inr rfl⟩

theorem eq_of_tick {p : Setting} {s' : State} (h : tick p s = .ok () s') :
    ∃ readings, s' = { s with steps := s.steps + 1, readings } := by
  obtain ⟨readings, hcount | hcount⟩ := tick_counts p s
  · cases hcount.symm.trans h
    exact ⟨readings, rfl⟩
  · cases hcount.symm.trans h

theorem tick_cases (p : Setting) (s : State) :
    ∃ steps readings, tick p s = .ok () { s with steps, readings } ∨
      ∃ n, tick p s = .error (.ofFault (.timeout n)) { s with steps, readings } := by
  obtain ⟨readings, h | h⟩ := tick_counts p s
  · exact ⟨_, readings, .inl h⟩
  · exact ⟨_, readings, .inr ⟨_, h⟩⟩

/-- A call fits, or comes to the limit and is not recorded. -/
theorem pushCall_split (p : Setting) (node : NodeId) (frame : CallFrame) (s : State) :
    s.calls.depth < s.calls.maxDepth ∧ onCalls p node (CallStack.push frame) s =
        .ok () { s with calls := { s.calls with frames := s.calls.frames.push frame } } ∨
      s.calls.maxDepth ≤ s.calls.depth ∧ onCalls p node (CallStack.push frame) s =
        .error ((s.calls.overflow frame).locate node (p.tree.span node)) s := by
  unfold onCalls CallStack.push
  dsimp only
  by_cases hfull : s.calls.maxDepth ≤ s.calls.depth
  · rw [if_pos hfull]
    exact .inr ⟨hfull, rfl⟩
  · rw [if_neg hfull]
    exact .inl ⟨Nat.lt_of_not_le hfull, rfl⟩

theorem pushCall_cases (p : Setting) (node : NodeId) (frame : CallFrame) (s : State) :
    onCalls p node (CallStack.push frame) s =
        .ok () { s with calls := { s.calls with frames := s.calls.frames.push frame } } ∨
      ∃ e, onCalls p node (CallStack.push frame) s = .error e s ∧ e.fault.isResource = true :=
  (pushCall_split p node frame s).imp And.right fun h => ⟨_, h.2, rfl⟩

/-! ## 5. Handlers in parts -/

def applyValue (p : Setting) (callee : Value) (args : List Value) (receiver : Option Value)
    (node : NodeId) : MachineM Unit := do
  checkDeadline p
  match callee with
  | .callCc => applyCallCc p args node
  | callee => applyPlain p callee args receiver node (calleeName p node callee)

/-- What is called, with its arguments and receiver, is taken off the stash first. -/
theorem apply_eq (p : Setting) (arity : Nat) (hasReceiver : Bool) (node : NodeId) :
    apply p arity hasReceiver node = (do
      let args ← onStash (Stash.popN arity)
      let callee ← pop
      let receiver ← if hasReceiver then some <$> pop else pure none
      applyValue p callee args receiver node) := rfl

section

variable {target : Marker} {keyword : String} {again : Instr} {node : NodeId} {rest : Agenda}

theorem leaveLoop_reached (p : Setting) (h : Agenda.searchLoop target s.agenda = .reached rest) :
    leaveLoop p target keyword again node s =
      .ok () { s with agenda := rest, stash := .undefined :: s.stash } := by
  unfold leaveLoop
  rw [get_bind, h]
  rfl

theorem leaveLoop_scope (p : Setting) {item : Item}
    (h : Agenda.searchLoop target s.agenda = .scope item rest) :
    leaveLoop p target keyword again node s =
      .ok () { s with agenda := item :: .instr again :: rest } := by
  unfold leaveLoop
  rw [get_bind, h]
  rfl

theorem leaveLoop_outside (p : Setting) (h : Agenda.searchLoop target s.agenda = .outside) :
    leaveLoop p target keyword again node s = failAt p node (.controlOutsideLoop keyword) s := by
  unfold leaveLoop
  rw [get_bind, h]

end

end ExplicitControl.Machine
