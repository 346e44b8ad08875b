import ExplicitControl.Proofs.Structural
import ExplicitControl.Proofs.Travel

/-!
# Runs that follow an evaluation

The machine follows an evaluation if its run comes to a state with the store that the evaluation ends in, or
fails as it does, or goes on for as long as the evaluation has fuel.  Where the run comes to a limit or a
continuation is captured, nothing is said.  Following is closed under sequencing, so the rules here reduce a
statement about a node to one about each of its items.
-/

namespace ExplicitControl

def State.store (s : State) : Store :=
  ⟨s.scopes, s.heap, s.nextEnvId, s.nextIdentity, s.current, s.output⟩

def State.withStore (s : State) (st : Store) : State :=
  { s with
    scopes := st.scopes
    heap := st.heap
    nextEnvId := st.nextEnvId
    nextIdentity := st.nextIdentity
    current := st.current
    output := st.output }

structure State.At (s : State) (agenda : Agenda) (stash : Stash) (env : Env) : Prop where
  agenda : s.agenda = agenda
  stash : s.stash = stash
  env : s.env = env

def Progress.Escapes (r : Progress) : Prop :=
  r.isLimited = true ∨ r.state.snapshots ≠ #[]

theorem Structural.get_bind {α : Type} (f : Store → EvalM α) (st : Store) :
    (get >>= f) st = f st st := rfl

namespace Machine

variable {α β : Type} {p : Setting}

/-- From `s` the run leads to where the evaluation `r` does, as `post` says of the state. An evaluation that
runs out of fuel leaves the machine with that many steps to take at least. -/
def Follows (p : Setting) (fuel : Nat) (s : State) (r : EStateM.Result Stop Store α)
    (post : α → State → Prop) : Prop :=
  (∃ k, (travel p k s).Escapes) ∨
    match r with
    | .ok a st => ∃ k s', travel p k s = .running s' ∧ s'.store = st ∧ post a s'
    | .error (.failed e) st => ∃ k s', travel p k s = .failed (locateError p s' e) s' ∧ s'.store = st
    -- What the evaluation would have done with more fuel is left open.
    | .error .outOfFuel _ => ∃ s', travel p fuel s = .running s'
    | .error .captured _ => False

/-! ## 1. Sequences -/

section

variable {fuel n : Nat} {s s' : State} {post : α → State → Prop}

theorem escapes_of_running (h : travel p n s = .running s') (hs : ∃ k, (travel p k s').Escapes) :
    ∃ k, (travel p k s).Escapes := by
  obtain ⟨k, hk⟩ := hs
  exact ⟨n + k, by rw [travel, travelBy_add k h]; exact hk⟩

/-- A run that goes on for some steps goes on for fewer. -/
theorem running_of_le {m : Nat} (hm : m ≤ n) (h : travel p n s = .running s') :
    ∃ t, travel p m s = .running t := by
  obtain ⟨k, rfl⟩ := Nat.exists_eq_add_of_le hm
  cases hr : travel p m s with
  | running t => exact ⟨t, rfl⟩
  | finished v t =>
    rw [travel, travelBy_ended k hr (by simp)] at h
    cases h
  | failed e t =>
    rw [travel, travelBy_ended k hr (by simp)] at h
    cases h

theorem Follows.less {r : EStateM.Result Stop Store α} (h : Follows p n s r post) (hle : fuel ≤ n) :
    Follows p fuel s r post := by
  obtain h | h := h
  · exact .inl h
  refine .inr ?_
  cases r with
  | ok a st => exact h
  | error e st =>
    cases e with
    | failed e => exact h
    | captured => exact h
    | outOfFuel =>
      obtain ⟨t, ht⟩ := h
      exact running_of_le hle ht

/-- A run that has come to `s'` may follow the evaluation from there. -/
theorem Follows.behind {r : EStateM.Result Stop Store α} (hrun : travel p n s = .running s')
    (h : Follows p fuel s' r post) : Follows p (n + fuel) s r post := by
  obtain h | h := h
  · exact .inl (escapes_of_running hrun h)
  refine .inr ?_
  cases r with
  | ok a st =>
    obtain ⟨k, t, hk, hstore, hpost⟩ := h
    exact ⟨n + k, t, by rw [travel, travelBy_add k hrun]; exact hk, hstore, hpost⟩
  | error e st =>
    cases e with
    | failed e =>
      obtain ⟨k, t, hk, hstore⟩ := h
      exact ⟨n + k, t, by rw [travel, travelBy_add k hrun]; exact hk, hstore⟩
    | captured => exact h
    | outOfFuel =>
      obtain ⟨t, ht⟩ := h
      exact ⟨t, by rw [travel, travelBy_add fuel hrun]; exact ht⟩

/-- One part of an evaluation after the other. -/
theorem Follows.bind {y : EvalM β} {g : β → EvalM α} {st : Store} {mid : β → State → Prop}
    (h : Follows p fuel s (y st) mid)
    (hg : ∀ b s', mid b s' → Follows p fuel s' (g b s'.store) post) :
    Follows p fuel s ((y >>= g) st) post := by
  obtain h | h := h
  · exact .inl h
  show Follows p fuel s (EStateM.bind y g st) post
  unfold EStateM.bind
  cases hy : y st with
  | ok b st' =>
    rw [hy] at h
    obtain ⟨k, s', hk, rfl, hmid⟩ := h
    exact ((hg b s' hmid).behind hk).less (Nat.le_add_left _ _)
  | error e st' =>
    rw [hy] at h
    -- The evaluation is over with its first part.
    refine .inr ?_
    cases e with
    | failed e => exact h
    | captured => exact h
    | outOfFuel => exact h

theorem Follows.mono {r : EStateM.Result Stop Store α} {post' : α → State → Prop}
    (h : Follows p fuel s r post) (hpost : ∀ a s', post a s' → post' a s') :
    Follows p fuel s r post' := by
  obtain h | h := h
  · exact .inl h
  refine .inr ?_
  cases r with
  | error e st =>
    cases e with
    | failed e => exact h
    | captured => exact h
    | outOfFuel => exact h
  | ok a st =>
    obtain ⟨k, s', hk, hstore, ha⟩ := h
    exact ⟨k, s', hk, hstore, hpost a s' ha⟩

/-- Nothing is left of the evaluation. -/
theorem follows_pure {a : α} (h : post a s) :
    Follows p fuel s ((pure a : EvalM α) s.store) post :=
  .inr ⟨0, s, rfl, rfl, h⟩

/-- An evaluation that has no fuel at all. -/
theorem follows_outOfFuel (st : Store) :
    Follows p 0 s ((throw .outOfFuel : EvalM α) st) post :=
  .inr ⟨s, rfl⟩

end

/-! ## 2. Operations side by side -/

/-- An operation of the machine ends as a part of the evaluation does, unless it comes to a limit. -/
def Agrees (m : EStateM.Result EvalError State β) (r : EStateM.Result Stop Store α)
    (post : β → α → State → Prop) : Prop :=
  match m with
  | .ok b s => ∃ a, r = .ok a s.store ∧ post b a s
  | .error e s => e.fault.isResource = true ∨ r = .error (.failed e) s.store

section

variable {α' β' : Type} {s : State} {st : Store}

theorem Agrees.bind {x : MachineM β} {f : β → MachineM β'} {y : EvalM α} {g : α → EvalM α'}
    {mid : β → α → State → Prop} {post : β' → α' → State → Prop} (h : Agrees (x s) (y st) mid)
    (hfg : ∀ b a s', mid b a s' → Agrees (f b s') (g a s'.store) post) :
    Agrees ((x >>= f) s) ((y >>= g) st) post := by
  show Agrees (EStateM.bind x f s) (EStateM.bind y g st) post
  unfold EStateM.bind
  cases hx : x s with
  | ok b s' =>
    rw [hx] at h
    obtain ⟨a, ha, hmid⟩ := h
    rw [ha]
    exact hfg b a s' hmid
  | error e s' =>
    rw [hx] at h
    obtain h | h := h
    · exact .inl h
    · rw [h]
      exact .inr rfl

/-- What the operation does besides is no part of the evaluation. -/
theorem Agrees.andThen {x : MachineM β} {f : β → MachineM β'} {y : EvalM α}
    {mid : β → α → State → Prop} {post : β' → α → State → Prop} (h : Agrees (x s) (y st) mid)
    (hf : ∀ b a s', mid b a s' → ∃ c t, f b s' = .ok c t ∧ t.store = s'.store ∧ post c a t) :
    Agrees ((x >>= f) s) (y st) post := by
  rw [← bind_pure y]
  refine h.bind fun b a s' hmid => ?_
  obtain ⟨c, t, ht, hstore, hpost⟩ := hf b a s' hmid
  rw [ht]
  exact ⟨a, hstore ▸ rfl, hpost⟩

theorem Agrees.mono {m : EStateM.Result EvalError State β} {r : EStateM.Result Stop Store α}
    {post post' : β → α → State → Prop} (h : Agrees m r post)
    (hpost : ∀ b a s', post b a s' → post' b a s') : Agrees m r post' := by
  cases m with
  | ok b s =>
    obtain ⟨a, ha, hpost'⟩ := h
    exact ⟨a, ha, hpost b a s hpost'⟩
  | error e s => exact h

def Steady (s : State) (b a : α) (s' : State) : Prop :=
  b = a ∧ ∃ st, s' = s.withStore st

theorem Steady.of_withStore {b a : α} {s' : State} (h : Steady (s.withStore st) b a s') :
    Steady s b a s' := by
  obtain ⟨rfl, st', rfl⟩ := h
  exact ⟨rfl, st', rfl⟩

theorem agrees_pure (a : α) : Agrees ((pure a : MachineM α) s) ((pure a : EvalM α) s.store) (Steady s) :=
  ⟨a, rfl, rfl, s.store, rfl⟩

theorem agrees_failAt (node : NodeId) (fault : Fault) {post : β → α → State → Prop} :
    Agrees (failAt p node fault s) (Structural.failAt p node fault s.store) post :=
  .inr rfl

theorem agrees_orFailAt (node : NodeId) (r : Except Fault α) :
    Agrees (orFailAt p node r s) (Structural.orFailAt p node r s.store) (Steady s) := by
  cases r with
  | ok a => exact agrees_pure a
  | error fault => exact agrees_failAt node fault

theorem agrees_onName (node : NodeId) (name : Name) (op : ScopeM α) :
    Agrees (onName p node name op s) (Structural.onName p node name op s.store) (Steady s) := by
  unfold onName Structural.onName
  dsimp only [State.store]
  cases op s.scopes with
  | ok a scopes => exact ⟨a, rfl, rfl, { s.store with scopes }, rfl⟩
  | error e scopes => exact .inr rfl

theorem agrees_onHeap (node : NodeId) (op : EStateM Fault Heap α) :
    Agrees (onHeap p node op s) (Structural.onHeap p node op s.store) (Steady s) := by
  unfold onHeap Structural.onHeap
  dsimp only [State.store]
  cases op s.heap with
  | ok a heap => exact ⟨a, rfl, rfl, { s.store with heap }, rfl⟩
  | error e heap => exact .inr rfl

theorem agrees_allocate (make : Heap → Value × Heap) :
    Agrees (allocate make s) (Structural.allocate make s.store) (Steady s) :=
  ⟨_, rfl, rfl, { s.store with heap := (make s.heap).2 }, rfl⟩

theorem agrees_newFrame (make : UInt32 → Scopes → Env × Scopes) :
    Agrees (newFrame make s) (Structural.newFrame make s.store) (Steady s) :=
  ⟨_, rfl, rfl, { s.store with
    scopes := (make s.nextEnvId s.scopes).2
    nextEnvId := s.nextEnvId + 1 }, rfl⟩

theorem agrees_onHost (act : HostM α) (fault : HostError → EvalError) :
    Agrees (onHost act fault s) (Structural.onHost act fault s.store) (Steady s) := by
  unfold onHost Structural.onHost
  dsimp only [State.store]
  cases act ⟨s.heap, s.output⟩ with
  | ok a t => exact ⟨a, rfl, rfl, { s.store with heap := t.heap, output := t.output }, rfl⟩
  | error e t => exact .inr rfl

theorem agrees_forM {ι : Type} {f : ι → MachineM Unit} {g : ι → EvalM Unit} (xs : List ι)
    (hfg : ∀ i st, Agrees (f i (s.withStore st)) (g i st) (Steady (s.withStore st))) :
    Agrees (xs.forM f s) (xs.forM g s.store) (Steady s) := by
  -- Each round leaves another store, so the claim is for any store under the same registers.
  have general : ∀ (xs : List ι) (st : Store),
      Agrees (xs.forM f (s.withStore st)) (xs.forM g st) (Steady (s.withStore st)) := by
    intro xs
    induction xs with
    | nil => exact fun st => agrees_pure ()
    | cons i xs ih =>
      intro st
      refine (hfg i st).bind fun _ _ s' h => ?_
      obtain ⟨-, st', rfl⟩ := h
      exact (ih st').mono fun _ _ _ h => h.of_withStore
  exact general xs s.store

end

/-! ## 3. Items -/

section

variable {fuel : Nat} {s : State} {a : Agenda} {post : α → State → Prop}

/-- Carrying out the next item agrees with a part of the evaluation. -/
theorem follows_item {item : Item} (hs : s.agenda = item :: a) {y : EvalM β} {g : β → EvalM α}
    {st : Store} (h : Agrees (execute p item { s with agenda := a }) (y st)
      fun _ b s' => Follows p fuel s' (g b s'.store) post) :
    Follows p (fuel + 1) s ((y >>= g) st) post := by
  show Follows p (fuel + 1) s (EStateM.bind y g st) post
  unfold EStateM.bind
  cases hx : execute p item { s with agenda := a } with
  | ok _ s' =>
    rw [hx] at h
    obtain ⟨b, hy, hfollows⟩ := h
    have hrun : travel p 1 s = .running s' := travelBy_running 0 (advanceBy_ok hs hx)
    rw [hy, Nat.add_comm]
    exact hfollows.behind hrun
  | error e s' =>
    rw [hx] at h
    have hrun : travel p 1 s = .failed (locateError p s' e) s' := travelBy_failed 0 (advanceBy_error hs hx)
    -- A limit that the item comes to is none of the evaluation.
    obtain h | h := h
    · refine .inl ⟨1, .inl ?_⟩
      rw [hrun, Progress.isLimited, locateError_fault, h]
    · rw [h]
      exact .inr ⟨1, s', hrun, rfl⟩

/-- Counting a step changes no register that an evaluation knows of. -/
theorem agrees_tick {f : Unit → MachineM β} {r : EStateM.Result Stop Store α}
    {post : β → α → State → Prop}
    (h : ∀ steps readings, Agrees (f () { s with steps, readings }) r post) :
    Agrees ((tick p >>= f) s) r post := by
  obtain ⟨steps, readings, htick | ⟨n, htick⟩⟩ := tick_cases p s
  · rw [bind_of_ok htick]
    exact h steps readings
  · rw [bind_of_error htick]
    exact .inl rfl

/-- A node whose kind agrees with a part of its evaluation. -/
theorem follows_node {id : NodeId} {kind : NodeKind} (hkind : p.tree.kind? id = some kind)
    {stash : Stash} {env : Env} (hs : s.At (.node id :: a) stash env) {y : EvalM β} {g : β → EvalM α}
    (h : ∀ t : State, t.At a stash env → Agrees (evalKind p id kind t) (y t.store)
      fun _ b s' => Follows p fuel s' (g b s'.store) post) :
    Follows p (fuel + 1) s ((y >>= g) { s.store with current := some id }) post := by
  refine follows_item hs.agenda (agrees_tick fun steps readings => ?_)
  have hevalNode : ∀ t, evalNode p id t = evalKind p id kind t := by
    intro t
    rw [evalNode, kindOf, hkind]
    rfl
  show Agrees (evalNode p id _) _ _
  rw [hevalNode]
  exact h { s with agenda := a, steps, readings, current := some id } ⟨rfl, hs.stash, hs.env⟩

/-- A node whose evaluation is over when its step is. -/
theorem follows_leaf {id : NodeId} {kind : NodeKind} (hkind : p.tree.kind? id = some kind)
    {stash : Stash} {env : Env} (hs : s.At (.node id :: a) stash env) {y : EvalM α}
    (h : ∀ t : State, t.At a stash env → Agrees (evalKind p id kind t) (y t.store) fun _ => post) :
    Follows p (fuel + 1) s (y { s.store with current := some id }) post := by
  rw [← bind_pure y]
  exact follows_node hkind hs fun t ht => (h t ht).mono fun _ _ _ => follows_pure

/-- A node that only schedules items. -/
theorem follows_schedule {id : NodeId} {kind : NodeKind} (hkind : p.tree.kind? id = some kind)
    {stash : Stash} {env : Env} (hs : s.At (.node id :: a) stash env) {items : List Item}
    (hschedule : evalKind p id kind = schedule items) {g : EvalM α}
    (h : ∀ t : State, t.At (items ++ a) stash env → Follows p fuel t (g t.store) post) :
    Follows p (fuel + 1) s (g { s.store with current := some id }) post := by
  refine follows_node hkind hs (y := pure ()) (g := fun _ => g) fun t ht => ?_
  rw [hschedule]
  exact ⟨(), rfl, h _ ⟨congrArg (items ++ ·) ht.agenda, ht.stash, ht.env⟩⟩

/-- An instruction that agrees with a part of the evaluation. Before it no continuation has been captured. -/
theorem follows_instr {i : Instr} {stash : Stash} {env : Env} (hs : s.At (.instr i :: a) stash env)
    {y : EvalM β} {g : β → EvalM α}
    (h : ∀ t : State, t.At a stash env → t.snapshots = #[] → Agrees (execInstr p i t) (y t.store)
      fun _ b s' => Follows p fuel s' (g b s'.store) post) :
    Follows p (fuel + 1) s ((y >>= g) s.store) post := by
  -- Once a continuation has been captured nothing more is claimed.
  by_cases hsnapshots : s.snapshots = #[]
  · refine follows_item hs.agenda (agrees_tick fun steps readings => ?_)
    exact h { s with agenda := a, steps, readings } ⟨rfl, hs.stash, hs.env⟩ hsnapshots
  · exact .inl ⟨0, .inr hsnapshots⟩

/-- An instruction that is the last part of the evaluation. -/
theorem follows_last {i : Instr} {stash : Stash} {env : Env} (hs : s.At (.instr i :: a) stash env)
    {y : EvalM α} (h : ∀ t : State, t.At a stash env → t.snapshots = #[] →
      Agrees (execInstr p i t) (y t.store) fun _ => post) :
    Follows p fuel s (y s.store) post := by
  rw [← bind_pure y]
  refine Follows.less (follows_instr hs fun t ht hsnapshots => ?_) (Nat.le_succ fuel)
  exact (h t ht hsnapshots).mono fun _ _ _ => follows_pure

/-- An instruction that is no part of the evaluation. -/
theorem follows_silent {i : Instr} {stash stash' : Stash} {env env' : Env} {a' : Agenda}
    (hs : s.At (.instr i :: a) stash env)
    (hi : ∀ t : State, t.At a stash env → ∃ t', execInstr p i t = .ok () t' ∧ t'.store = t.store ∧
      t'.At a' stash' env') {g : EvalM α}
    (h : ∀ t : State, t.At a' stash' env' → Follows p fuel t (g t.store) post) :
    Follows p fuel s (g s.store) post := by
  refine Follows.less (follows_instr hs (y := pure ()) (g := fun _ => g) fun t ht _ => ?_)
    (Nat.le_succ fuel)
  obtain ⟨t', ht', hstore, hat⟩ := hi t ht
  rw [ht']
  exact ⟨(), hstore ▸ rfl, h t' hat⟩

/-- A value that nothing needs is dropped. -/
theorem follows_pop {v : Value} {stash : Stash} {env : Env}
    (hs : s.At (.instr .pop :: a) (v :: stash) env) {g : EvalM α}
    (h : ∀ t : State, t.At a stash env → Follows p fuel t (g t.store) post) :
    Follows p fuel s (g s.store) post := by
  refine follows_silent hs (fun t ht => ?_) h
  exact ⟨{ t with stash }, bind_of_ok (pop_eq ht.stash), rfl, ht.agenda, rfl, ht.env⟩

/-- An instruction that takes a value, asks it something that may fail, and leaves the store alone. -/
theorem follows_ask {i : Instr} {v : Value} {stash : Stash} {env : Env} {node : NodeId}
    (hs : s.At (.instr i :: a) (v :: stash) env) (ask : Value → Except Fault β)
    {next : Value → β → MachineM Unit}
    (hi : execInstr p i = pop >>= fun v => orFailAt p node (ask v) >>= next v) {g : β → EvalM α}
    (h : ∀ (b : β) (t : State), t.At a stash env → ∃ t', next v b t = .ok () t' ∧ t'.store = t.store ∧
      Follows p fuel t' (g b t'.store) post) :
    Follows p (fuel + 1) s ((Structural.orFailAt p node (ask v) >>= g) s.store) post := by
  refine follows_instr hs fun t ht _ => ?_
  rw [hi, bind_of_ok (pop_eq ht.stash)]
  refine (agrees_orFailAt node (ask v)).andThen fun b b' u hu => ?_
  obtain ⟨rfl, st, rfl⟩ := hu
  obtain ⟨t', hnext, hstore, hfollows⟩ := h b (State.withStore { t with stash } st) ⟨ht.agenda, rfl, ht.env⟩
  exact ⟨(), t', hnext, hstore, hfollows⟩

end

end Machine

end ExplicitControl
