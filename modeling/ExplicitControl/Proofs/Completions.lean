import ExplicitControl.Proofs.Follows
import ExplicitControl.Proofs.Turns

/-!
# Where a completed statement leaves the machine

Each completion has its place on the agenda.  A statement that completes normally leaves its value on the
stash and the work behind it as it was, except that the end of a scope or a call which comes next may have
been given another call to end.  `break` and `continue` leave a search for the end of the loop, and `return`
leaves the work behind the end of the function.  The environment is as it was unless the next item brings
another back.
-/

namespace ExplicitControl

namespace Agenda

/-- The same work, but for what the first item ends if it ends a scope or a call. -/
def SameWork (a b : Agenda) : Prop :=
  b = a ∨ ∃ env closesCall closesCall' rest, a = .instr (.restore env closesCall) :: rest ∧
    b = .instr (.restore env closesCall') :: rest

theorem SameWork.eq {a b : Agenda} (h : SameWork a b) (ha : a.endsScope = false) : b = a := by
  obtain rfl | ⟨env, c, c', rest, rfl, -⟩ := h
  · rfl
  · cases ha

end Agenda

open Agenda

structure Yielded (a : Agenda) (stash : Stash) (env : Env) (v : Value) (s : State) : Prop where
  agenda : a.SameWork s.agenda
  stash : s.stash = v :: stash
  env : a.endsScope = true ∨ s.env = env

/-- A jump is on its way to where it would lead from `a`. -/
structure Jumped (target : Marker) (again : Instr) (a : Agenda) (stash : Stash) (env : Env) (s : State) :
    Prop where
  agenda : ∃ b, s.agenda = .instr again :: b ∧ searchLoop target b = searchLoop target a
  stash : s.stash = stash
  env : a.endsScope = true ∨ s.env = env

/-- The rest of the function has been dropped, and its value computed. -/
structure Left (a : Agenda) (stash : Stash) (v : Value) (s : State) : Prop where
  agenda : (unwindCall a).SameWork s.agenda
  stash : s.stash = v :: stash

def Completed (a : Agenda) (stash : Stash) (env : Env) : Completion → State → Prop
  | .normal v => Yielded a stash env v
  | .broke node => Jumped .loopEnd (.breakLoop node) a stash env
  | .continued node => Jumped .tripEnd (.continueLoop node) a stash env
  | .returned v => Left a stash v

section

variable {a : Agenda} {stash : Stash} {env : Env} {s : State}

theorem State.At.yielded {v : Value} (h : s.At a (v :: stash) env) : Yielded a stash env v s :=
  ⟨.inl h.agenda, h.stash, .inr h.env⟩

theorem Yielded.at {v : Value} (h : Yielded a stash env v s) (ha : a.endsScope = false) :
    s.At a (v :: stash) env :=
  ⟨h.agenda.eq ha, h.stash, h.env.resolve_left (by rw [ha]; decide)⟩

/-- Before the end of a scope the environment does not matter. -/
theorem Completed.endsScope {c : Completion} (h : Completed a stash env c s) (ha : a.endsScope = true)
    (env' : Env) : Completed a stash env' c s := by
  cases c with
  | normal v => exact ⟨h.agenda, h.stash, .inl ha⟩
  | broke node => exact ⟨h.agenda, h.stash, .inl ha⟩
  | continued node => exact ⟨h.agenda, h.stash, .inl ha⟩
  | returned v => exact h

/-- Any other completion goes past items that a search passes by. -/
theorem Completed.behind (item : Item) (dropped : Agenda) {c : Completion}
    (h : Completed (item :: dropped ++ a) stash env c s)
    (hdropped : ∀ target, ∀ i ∈ item :: dropped, i.isPassed target = true) (hc : ∀ v, c ≠ .normal v) :
    Completed a stash env c s := by
  have hitem : item.isRestore = false := (Item.isPassed_iff.mp (hdropped .call item List.mem_cons_self)).2
  have hcall : ∀ i ∈ item :: dropped, i.isMarker .call = false := fun i hi =>
    (Item.isPassed_iff.mp (hdropped .call i hi)).1.2
  have henv : Agenda.endsScope (item :: dropped ++ a) = true ∨ s.env = env → s.env = env := fun h =>
    h.resolve_left (by rw [List.cons_append, endsScope_cons hitem]; decide)
  -- A search goes on through passed items, so it leads to the same place from behind them.
  have jumped : ∀ {target again}, Jumped target again (item :: dropped ++ a) stash env s →
      Jumped target again a stash env s := by
    intro target again h
    obtain ⟨b, hb, hsearch⟩ := h.agenda
    exact ⟨⟨b, hb, hsearch.trans (searchLoop_append a (hdropped target))⟩, h.stash, .inr (henv h.env)⟩
  cases c with
  | normal v => exact absurd rfl (hc v)
  | broke node => exact jumped h
  | continued node => exact jumped h
  | returned v => exact ⟨unwindCall_append a hcall ▸ h.agenda, h.stash⟩

end

namespace Machine

variable {α : Type} {p : Setting} {fuel : Nat} {a : Agenda} {stash : Stash} {env : Env} {s : State}

/-! ## 1. Results -/

/-- The result of an operation is pushed. -/
theorem Agrees.push {x : MachineM Value} {y : EvalM Value} (h : Agrees (x s) (y s.store) (Steady s))
    (hs : s.At a stash env) :
    Agrees ((x >>= push) s) (y s.store) fun _ => Yielded a stash env := by
  refine h.andThen fun v w s' hsteady => ?_
  obtain ⟨rfl, st, rfl⟩ := hsteady
  exact ⟨(), _, rfl, rfl, .inl hs.agenda, congrArg (v :: ·) hs.stash, .inr hs.env⟩

/-! ## 2. Jumps -/

section

variable {target : Marker} {keyword : String} {again : Instr} {node : NodeId} {post : α → State → Prop}

/-- A jump that comes to its marker goes on behind it, with `undefined` as the value. -/
theorem follows_reached (hagain : execInstr p again = leaveLoop p target keyword again node)
    (h : Jumped target again a stash env s) (ha : a.endsScope = false) {rest : Agenda}
    (hreached : searchLoop target a = .reached rest) {g : EvalM α}
    (hg : ∀ t : State, t.At rest (.undefined :: stash) env → Follows p fuel t (g t.store) post) :
    Follows p fuel s (g s.store) post := by
  obtain ⟨b, hb, hsearch⟩ := h.agenda
  have hs : s.At (.instr again :: b) stash env :=
    ⟨hb, h.stash, h.env.resolve_left (by rw [ha]; decide)⟩
  refine follows_silent hs (fun t ht => ?_) hg
  have ht' : searchLoop target t.agenda = .reached rest := by rw [ht.agenda, hsearch, hreached]
  rw [hagain, leaveLoop_reached p ht']
  exact ⟨_, rfl, rfl, rfl, congrArg (Value.undefined :: ·) ht.stash, ht.env⟩

/-- A jump that leads out of its function, or out of all work, fails. -/
theorem follows_outside (hagain : execInstr p again = leaveLoop p target keyword again node)
    (h : Jumped target again a stash env s) (houtside : searchLoop target a = .outside) :
    Follows p fuel s (Structural.failAt p node (.controlOutsideLoop keyword) s.store : EStateM.Result Stop Store α)
      post := by
  obtain ⟨b, hb, hsearch⟩ := h.agenda
  refine follows_last (y := Structural.failAt p node (.controlOutsideLoop keyword))
    ⟨hb, rfl, rfl⟩ fun t ht _ => ?_
  have ht' : searchLoop target t.agenda = .outside := by rw [ht.agenda, hsearch, houtside]
  rw [hagain, leaveLoop_outside p ht']
  exact agrees_failAt node _

/-- A jump that comes to the end of a scope brings the environment back and goes on. -/
theorem follows_scope (hagain : execInstr p again = leaveLoop p target keyword again node) {env' : Env}
    (h : Jumped target again (.instr (.restore env false) :: a) stash env' s) {g : EvalM α}
    (hg : ∀ t : State, Jumped target again a stash env t → Follows p fuel t (g t.store) post) :
    Follows p fuel s (g s.store) post := by
  obtain ⟨b, hb, hsearch⟩ := h.agenda
  have hs : s.At (.instr again :: b) stash s.env := ⟨hb, h.stash, rfl⟩
  refine follows_silent hs (fun t ht => ?_) fun (t : State)
    (ht : t.At (.instr (.restore env false) :: .instr again :: a) stash s.env) => ?_
  · have ht' : searchLoop target t.agenda = .scope (.instr (.restore env false)) a := by
      rw [ht.agenda, hsearch, searchLoop_restore]
    rw [hagain, leaveLoop_scope p ht']
    exact ⟨_, rfl, rfl, rfl, ht.stash, ht.env⟩
  · refine follows_silent ht (fun u hu => ?_) fun (u : State) (hu : u.At (.instr again :: a) stash env) => ?_
    · exact ⟨_, rfl, rfl, hu.agenda, hu.stash, rfl⟩
    · exact hg u ⟨⟨a, hu.agenda, rfl⟩, hu.stash, .inr hu.env⟩

end

/-! ## 3. Scopes -/

/-- Behind a scope that is entered in `env`, with `a` as the work to be done then, comes `b`: first the end of
the scope, unless an environment is brought back anyway or the scope has none of its own. -/
def Scoped (env inner : Env) (a b : Agenda) : Prop :=
  b = .instr (.restore env false) :: a ∨ b = a ∧ (a.endsScope = true ∨ inner = env)

/-- The end of a scope brings the environment back. -/
theorem follows_restore {inner : Env} {closesCall : Bool} {v : Value} {post : α → State → Prop}
    (h : Yielded (.instr (.restore env closesCall) :: a) stash inner v s) {g : EvalM α}
    (hg : ∀ t : State, t.At a (v :: stash) env → Follows p fuel t (g t.store) post) :
    Follows p fuel s (g s.store) post := by
  obtain ⟨closesCall', hagenda⟩ : ∃ closesCall', s.agenda = .instr (.restore env closesCall') :: a := by
    obtain h | ⟨_, _, closesCall', _, heq, h⟩ := h.agenda
    · exact ⟨closesCall, h⟩
    · cases heq
      exact ⟨closesCall', h⟩
  have hs : s.At (.instr (.restore env closesCall') :: a) (v :: stash) s.env := ⟨hagenda, h.stash, rfl⟩
  refine follows_silent hs (fun t ht => ?_) hg
  cases closesCall' with
  | true => exact ⟨_, rfl, rfl, ht.agenda, ht.stash, rfl⟩
  | false => exact ⟨_, rfl, rfl, ht.agenda, ht.stash, rfl⟩

/-- A completion inside of a scope is the same completion of the scope. -/
theorem follows_unscoped {inner : Env} {b : Agenda} (hb : Scoped env inner a b) {c : Completion}
    (h : Completed b stash inner c s) :
    Follows p fuel s ((pure c : EvalM Completion) s.store) (Completed a stash env) := by
  -- The end of the scope is still to come, or another brings the environment back, or there is none.
  obtain rfl | ⟨rfl, hscope | rfl⟩ := hb
  · cases c with
    | normal v => exact follows_restore h (g := pure (Completion.normal v)) fun t ht => follows_pure ht.yielded
    | broke node => exact follows_scope rfl h (g := pure (Completion.broke node)) fun t ht => follows_pure ht
    | continued node =>
      exact follows_scope rfl h (g := pure (Completion.continued node)) fun t ht => follows_pure ht
    | returned v => exact follows_pure ⟨h.agenda, h.stash⟩
  · exact follows_pure (h.endsScope hscope env)
  · exact follows_pure h

theorem Follows.unscoped {inner : Env} {b : Agenda} (hb : Scoped env inner a b) {y : EvalM Completion}
    {st : Store} (h : Follows p fuel s (y st) (Completed b stash inner)) :
    Follows p fuel s (y st) (Completed a stash env) := by
  rw [← bind_pure y]
  exact h.bind fun c t ht => follows_unscoped hb ht

theorem at_opened (hs : s.At a stash env) :
    ∃ b, b.endsScope = true ∧ (∀ inner, Scoped env inner a b) ∧ s.opened.At b stash env ∧
      s.opened.store = s.store := by
  obtain ⟨rfl, rfl, rfl⟩ := hs
  have hopened : s.opened = if s.agenda.endsScope then s else
      { s with agenda := .instr (.restore s.env false) :: s.agenda } := rfl
  rw [hopened]
  -- The machine leaves the end of the scope away where the next item ends one anyway.
  by_cases hhead : s.agenda.endsScope = true
  · rw [if_pos hhead]
    exact ⟨s.agenda, hhead, fun _ => .inr ⟨rfl, .inl hhead⟩, ⟨rfl, rfl, rfl⟩, rfl⟩
  · rw [if_neg hhead]
    exact ⟨.instr (.restore s.env false) :: s.agenda, rfl, fun _ => .inl rfl, ⟨rfl, rfl, rfl⟩, rfl⟩

theorem agrees_enterFrame (name : String) (hs : s.At a stash env) :
    Agrees (enterFrame name s) (Structural.newFrame (fun id scopes => scopes.child env id name) s.store)
      fun _ inner t => t.At a stash inner := by
  obtain ⟨rfl, rfl, rfl⟩ := hs
  exact ⟨_, rfl, rfl, rfl, rfl⟩

theorem agrees_declareAll (body : List NodeId) (hs : s.At a stash env) :
    Agrees (declareAll p body s) (Structural.declareAll p body env s.store) (Steady s) := by
  obtain ⟨rfl, rfl, rfl⟩ := hs
  exact agrees_forM _ fun declared st => agrees_onName _ _ _

theorem Steady.at {b b' : α} {t : State} (h : Steady s b b' t) (hs : s.At a stash env) :
    t.At a stash env := by
  obtain ⟨-, st, rfl⟩ := h
  exact ⟨hs.agenda, hs.stash, hs.env⟩

/-- A block enters its scope, if it has one, and schedules its statements. -/
theorem agrees_evalBlock (body : List NodeId) (name : String) (hs : s.At a stash env) :
    Agrees (evalBlock p body name s) (Structural.blockScope p body name env s.store)
      fun _ inner t => ∃ b, Scoped env inner a b ∧ t.At (ofStatements body ++ b) stash inner := by
  rw [evalBlock_eq]
  unfold blockWork Structural.blockScope
  by_cases hdeclares : p.tree.hasDeclarations body = true
  · rw [if_pos hdeclares, if_pos hdeclares, if_pos hdeclares]
    obtain ⟨b, -, hscoped, hopened, hstore⟩ := at_opened hs
    rw [← hstore]
    refine (agrees_enterFrame name hopened).bind fun _ inner t ht => ?_
    refine (agrees_declareAll body ht).bind fun _ _ u hu => ?_
    have hu := hu.at ht
    exact ⟨inner, rfl, b, hscoped inner, congrArg (ofStatements body ++ ·) hu.agenda, hu.stash, hu.env⟩
  · rw [if_neg hdeclares, if_neg hdeclares, if_neg hdeclares]
    exact ⟨env, rfl, a, .inr ⟨rfl, .inr rfl⟩, congrArg (ofStatements body ++ ·) hs.agenda, hs.stash, hs.env⟩

end Machine

end ExplicitControl
