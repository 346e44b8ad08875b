import ExplicitControl.Proofs.Faithful

/-!
# Loops of a faithful evaluator

The items of a loop stand before the marker of its end, and those of a trip before the marker of the trip's
end.  So wherever the body jumps to is known before it is evaluated, and a loop is followed by induction on the
trips that the evaluator still has fuel for.
-/

namespace ExplicitControl.Machine

open Agenda

variable {α : Type} {p : Setting} {fuel n : Nat} {r : Structural.Evaluator} {a : Agenda} {stash : Stash}
  {env : Env} {s : State}

/-! ## 1. A trip -/

/-- The body of a loop, before the end of the trip. Behind that come the items `rest`, which lead to another
trip and to the end of the loop. -/
theorem follows_trip (hr : r.Faithful p fuel) (hn : n ≤ fuel) {body : NodeId}
    (hbody : p.tree.isStatement body = true) {last : Value} {rest : Agenda}
    (hs : s.At (.instr .pop :: .node body :: .instr (.marker .tripEnd) :: rest) (last :: stash) env)
    (hloop : searchLoop .loopEnd rest = .reached a) (hcall : unwindCall rest = unwindCall a)
    {next : Value → EvalM Completion}
    (hnext : ∀ (v : Value) (t : State), t.At rest (v :: stash) env →
      Follows p n t (next v t.store) (Completed a stash env)) :
    Follows p n s ((r.statement body env >>= Structural.afterBody next) s.store)
      (Completed a stash env) := by
  refine follows_pop hs fun t ht => ?_
  refine ((hr.statement hbody ht).less hn).bind fun c u hu => ?_
  have htrip : Agenda.endsScope (.instr (.marker .tripEnd) :: rest) = false := rfl
  -- Each completion finds its place behind the body: the marker of the trip, that of the loop, or neither.
  cases c with
  | normal v =>
    refine follows_silent (Yielded.at hu htrip) (fun w hw => ?_) (hnext v)
    exact ⟨w, rfl, rfl, hw⟩
  | continued node => exact follows_reached rfl hu htrip (searchLoop_target rest) (hnext .undefined)
  | broke node =>
    refine follows_reached rfl hu htrip hloop (g := pure (Completion.normal .undefined))
      fun w hw => follows_pure hw.yielded
  | returned v =>
    refine follows_pure ⟨?_, hu.stash⟩
    rw [← hcall]
    exact hu.agenda

/-- The marker of the end of a loop is passed by when the loop ends by itself. -/
theorem follows_loopEnd {v : Value} (hs : s.At (.instr (.marker .loopEnd) :: a) (v :: stash) env) :
    Follows p fuel s ((pure (.normal v) : EvalM Completion) s.store) (Completed a stash env) :=
  follows_silent hs (g := pure (Completion.normal v)) (fun t ht => ⟨t, rfl, rfl, ht⟩)
    fun _ ht => follows_pure ht.yielded

/-! ## 2. `while` -/

theorem follows_whileTrips (hr : r.Faithful p fuel) {id test body : NodeId}
    (htest : p.tree.isExpression test = true) (hbody : p.tree.isStatement body = true) :
    ∀ (n : Nat), n ≤ fuel → ∀ {last : Value} {s : State},
      s.At (.node test :: .instr (.whileTest test body id) :: .instr (.marker .loopEnd) :: a)
        (last :: stash) env →
      Follows p n s (Structural.whileTrips p r id test body env n last s.store) (Completed a stash env) := by
  intro n
  -- On the trips that there is fuel for; the fuel of the body may be more.
  induction n with
  | zero => exact fun _ _ s _ => follows_outOfFuel s.store
  | succ n ih =>
    intro hn last s hs
    have hn' := Nat.le_of_succ_le hn
    let again : Agenda :=
      .node test :: .instr (.whileTest test body id) :: .instr (.marker .loopEnd) :: a
    have trip : ∀ t : State,
        t.At (.instr .pop :: .node body :: .instr (.marker .tripEnd) :: again) (last :: stash) env →
        Follows p n t ((r.statement body env >>=
          Structural.afterBody (Structural.whileTrips p r id test body env n)) t.store)
          (Completed a stash env) :=
      fun t ht => follows_trip hr hn' hbody ht rfl rfl fun v t ht => ih hn' ht
    refine ((hr.expression htest hs).less hn).bind fun v t ht => ?_
    refine follows_ask (ht.at rfl) (fun v => v.condition "while" p.checks) rfl fun b u hu => ?_
    cases b with
    | true =>
      have hagenda := congrArg ([Item.instr .pop, .node body, .instr (.marker .tripEnd), .node test,
        .instr (.whileTest test body id)] ++ ·) hu.agenda
      exact ⟨_, rfl, rfl, trip _ ⟨hagenda, hu.stash, hu.env⟩⟩
    | false => exact ⟨u, rfl, rfl, follows_loopEnd hu⟩

/-! ## 3. `for` -/

theorem follows_loopTest (hr : r.Faithful p fuel) {test : Option NodeId}
    (htest : ∀ id ∈ test, p.tree.isExpression id = true) (hs : s.At (loopTest test :: a) stash env) :
    Follows p fuel s (Structural.loopTest r env test s.store) (Yielded a stash env) := by
  cases test with
  | some test => exact hr.expression (htest test rfl) hs
  | none =>
    refine follows_last (y := pure (Value.bool true)) hs fun t ht _ => ?_
    exact ⟨.bool true, rfl, .inl ht.agenda, congrArg (Value.bool true :: ·) ht.stash, .inr ht.env⟩

/-- Fresh copies of variables live in another frame; without variables there is none. -/
theorem follows_freshTrip {vars : List Name} (hs : s.At (.instr (.freshTrip vars) :: a) stash env)
    {g : Env → EvalM α} {post : α → State → Prop}
    (hg : ∀ (fresh : Env) (t : State), t.At a stash fresh → (vars = [] → fresh = env) →
      Follows p fuel t (g fresh t.store) post) :
    Follows p fuel s ((Structural.freshTrip vars env >>= g) s.store) post := by
  refine (follows_instr hs fun t ht _ => ?_).less (Nat.le_succ fuel)
  obtain ⟨rfl, rfl, rfl⟩ := ht
  cases vars with
  | nil => exact ⟨t.env, rfl, hg t.env t ⟨rfl, rfl, rfl⟩ fun _ => rfl⟩
  | cons name rest =>
    let make (id : UInt32) (scopes : Scopes) := scopes.copyBindings t.env id (name :: rest)
    show Agrees ((newFrame make >>= setEnv) t) (Structural.newFrame make t.store) _
    refine (agrees_newFrame make).andThen
      fun fresh fresh' u hu => ?_
    obtain ⟨rfl, st, rfl⟩ := hu
    exact ⟨(), _, rfl, rfl, hg fresh _ ⟨rfl, rfl, rfl⟩ (by simp)⟩

/-- The value of the update is dropped. -/
theorem follows_update (hr : r.Faithful p fuel) {update? : Option NodeId}
    (hupdate : ∀ id ∈ update?, p.tree.isExpression id = true)
    (hs : s.At ((update?.map fun id => [Item.node id, .instr .pop]).getD [] ++ a) stash env) :
    Follows p fuel s (Structural.update r env update? s.store) fun _ t => t.At a stash env := by
  cases update? with
  | none => exact follows_pure hs
  | some id =>
    refine (hr.expression (hupdate id rfl) hs).bind fun v t ht => ?_
    exact follows_pop (ht.at rfl) (g := pure ()) fun u hu => follows_pure hu

section

variable {id body : NodeId} {test update? : Option NodeId} {vars : List Name}

/-- A trip with fresh variables is over in an environment of its own, but the end of the loop's scope comes
next. -/
theorem completed_trip {fresh : Env} {c : Completion} (h : Completed a stash fresh c s)
    (ha : vars = [] ∨ a.endsScope = true) (hfresh : vars = [] → fresh = env) : Completed a stash env c s := by
  obtain hvars | hscope := ha
  · rw [← hfresh hvars]
    exact h
  · exact h.endsScope hscope env

/-- Unless the loop has no variables, its trips end in environments of their own, and the end of its scope
comes next. -/
theorem follows_forTrips (hr : r.Faithful p fuel) (htest : ∀ id ∈ test, p.tree.isExpression id = true)
    (hupdate : ∀ id ∈ update?, p.tree.isExpression id = true) (hbody : p.tree.isStatement body = true)
    (ha : vars = [] ∨ a.endsScope = true) :
    ∀ (n : Nat), n ≤ fuel → ∀ {last : Value} {env : Env} {s : State},
      s.At (loopTest test :: .instr (.forTest test update? body vars id) :: .instr (.marker .loopEnd) :: a)
        (last :: stash) env →
      Follows p n s (Structural.forTrips p r id test update? body vars n env last s.store)
        (Completed a stash env) := by
  intro n
  -- As for `while`, but each trip has an environment of its own.
  induction n with
  | zero => exact fun _ _ _ s _ => follows_outOfFuel s.store
  | succ n ih =>
    intro hn last env s hs
    have hn' := Nat.le_of_succ_le hn
    let updating := (update?.map fun id => [Item.node id, .instr .pop]).getD []
    let again : Agenda :=
      loopTest test :: .instr (.forTest test update? body vars id) :: .instr (.marker .loopEnd) :: a
    let next (v : Value) : EvalM Completion :=
      Structural.freshTrip vars env >>= fun fresh => Structural.update r fresh update? >>= fun _ =>
        Structural.forTrips p r id test update? body vars n fresh v
    have hnext : ∀ (v : Value) (t : State),
        t.At (.instr (.freshTrip vars) :: (updating ++ again)) (v :: stash) env →
        Follows p n t (next v t.store) (Completed a stash env) := by
      intro v t ht
      refine follows_freshTrip ht fun fresh u hu hfresh => ?_
      refine ((follows_update hr hupdate hu).less hn').bind fun _ w hw => ?_
      exact (ih hn' hw).mono fun _ _ hx => completed_trip hx ha hfresh
    have trip : ∀ t : State,
        t.At (.instr .pop :: .node body :: .instr (.marker .tripEnd) :: .instr (.freshTrip vars) ::
          (updating ++ again)) (last :: stash) env →
        Follows p n t ((r.statement body env >>= Structural.afterBody next) t.store)
          (Completed a stash env) := by
      intro t ht
      refine follows_trip hr hn' hbody ht ?_ ?_ hnext
      · cases test <;> cases update? <;> rfl
      · cases test <;> cases update? <;> rfl
    refine ((follows_loopTest hr htest hs).less hn).bind fun v t ht => ?_
    refine follows_ask (ht.at rfl) (fun v => v.condition "for" p.checks) rfl fun b u hu => ?_
    cases b with
    | false => exact ⟨u, rfl, rfl, follows_loopEnd hu⟩
    | true =>
      have hagenda : [.instr .pop, .node body, .instr (.marker .tripEnd), .instr (.freshTrip vars)] ++
          updating ++ [loopTest test, .instr (.forTest test update? body vars id)] ++ u.agenda =
          .instr .pop :: .node body :: .instr (.marker .tripEnd) :: .instr (.freshTrip vars) ::
            (updating ++ again) := by
        rw [hu.agenda, List.append_assoc, List.append_assoc]
        rfl
      exact ⟨_, rfl, rfl, trip _ ⟨hagenda, hu.stash, hu.env⟩⟩

/-- A `for` loop enters its scope, if it has one, and schedules its items. -/
theorem agrees_evalFor (init : Option NodeId) (hs : s.At a stash env) :
    Agrees (evalFor p id init test update? body s) (Structural.loopScope p init env s.store)
      fun _ scope t => ∃ b, Scoped env scope.2 a b ∧ (scope.1 = [] ∨ b.endsScope = true) ∧
        t.At (forItems id init test update? body scope.1 ++ b) stash scope.2 := by
  rw [evalFor_eq]
  unfold forWork Structural.loopScope
  cases loopDeclaration p init with
  | none => exact ⟨([], env), rfl, a, .inr ⟨rfl, .inr rfl⟩, .inl rfl,
      congrArg (forItems id init test update? body [] ++ ·) hs.agenda, hs.stash, hs.env⟩
  | some declared =>
    obtain ⟨node, name, kind⟩ := declared
    obtain ⟨b, hb, hscoped, hopened, hstore⟩ := at_opened hs
    dsimp only [Option.isSome_some]
    rw [if_pos rfl, ← hstore]
    refine (agrees_enterFrame "for" hopened).bind fun _ inner t ht => ?_
    obtain ⟨rfl, rfl, rfl⟩ := ht
    rw [get_bind]
    refine (agrees_onName node name (Scopes.declare t.env name kind.mutability)).bind fun _ _ u hu => ?_
    obtain ⟨-, st, rfl⟩ := hu
    exact ⟨([name], t.env), rfl, _, hscoped t.env, .inr hb, rfl, rfl, rfl⟩

/-- The trips begin with fresh variables, and with `undefined` as the value of the loop. -/
theorem follows_forStart (hr : r.Faithful p fuel) (htest : ∀ id ∈ test, p.tree.isExpression id = true)
    (hupdate : ∀ id ∈ update?, p.tree.isExpression id = true) (hbody : p.tree.isStatement body = true)
    (ha : vars = [] ∨ a.endsScope = true)
    (hs : s.At (.instr (.freshTrip vars) :: .instr (.push .undefined) :: loopTest test ::
      .instr (.forTest test update? body vars id) :: .instr (.marker .loopEnd) :: a) stash env) :
    Follows p fuel s ((Structural.freshTrip vars env >>= fun first =>
      Structural.forTrips p r id test update? body vars fuel first .undefined) s.store)
      (Completed a stash env) := by
  refine follows_freshTrip hs fun first t ht hfirst => ?_
  refine follows_silent ht (fun u hu => ?_) fun (u : State)
    (hu : u.At (loopTest test :: .instr (.forTest test update? body vars id) ::
      .instr (.marker .loopEnd) :: a) (.undefined :: stash) first) => ?_
  · exact ⟨_, rfl, rfl, hu.agenda, congrArg (Value.undefined :: ·) hu.stash, hu.env⟩
  · exact (follows_forTrips hr htest hupdate hbody ha fuel (Nat.le_refl _) hu).mono fun _ _ hx =>
      completed_trip hx ha hfirst

/-- The head of a `for` completes before its trips begin, with all their items behind it. -/
theorem follows_forLoop (hr : r.Faithful p fuel)
    {init : Option NodeId} (hinit : ∀ id ∈ init, p.tree.isStatement id = false → p.tree.isExpression id = true)
    (htest : ∀ id ∈ test, p.tree.isExpression id = true)
    (hupdate : ∀ id ∈ update?, p.tree.isExpression id = true) (hbody : p.tree.isStatement body = true)
    (ha : vars = [] ∨ a.endsScope = true) (hs : s.At (forItems id init test update? body vars ++ a) stash env) :
    Follows p fuel s (Structural.forLoop p r fuel id init test update? body vars env s.store)
      (Completed a stash env) := by
  let trips : EvalM Completion :=
    Structural.freshTrip vars env >>= fun first =>
      Structural.forTrips p r id test update? body vars fuel first .undefined
  let start : Agenda :=
    .instr (.freshTrip vars) :: .instr (.push .undefined) :: loopTest test ::
      .instr (.forTest test update? body vars id) :: .instr (.marker .loopEnd) :: a
  have htrips : ∀ t : State, t.At start stash env →
      Follows p fuel t (trips t.store) (Completed a stash env) :=
    fun _ => follows_forStart hr htest hupdate hbody ha
  show Follows p fuel s ((Structural.loopHead p r env init >>= Structural.afterHead trips) s.store) _
  cases init with
  | none => exact htrips s hs
  | some head =>
    unfold Structural.loopHead
    dsimp only
    cases hstatement : p.tree.isStatement head with
    | false =>
      show Follows p fuel s (((r.expression head env >>= fun v => pure (.normal v)) >>=
        Structural.afterHead trips) s.store) _
      rw [bind_assoc]
      refine (hr.expression (hinit head rfl hstatement) hs).bind fun v t ht => ?_
      exact follows_pop (ht.at rfl) htrips
    | true =>
      refine (hr.statement hstatement hs).bind fun c t ht => ?_
      -- From the head, `break` finds the end of this loop, and `continue` that of a trip around it.
      have hloop : searchLoop .loopEnd (.instr .pop :: start) = .reached a := by
        cases test <;> rfl
      have htrip : searchLoop .tripEnd (.instr .pop :: start) = searchLoop .tripEnd a := by
        cases test <;> rfl
      have hcall : unwindCall (.instr .pop :: start) = unwindCall a := by
        cases test <;> rfl
      cases c with
      | normal v => exact follows_pop (Yielded.at ht rfl) htrips
      | broke node =>
        exact follows_reached rfl ht rfl hloop (g := pure (Completion.normal .undefined))
          fun u hu => follows_pure hu.yielded
      | continued node =>
        obtain ⟨b, hb, hsearch⟩ := ht.agenda
        exact follows_pure ⟨⟨b, hb, hsearch.trans htrip⟩, ht.stash, .inr (ht.env.resolve_left Bool.false_ne_true)⟩
      | returned v =>
        refine follows_pure ⟨?_, ht.stash⟩
        rw [← hcall]
        exact ht.agenda

end

end ExplicitControl.Machine
