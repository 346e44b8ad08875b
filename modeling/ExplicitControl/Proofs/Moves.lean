import ExplicitControl.Proofs.Frames
import ExplicitControl.Proofs.Travel

/-!
# What an item does to control and to frames

Here is said once what carrying out an item can do to the pending work, the current environment, the calls, the
frames and the captured continuations, and how many values it takes and leaves; which values, and what is in arrays
and objects, is left aside.  An item puts others in front, drops work, writes one variable, makes one frame, or makes
the registers of a continuation, and `Move` has a case for each.  What every step keeps of these registers is found
out by going through the cases.
-/

namespace ExplicitControl

/-! ## 1. Moves -/

def State.registers (s : State) : Snapshot :=
  ⟨s.agenda, s.stash, s.env, s.calls⟩

def Snapshot.resumed (k : Snapshot) (v : Value) : Snapshot :=
  { k with stash := v :: k.stash }

def Instr.target? : Instr → Option Marker
  | .breakLoop _ => some .loopEnd
  | .continueLoop _ => some .tripEnd
  | _ => none

theorem Item.not_isRestore_of_target {i : Instr} {target : Marker} (h : i.target? = some target) :
    (Item.instr i).isRestore = false := by
  cases i <;> first | rfl | cases h

theorem Instr.isStatementWork_of_target {t : Tree} {i : Instr} {target : Marker} (h : i.target? = some target) :
    i.isStatementWork t = true := by
  cases i <;> first | rfl | cases h

theorem Instr.not_isStraight_of_target {i : Instr} {target : Marker} (h : i.target? = some target) :
    i.isStraight = false := by
  cases i <;> first | rfl | cases h

theorem Item.closesCall_of_isPlainInstr {i : Instr} (h : Machine.isPlainInstr i = true) :
    (Item.instr i).closesCall = false := by
  cases i <;> first | rfl | cases h

def State.captured (s : State) : State :=
  { s with snapshots := s.snapshots.push s.registers }

/-- What is behind the body of a scope: its end, unless the next item brings an environment back anyway. -/
def Agenda.opening (env : Env) (a : Agenda) : Agenda :=
  if a.endsScope then a else .instr (.restore env false) :: a

theorem Agenda.opening_cases (env : Env) (a : Agenda) :
    a.opening env = a ∨ a.opening env = .instr (.restore env false) :: a := by
  unfold opening
  split
  · exact .inl rfl
  · exact .inr rfl

def NodeKind.padding : NodeKind → List Item
  | .program _ => [.instr .pushUndefinedIfNeeded]
  | _ => []

namespace Machine

/-- How a value is called: it is a function of the program, which is entered; or it answers at once; or it is a
continuation, which makes its registers. -/
inductive Call (p : Setting) (s s' : State) (callee : Value) (args : List Value) : Prop where
  | enter {identity : Nat} {f : Closure} {fname : Option Name} {params : List Name} {code : FunctionBody}
      {frame : CallFrame} {name : String} {node : NodeId} {receiver : Option Value}
      (hclosure : callee = .closure identity f)
      (hkind : p.tree.kind? f.node = some (.function fname params code))
      (harity : params.length = args.length)
      (hagenda : s'.agenda = bodyItems code ++ s.agenda.closing s.env)
      (hstash : s'.stash = s.stash)
      (hcalls : s'.calls = (if s.agenda.endsCall then s.calls.pop else s.calls).add frame)
      (hsnapshots : s'.snapshots = s.snapshots)
      (hmade : s.Makes ⟨name, (declaredSlots (p.tree.bodyDeclarations code)).reverse ++
        (parameterSlots params args).reverse, some f.env, some node, receiver⟩ s')
      (hnames : (((declaredSlots (p.tree.bodyDeclarations code)).reverse ++
        (parameterSlots params args).reverse).map Prod.fst).Nodup)
      (hroom : s.agenda.endsCall = true ∨ s.calls.depth < s.calls.maxDepth) (hargs : frame.args = args)
  | answer {v : Value} (hagenda : s'.agenda = s.agenda) (hstash : s'.stash = v :: s.stash) (hstill : s.Still s')
      (hhost : ∃ identity f, callee = .host identity f)
  | invoke {k : Nat} {kept : Snapshot} (hcontinuation : callee = .continuation k) (harity : args.length ≤ 1)
      (hkept : s.snapshots[k]? = some kept)
      (hregisters : s'.registers = kept.resumed (args.head?.getD .undefined))
      (hscopes : s'.scopes = s.scopes) (hsnapshots : s'.snapshots = s.snapshots) (hnext : s'.nextEnvId = s.nextEnvId)

/-- What carrying out an item does to control and to frames.  The item has been taken off the agenda of `s`. -/
inductive Move (p : Setting) (s s' : State) : Item → Prop where
  /-- A node without a scope of its own. -/
  | plain {id : NodeId} {kind : NodeKind} (hkind : p.tree.kind? id = some kind)
      (hopened : p.tree.opened kind = []) (hgoes : ∀ argument, kind ≠ .returnStatement argument)
      (hagenda : s'.agenda = kindItems p id kind ++ (kind.padding ++ s.agenda)) (hstill : s.Still s')
      (hstash : Stash.Exchanged 0 (if kindItems p id kind = [] then 1 else 0) s.stash s'.stash) :
      Move p s s' (.node id)
  /-- A node that makes a frame. -/
  | scope {id : NodeId} {kind : NodeKind} {name : String} (hkind : p.tree.kind? id = some kind)
      (hopened : p.tree.opened kind ≠ [])
      (hagenda : s'.agenda = kindItems p id kind ++ Agenda.opening s.env (kind.padding ++ s.agenda))
      (hcalls : s'.calls = s.calls) (hsnapshots : s'.snapshots = s.snapshots)
      (hmade : s.Makes ⟨name, (declaredSlots (p.tree.opened kind)).reverse, some s.env, none, none⟩ s')
      (hnames : ((p.tree.opened kind).map fun d => d.2.1).Nodup) (hstash : s'.stash = s.stash) :
      Move p s s' (.node id)
  | returned {id : NodeId} {argument : Option NodeId} (hkind : p.tree.kind? id = some (.returnStatement argument))
      (hagenda : s'.agenda = if s.agenda.inTailPosition then returnItem argument :: Agenda.unwindCall s.agenda
        else returnItem argument :: .instr .reset :: s.agenda) (hstash : s'.stash = s.stash) (hstill : s.Still s') :
      Move p s s' (.node id)
  | instr {i : Instr} {items : List Item} (hplain : isPlainInstr i = true) (hoffered : items ∈ i.offers)
      (hagenda : s'.agenda = items ++ s.agenda) (hstill : s.Still s')
      (hstash : i.pops ≤ s.stash.length →
        Stash.Exchanged i.pops (if items = [] then i.pushes else 0) s.stash s'.stash) :
      Move p s s' (.instr i)
  | assign {name : Name} {node : NodeId} {frame : Nat} {slot : Slot} {v : Value} {rest : Stash}
      (howner : s.scopes.owner? s.env name = some frame) (hslot : s.scopes.slot? s.env name = some slot)
      (hvalue : slot.value.isSome = true) (hmutability : slot.mutability = .assignable)
      (hagenda : s'.agenda = s.agenda) (henv : s'.env = s.env) (hcalls : s'.calls = s.calls)
      (hsnapshots : s'.snapshots = s.snapshots)
      (hscopes : s'.scopes = s.scopes.modifySlot frame name fun slot => { slot with value := some v })
      (hnext : s'.nextEnvId = s.nextEnvId) (hstash : s.stash = v :: rest) (hkeeps : s'.stash = s.stash) :
      Move p s s' (.instr (.assign name node))
  | declare {name : Name} {node : NodeId} {frame : Nat} {v : Value} {rest : Stash}
      (howner : s.scopes.owner? s.env name = some frame)
      (hagenda : s'.agenda = s.agenda) (henv : s'.env = s.env) (hcalls : s'.calls = s.calls)
      (hsnapshots : s'.snapshots = s.snapshots)
      (hscopes : s'.scopes = s.scopes.modifySlot frame name fun slot => { slot with value := some v })
      (hnext : s'.nextEnvId = s.nextEnvId) (hstash : s.stash = v :: rest) (hleaves : s'.stash = .undefined :: rest) :
      Move p s s' (.instr (.declare name node))
  | freshTrip {vars : List Name} (hvars : vars ≠ []) (hagenda : s'.agenda = s.agenda) (hcalls : s'.calls = s.calls)
      (hsnapshots : s'.snapshots = s.snapshots)
      (hmade : s.Makes (((s.scopes.frame? s.env).getD default).copy vars) s') (hstash : s'.stash = s.stash) :
      Move p s s' (.instr (.freshTrip vars))
  | restore {env : Env} {closesCall : Bool} (hagenda : s'.agenda = s.agenda) (hstash : s'.stash = s.stash)
      (henv : s'.env = env) (hcalls : s'.calls = if closesCall then s.calls.pop else s.calls)
      (hscopes : s'.scopes = s.scopes) (hsnapshots : s'.snapshots = s.snapshots) (hnext : s'.nextEnvId = s.nextEnvId) :
      Move p s s' (.instr (.restore env closesCall))
  | reset (hagenda : s'.agenda = Agenda.unwindCall s.agenda) (hstash : s'.stash = s.stash) (hstill : s.Still s') :
      Move p s s' (.instr .reset)
  /-- A jump has come to its marker. -/
  | reached {i : Instr} {target : Marker} {rest : Agenda} (htarget : i.target? = some target)
      (hsearch : Agenda.searchLoop target s.agenda = .reached rest) (hagenda : s'.agenda = rest)
      (hstash : s'.stash = .undefined :: s.stash)
      (hstill : s.Still s') :
      Move p s s' (.instr i)
  /-- A jump has come to the end of a scope, and goes on behind it. -/
  | stopped {i : Instr} {target : Marker} {item : Item} {rest : Agenda} (htarget : i.target? = some target)
      (hsearch : Agenda.searchLoop target s.agenda = .scope item rest)
      (hagenda : s'.agenda = item :: .instr i :: rest) (hstash : s'.stash = s.stash) (hstill : s.Still s') :
      Move p s s' (.instr i)
  | call {args : List Value} {callee : Value} {receiver : Option Value} {stash : Stash} {node : NodeId}
      (hoperands : s.stash = args.reverse ++ callee :: (receiver.toList ++ stash))
      (houtcome : Call p { s with stash } s' callee args) :
      Move p s s' (.instr (.apply args.length receiver.isSome node))
  /-- A continuation is captured for a value, which is called. -/
  | callCc {callee : Value} {receiver : Option Value} {stash : Stash} {node : NodeId}
      (hoperands : s.stash = callee :: .callCc :: (receiver.toList ++ stash))
      (houtcome : Call p (State.captured { s with stash }) s' callee [.continuation s.snapshots.size]) :
      Move p s s' (.instr (.apply 1 receiver.isSome node))
  /-- A continuation is captured for the function that captures continuations, which captures another one. -/
  | callCcTwice {receiver : Option Value} {stash : Stash} {node : NodeId}
      (hoperands : s.stash = .callCc :: .callCc :: (receiver.toList ++ stash))
      (houtcome : Call p (State.captured (State.captured { s with stash })) s' (.continuation s.snapshots.size)
        [.continuation (State.captured { s with stash }).snapshots.size]) :
      Move p s s' (.instr (.apply 1 receiver.isSome node))

variable {α β : Type} {p : Setting} {s s' : State}

/-- The functions that every program finds do not ask for values that are not there; what others do is not known. -/
theorem answers_applyHost (f : HostFunction) (args : List Value) (receiver : Option Value) (node : NodeId)
    (s : State) :
    Ensures (applyHost p f args receiver node) s
      (fun _ s' => s'.agenda = s.agenda ∧ (∃ v, s'.stash = v :: s.stash) ∧ s.Still s')
      fun e _ => p.PreludeOnly → NotUnderflow e := by
  unfold applyHost
  dsimp only
  split
  · exact fun _ => notUnderflow_of_regular rfl
  · rw [ensures_bind, ensures_onHost]
    cases hr : hostBody p f.action receiver args ⟨s.heap, s.output⟩ with
    | ok v t => exact ⟨rfl, ⟨_, rfl⟩, rfl, rfl, rfl, rfl, rfl⟩
    | error e t =>
      intro hp
      obtain ⟨message, rfl⟩ := hostBody_failed hp.embedded hr
      exact notUnderflow_of_regular rfl

theorem call_applyClosure (identity : Nat) (f : Closure) (args : List Value) (receiver : Option Value)
    (node : NodeId) (name : String) (s : State) :
    Ensures (applyClosure p f args receiver node name) s
      (fun _ s' => Call p s s' (.closure identity f) args) fun e _ => NotUnderflow e := by
  obtain ⟨fname, params, code, hkind, harity⟩ | ⟨fault, hfault, hfails⟩ :=
    applyClosure_cases p f args receiver node name
  · rw [applyClosure_eq hkind harity, ensures_bind]
    obtain ⟨hroom, hentered⟩ | ⟨-, -, hfull⟩ := enterCall_split p node ⟨name, args, p.tree.span node⟩ s
    · rw [ensures_of_ok hentered, ensures_bind]
      refine (ensures_closureFrame f params args receiver node code _).mono
        (fun _ t ⟨_, hnames, ht⟩ => ?_) fun _ _ h => h
      subst ht
      exact .enter rfl hkind harity rfl rfl rfl rfl ⟨rfl, rfl, rfl⟩ hnames hroom rfl
    · exact (ensures_of_error hfull).mpr (notUnderflow_of_regular rfl)
  · rw [hfails]
    obtain ⟨expected, given, rfl⟩ | ⟨message, rfl, -⟩ := hfault
    · exact notUnderflow_of_regular rfl
    · exact nofun

theorem call_invoke (k : Nat) (args : List Value) (node : NodeId) (s : State) :
    Ensures (invoke p k args node) s (fun _ s' => Call p s s' (.continuation k) args) fun e _ => NotUnderflow e := by
  by_cases harity : 1 < args.length
  · exact (ensures_of_error (invoke_of_arity harity node s)).mpr (notUnderflow_of_regular rfl)
  · cases hk : s.snapshots[k]? with
    | none => exact (ensures_of_error (invoke_of_missing harity hk node)).mpr nofun
    | some kept =>
      rw [ensures_of_ok (invoke_of_kept harity hk node)]
      exact .invoke rfl (Nat.le_of_not_lt harity) hk rfl rfl rfl rfl

theorem call_applyPlain (callee : Value) (args : List Value) (receiver : Option Value) (node : NodeId)
    (name : String) (s : State) :
    Ensures (applyPlain p callee args receiver node name) s (fun _ s' => Call p s s' callee args)
      fun e _ => p.PreludeOnly → NotUnderflow e := by
  cases callee with
  | closure identity f =>
    exact (call_applyClosure identity f args receiver node name s).mono (fun _ _ h => h) fun _ _ h _ => h
  | host identity f =>
    refine (answers_applyHost f args receiver node s).mono (fun _ s' ⟨hagenda, ⟨v, hv⟩, hstill⟩ => ?_) fun _ _ h => h
    exact .answer hagenda hv hstill ⟨identity, f, rfl⟩
  | continuation k => exact (call_invoke k args node s).mono (fun _ _ h => h) fun _ _ h _ => h
  | _ => exact fun _ => notUnderflow_of_regular rfl

/-- A call finds its operands on the stash, or there are not enough. -/
theorem ensures_operands {arity : Nat} {hasReceiver : Bool} {node : NodeId} {post : Unit → State → Prop}
    {fail : EvalError → State → Prop}
    (hfail : s.stash.length < arity + 1 + hasReceiver.toNat → ∀ t, fail (.ofFault .stashUnderflow) t)
    (h : ∀ (args : List Value) (callee : Value) (receiver : Option Value) (stash : Stash),
      arity = args.length → hasReceiver = receiver.isSome →
      s.stash = args.reverse ++ callee :: (receiver.toList ++ stash) →
      Ensures (applyValue p callee args receiver node) { s with stash } post fail) :
    Ensures (apply p arity hasReceiver node) s post fail := by
  rw [apply_eq, ensures_bind, ensures_popN]
  split
  next hle =>
    have hlength : (s.stash.take arity).reverse.length = arity := by
      rw [List.length_reverse, List.length_take, Nat.min_eq_left hle]
    have hsplit : s.stash = (s.stash.take arity).reverse.reverse ++ s.stash.drop arity := by
      rw [List.reverse_reverse, List.take_append_drop]
    have hcount : (s.stash.drop arity).length = s.stash.length - arity := List.length_drop
    rw [ensures_bind, ensures_pop]
    dsimp only
    -- The callee is beneath the arguments, and the receiver beneath the callee.
    cases hdrop : s.stash.drop arity with
    | nil =>
      rw [hdrop, List.length_nil] at hcount
      exact hfail (by omega) _
    | cons callee rest =>
      rw [hdrop] at hsplit hcount
      rw [List.length_cons] at hcount
      cases hasReceiver with
      | false => exact h _ callee none rest hlength.symm rfl hsplit
      | true =>
        dsimp only
        rw [if_pos rfl, ensures_bind, ensures_map, ensures_pop]
        cases rest with
        | nil => exact hfail (by rw [List.length_nil] at hcount; simp only [Bool.toNat_true]; omega) _
        | cons o stash => exact h _ callee (some o) stash hlength.symm rfl hsplit
  next hshort => exact hfail (by omega) _

/-- The counters do not matter to a call. -/
theorem Call.counted {callee : Value} {args : List Value} {steps readings : Nat} {current : Option NodeId}
    (h : Call p { s with steps, readings, current } s' callee args) : Call p s s' callee args := by
  cases h with
  | enter hclosure hkind harity hagenda hstash hcalls hsnapshots hmade hnames hroom hargs =>
    exact .enter hclosure hkind harity hagenda hstash hcalls hsnapshots ⟨hmade.handle, hmade.frames, hmade.next⟩ hnames
      hroom hargs
  | answer hagenda hstash hstill hhost =>
    exact .answer hagenda hstash ⟨hstill.env, hstill.scopes, hstill.calls, hstill.snapshots, hstill.next⟩ hhost
  | invoke hcontinuation harity hkept hregisters hscopes hsnapshots hnext =>
    exact .invoke hcontinuation harity hkept hregisters hscopes hsnapshots hnext

theorem move_apply (arity : Nat) (hasReceiver : Bool) (node : NodeId) (s : State) :
    Ensures (apply p arity hasReceiver node) s
      (fun _ s' => Move p s s' (.instr (.apply arity hasReceiver node)))
      fun e _ => p.PreludeOnly → arity + 1 + hasReceiver.toNat ≤ s.stash.length → NotUnderflow e := by
  refine ensures_operands (fun hshort _ _ hle => absurd hle (Nat.not_le.mpr hshort))
    fun args callee receiver stash harity hreceiver hstash => ?_
  subst harity hreceiver
  unfold applyValue
  rw [ensures_bind]
  refine ensures_checkDeadline (fun readings => ?_) fun _ _ _ => notUnderflow_of_regular rfl
  have plain : ∀ {name : String}, Ensures (applyPlain p callee args receiver node name)
      { s with stash, readings } (fun _ s' => Move p s s' (.instr (.apply args.length receiver.isSome node)))
      fun e _ => p.PreludeOnly → args.length + 1 + receiver.isSome.toNat ≤ s.stash.length → NotUnderflow e :=
    (call_applyPlain callee args receiver node _ _).mono (fun _ _ h => .call hstash h.counted) fun _ _ h hp _ => h hp
  cases callee with
  | callCc =>
    dsimp only
    unfold applyCallCc
    rcases args with _ | ⟨function, _ | ⟨second, rest⟩⟩
    · exact fun _ _ => notUnderflow_of_regular rfl
    · dsimp only
      rw [ensures_bind]
      refine (ensures_modifyGet _).mpr ?_
      cases function with
      | callCc =>
        dsimp only
        rw [ensures_bind]
        refine (ensures_modifyGet _).mpr ?_
        exact (call_applyPlain _ _ none node _ _).mono (fun _ _ h => .callCcTwice hstash h.counted)
          fun _ _ h hp _ => h hp
      | _ =>
        exact (call_applyPlain _ _ none node _ _).mono (fun _ _ h => .callCc hstash h.counted) fun _ _ h hp _ => h hp
    · exact fun _ _ => notUnderflow_of_regular rfl
  | _ => exact plain

/-- A write to the variable that a name means. -/
theorem ensures_write (node : NodeId) (name : Name) (op : ScopeM Unit) (s : State) :
    Ensures (onName p node name op) s
      (fun _ s' => ∃ scopes, op s.scopes = .ok () scopes ∧ s' = { s with scopes }) fun e _ => NotUnderflow e := by
  rw [ensures_onName]
  split
  next a scopes h => exact ⟨scopes, h, rfl⟩
  next e scopes h => exact notUnderflow_of_regular (ScopeError.fault_regular e _)

theorem move_assign (name : Name) (node : NodeId) (s : State) :
    Ensures (execInstr p (.assign name node)) s (fun _ s' => Move p s s' (.instr (.assign name node)))
      fun e _ => 1 ≤ s.stash.length → NotUnderflow e := by
  unfold execInstr
  rw [ensures_bind, ensures_peek]
  cases hstash : s.stash with
  | nil => exact fun h => absurd h (Nat.not_succ_le_zero 0)
  | cons v rest =>
    dsimp only
    rw [← hstash, ensures_bind, ensures_get]
    refine (ensures_write node name _ _).mono (fun _ s' ⟨scopes, hop, hs'⟩ => ?_) fun _ _ h _ => h
    subst hs'
    unfold Scopes.assign at hop
    split at hop
    next frame slot howner hslot =>
      split at hop
      · cases hop
      next hvalue =>
        split at hop
        · cases hop
        next hfixed =>
          cases hop
          have hmutability : slot.mutability = .assignable := by
            cases h : slot.mutability with
            | assignable => rfl
            | fixed => exact absurd h hfixed
          have hsome : slot.value.isSome = true := by
            cases h : slot.value with
            | none => rw [h] at hvalue; exact absurd rfl hvalue
            | some v => rfl
          exact .assign howner hslot hsome hmutability rfl rfl rfl rfl rfl rfl hstash rfl
    next => cases hop

theorem move_declare (name : Name) (node : NodeId) (s : State) :
    Ensures (execInstr p (.declare name node)) s (fun _ s' => Move p s s' (.instr (.declare name node)))
      fun e _ => 1 ≤ s.stash.length → NotUnderflow e := by
  unfold execInstr
  rw [ensures_bind, ensures_pop]
  cases hstash : s.stash with
  | nil => exact fun h => absurd h (Nat.not_succ_le_zero 0)
  | cons v rest =>
    dsimp only
    rw [ensures_bind, ensures_get, ensures_bind]
    refine (ensures_write node name _ _).mono (fun _ s' ⟨scopes, hop, hs'⟩ => ?_) fun _ _ h _ => h
    subst hs'
    unfold Scopes.fill at hop
    split at hop
    · cases hop
    next frame howner =>
      cases hop
      exact .declare howner rfl rfl rfl rfl rfl rfl hstash rfl

theorem move_leaveLoop {i : Instr} {target : Marker} {keyword : String} {node : NodeId}
    (htarget : i.target? = some target) (s : State) :
    Ensures (leaveLoop p target keyword i node) s (fun _ s' => Move p s s' (.instr i)) fun e _ => NotUnderflow e := by
  cases hsearch : Agenda.searchLoop target s.agenda with
  | reached rest =>
    rw [ensures_of_ok (leaveLoop_reached p hsearch)]
    exact .reached htarget hsearch rfl rfl ⟨rfl, rfl, rfl, rfl, rfl⟩
  | scope item rest =>
    rw [ensures_of_ok (leaveLoop_scope p hsearch)]
    exact .stopped htarget hsearch rfl rfl ⟨rfl, rfl, rfl, rfl, rfl⟩
  | outside => exact (ensures_of_error (leaveLoop_outside p hsearch)).mpr (notUnderflow_of_regular rfl)

/-- An instruction makes one of the moves, and it does not fail for want of values if there are as many as it pops. -/
theorem move_execInstr (i : Instr) (s : State) :
    Ensures (execInstr p i) s (fun _ s' => Move p s s' (.instr i))
      fun e _ => p.PreludeOnly → i.pops ≤ s.stash.length → NotUnderflow e := by
  cases hi : isPlainInstr i with
  | true =>
    exact (offers_execInstr hi s).mono (fun _ _ ⟨hstill, items, hitems, hagenda, hstash⟩ =>
      .instr hi hitems hagenda hstill hstash) fun _ _ h _ => h
  | false =>
    cases i with
    | assign name node => exact (move_assign name node s).mono (fun _ _ h => h) fun _ _ h _ => h
    | declare name node => exact (move_declare name node s).mono (fun _ _ h => h) fun _ _ h _ => h
    | restore env closesCall =>
      cases closesCall with
      | true => exact .restore rfl rfl rfl rfl rfl rfl rfl
      | false => exact .restore rfl rfl rfl rfl rfl rfl rfl
    | reset => exact .reset rfl rfl ⟨rfl, rfl, rfl, rfl, rfl⟩
    | breakLoop node => exact (move_leaveLoop rfl s).mono (fun _ _ h => h) fun _ _ h _ _ => h
    | continueLoop node => exact (move_leaveLoop rfl s).mono (fun _ _ h => h) fun _ _ h _ _ => h
    | apply arity hasReceiver node => exact move_apply arity hasReceiver node s
    | freshTrip vars =>
      have hvars : vars.isEmpty = false := hi
      show Ensures (unless vars.isEmpty do _) s _ _
      rw [hvars]
      exact .freshTrip (List.isEmpty_eq_false_iff.mp hvars) rfl rfl rfl ⟨rfl, rfl, rfl⟩ rfl
    | _ => cases hi

/-- What is behind the items of a node, when control has turned for it. -/
theorem turned_agenda {kind : NodeKind} (hreturn : ∀ argument, kind ≠ .returnStatement argument) (s : State) :
    (s.turned p kind).agenda =
      if p.tree.opened kind = [] then kind.padding ++ s.agenda
      else Agenda.opening s.env (kind.padding ++ s.agenda) := by
  have hopens := opensScope_eq (p := p) kind
  have opened : ∀ s : State, (if opensScope p kind then s.opened else s).agenda =
      if p.tree.opened kind = [] then s.agenda else Agenda.opening s.env s.agenda := by
    intro s
    rw [hopens]
    cases p.tree.opened kind with
    | nil => rfl
    | cons d ds =>
      show (State.opened s).agenda = Agenda.opening s.env s.agenda
      unfold State.opened Agenda.opening Agenda.endsScope
      split <;> rfl
  cases kind with
  | returnStatement argument => exact absurd rfl (hreturn argument)
  | program body => exact opened { s with agenda := .instr .pushUndefinedIfNeeded :: s.agenda }
  | _ => exact opened s

theorem move_evalNode (id : NodeId) (s : State) :
    Ensures (evalNode p id) s (fun _ s' => Move p s s' (.node id)) fun e _ => NotUnderflow e := by
  unfold evalNode
  rw [ensures_bind]
  cases hkind : p.tree.kind? id with
  | none => unfold kindOf; rw [hkind]; exact nofun
  | some kind =>
    rw [ensures_kindOf hkind]
    unfold Ensures
    rw [evalKind_eq, turned_eq]
    by_cases hreturn : ∃ argument, kind = .returnStatement argument
    · obtain ⟨argument, rfl⟩ := hreturn
      refine .returned hkind ?_ rfl ⟨rfl, rfl, rfl, rfl, rfl⟩
      show (s.turned p (.returnStatement argument)).agenda = _
      unfold State.turned
      dsimp only
      split <;> rfl
    · rw [not_exists] at hreturn
      rw [turned_agenda hreturn]
      by_cases hopened : p.tree.opened kind = []
      · rw [if_pos hopened]
        refine Ensures.mono (offers_kindWork id hopened hreturn _)
          (fun _ s' ⟨hstill, items, hitems, hagenda, hstash⟩ => ?_)
          fun _ _ h => h (Nat.zero_le _)
        obtain rfl := List.mem_singleton.mp hitems
        exact .plain hkind hopened hreturn hagenda
          ⟨hstill.env, hstill.scopes, hstill.calls, hstill.snapshots, hstill.next⟩ (hstash (Nat.zero_le _))
      · rw [if_neg hopened]
        refine Ensures.mono (opens_kindWork id hopened _)
          (fun _ s' ⟨hagenda, hstash, hcalls, hsnapshots, hnames, _, hmade⟩ => ?_) fun _ _ h => h
        exact .scope hkind hopened hagenda hcalls hsnapshots ⟨hmade.handle, hmade.frames, hmade.next⟩ hnames hstash

/-- The counters do not matter to a move. -/
theorem Move.counted {item : Item} {steps readings : Nat} {current : Option NodeId}
    (h : Move p { s with steps, readings, current } s' item) : Move p s s' item := by
  have still : ∀ {t : State}, State.Still { s with steps, readings, current } t → s.Still t :=
    fun h => ⟨h.env, h.scopes, h.calls, h.snapshots, h.next⟩
  cases h with
  | plain hkind hopened hgoes hagenda hstill hstash => exact .plain hkind hopened hgoes hagenda (still hstill) hstash
  | scope hkind hopened hagenda hcalls hsnapshots hmade hnames hstash =>
    exact .scope hkind hopened hagenda hcalls hsnapshots ⟨hmade.handle, hmade.frames, hmade.next⟩ hnames hstash
  | returned hkind hagenda hstash hstill => exact .returned hkind hagenda hstash (still hstill)
  | instr hplain hoffered hagenda hstill hstash => exact .instr hplain hoffered hagenda (still hstill) hstash
  | assign howner hslot hvalue hmutability hagenda henv hcalls hsnapshots hscopes hnext hstash hkeeps =>
    exact .assign howner hslot hvalue hmutability hagenda henv hcalls hsnapshots hscopes hnext hstash hkeeps
  | declare howner hagenda henv hcalls hsnapshots hscopes hnext hstash hleaves =>
    exact .declare howner hagenda henv hcalls hsnapshots hscopes hnext hstash hleaves
  | freshTrip hvars hagenda hcalls hsnapshots hmade hstash =>
    exact .freshTrip hvars hagenda hcalls hsnapshots ⟨hmade.handle, hmade.frames, hmade.next⟩ hstash
  | restore hagenda hstash henv hcalls hscopes hsnapshots hnext =>
    exact .restore hagenda hstash henv hcalls hscopes hsnapshots hnext
  | reset hagenda hstash hstill => exact .reset hagenda hstash (still hstill)
  | reached htarget hsearch hagenda hstash hstill => exact .reached htarget hsearch hagenda hstash (still hstill)
  | stopped htarget hsearch hagenda hstash hstill => exact .stopped htarget hsearch hagenda hstash (still hstill)
  | call hoperands houtcome => exact .call hoperands houtcome.counted
  | callCc hoperands houtcome => exact .callCc hoperands houtcome.counted
  | callCcTwice hoperands houtcome => exact .callCcTwice hoperands houtcome.counted

/-- Carrying out an item is one of the moves, and it does not fail for want of values if there are as many as the
item pops. -/
theorem move_execute (item : Item) (s : State) :
    Ensures (execute p item) s (fun _ s' => Move p s s' item)
      fun e _ => p.PreludeOnly → item.pops ≤ s.stash.length → NotUnderflow e := by
  unfold execute
  rw [ensures_bind]
  refine ensures_tick (fun steps readings => ?_) fun _ _ _ _ _ => notUnderflow_of_regular rfl
  cases item with
  | instr i => exact (move_execInstr i _).mono (fun _ _ h => h.counted) fun _ _ h => h
  | node id =>
    rw [ensures_bind, ensures_modify]
    exact (move_evalNode id { s with steps, readings, current := some id }).mono (fun _ _ h => h.counted)
      fun _ _ h _ _ => h

theorem move_of_advance {item : Item} {rest : Agenda} (hs : s.agenda = item :: rest)
    (h : advance p s = .running s') : Move p { s with agenda := rest } s' item :=
  (move_execute item _).of_advance hs h

/-- A node without a scope of its own puts its items in front or leaves its value, and leaves the frames as they
are. -/
theorem Move.plain_node {id : NodeId} {kind : NodeKind} (hkind : p.tree.kind? id = some kind)
    (hopened : p.tree.opened kind = []) (hreturn : ∀ argument, kind ≠ .returnStatement argument)
    (h : Move p s s' (.node id)) : s'.agenda = kindItems p id kind ++ (kind.padding ++ s.agenda) ∧ s.Still s' ∧
      Stash.Exchanged 0 (if kindItems p id kind = [] then 1 else 0) s.stash s'.stash := by
  cases h with
  | plain hkind' hopened' hgoes hagenda hstill hstash =>
    cases hkind.symm.trans hkind'
    exact ⟨hagenda, hstill, hstash⟩
  | scope hkind' hopened' hagenda hcalls hsnapshots hmade hnames =>
    cases hkind.symm.trans hkind'
    exact absurd hopened hopened'
  | returned hkind' hagenda hstash hstill =>
    cases hkind.symm.trans hkind'
    exact absurd rfl (hreturn _)

theorem not_isPlainInstr_of_target {i : Instr} {target : Marker} (h : i.target? = some target) :
    isPlainInstr i = false := by
  cases i <;> first | rfl | cases h

/-- An instruction that is plain puts some of its offers in front, and leaves the frames as they are. -/
theorem Move.offered {i : Instr} (hi : isPlainInstr i = true) (h : Move p s s' (.instr i)) :
    (∃ items ∈ i.offers, s'.agenda = items ++ s.agenda) ∧ s.Still s' := by
  cases h with
  | instr hplain hoffered hagenda hstill => exact ⟨⟨_, hoffered, hagenda⟩, hstill⟩
  | freshTrip hvars hagenda hcalls hsnapshots hmade => exact absurd (List.isEmpty_iff.mp hi) hvars
  | reached htarget hsearch hagenda hstash hstill => cases (not_isPlainInstr_of_target htarget).symm.trans hi
  | stopped htarget hsearch hagenda hstash hstill => cases (not_isPlainInstr_of_target htarget).symm.trans hi
  | _ => cases hi

/-- An instruction that neither jumps nor schedules nodes exchanges values for others. -/
theorem Move.exchanges {i : Instr} (h : Move p s s' (.instr i)) (hi : i.isStraight = true) :
    s'.agenda = s.agenda ∧ (i.input ≤ s.stash.length → Stash.Exchanged i.input i.output s.stash s'.stash) := by
  cases h with
  | instr hplain hoffered hagenda hstill hstash =>
    have hnone : i.offers = [[]] := by cases i <;> first | rfl | cases hi
    have hcounts : i.pops = i.input ∧ i.pushes = i.output := by cases i <;> first | exact ⟨rfl, rfl⟩ | cases hi
    rw [hnone, List.mem_singleton] at hoffered
    subst hoffered
    rw [if_pos rfl, hcounts.1, hcounts.2] at hstash
    exact ⟨hagenda, hstash⟩
  | assign howner hslot hvalue hmutability hagenda henv hcalls hsnapshots hscopes hnext hstash hkeeps =>
    exact ⟨hagenda, fun hle => ⟨hkeeps.symm ▸ hle, congrArg (List.drop 1) hkeeps⟩⟩
  | declare howner hagenda henv hcalls hsnapshots hscopes hnext hstash hleaves =>
    refine ⟨hagenda, fun _ => ?_⟩
    rw [hstash, hleaves]
    exact ⟨Nat.succ_pos _, rfl⟩
  | freshTrip hvars hagenda hcalls hsnapshots hmade hstash =>
    exact ⟨hagenda, fun _ => hstash ▸ Stash.exchanged_refl _⟩
  | restore hagenda hstash henv hcalls hscopes hsnapshots hnext =>
    exact ⟨hagenda, fun _ => hstash ▸ Stash.exchanged_refl _⟩
  | reached htarget hsearch hagenda hstash hstill => cases (Instr.not_isStraight_of_target htarget).symm.trans hi
  | stopped htarget hsearch hagenda hstash hstill => cases (Instr.not_isStraight_of_target htarget).symm.trans hi
  | reset | call | callCc | callCcTwice => cases hi

/-- A function of the program is entered. -/
theorem Call.entered {identity : Nat} {f : Closure} {args : List Value} (h : Call p s s' (.closure identity f) args) :
    ∃ fname params code frame, p.tree.kind? f.node = some (.function fname params code) ∧
      s'.agenda = bodyItems code ++ s.agenda.closing s.env ∧ s'.stash = s.stash ∧
      s'.calls = (if s.agenda.endsCall then s.calls.pop else s.calls).add frame ∧ frame.args = args ∧
      s'.snapshots = s.snapshots := by
  cases h with
  | enter hclosure hkind harity hagenda hstash hcalls hsnapshots hmade hnames hroom hargs =>
    cases hclosure
    exact ⟨_, _, _, _, hkind, hagenda, hstash, hcalls, hargs, hsnapshots⟩
  | answer hagenda hstash hstill hhost =>
    obtain ⟨_, _, hhost⟩ := hhost
    cases hhost
  | invoke hcontinuation => cases hcontinuation

/-- The function that captures continuations is none of these. -/
theorem Call.ne_callCc {callee : Value} {args : List Value} (h : Call p s s' callee args) : callee ≠ .callCc := by
  rintro rfl
  cases h with
  | enter hclosure => cases hclosure
  | answer hagenda hstash hstill hhost =>
    obtain ⟨_, _, hhost⟩ := hhost
    cases hhost
  | invoke hcontinuation => cases hcontinuation

/-- The operands of a call are told from each other by their numbers. -/
theorem operands_inj {args args' : List Value} {callee callee' : Value} {receiver receiver' : Option Value}
    {stash stash' : Stash} (h : args.reverse ++ callee :: (receiver.toList ++ stash) =
      args'.reverse ++ callee' :: (receiver'.toList ++ stash'))
    (harity : args.length = args'.length) (hreceiver : receiver.isSome = receiver'.isSome) :
    args = args' ∧ callee = callee' ∧ stash = stash' := by
  obtain ⟨hargs, hrest⟩ := List.append_inj h (by rw [List.length_reverse, List.length_reverse, harity])
  obtain ⟨hcallee, hrest⟩ := List.cons.inj hrest
  refine ⟨List.reverse_inj.mp hargs, hcallee, (List.append_inj hrest ?_).2⟩
  cases receiver <;> cases receiver' <;> first | rfl | cases hreceiver

/-- What is called is known from the operands: the callee, or the argument of the function that captures
continuations. -/
theorem Move.called {args : List Value} {callee : Value} {receiver : Option Value} {stash : Stash} {node : NodeId}
    (h : Move p s s' (.instr (.apply args.length receiver.isSome node)))
    (hoperands : s.stash = args.reverse ++ callee :: (receiver.toList ++ stash)) :
    Call p { s with stash } s' callee args ∨ callee = .callCc ∧
      ((∃ function, args = [function] ∧
          Call p (State.captured { s with stash }) s' function [.continuation s.snapshots.size]) ∨
        args = [.callCc] ∧ Call p (State.captured (State.captured { s with stash })) s'
          (.continuation s.snapshots.size) [.continuation (State.captured { s with stash }).snapshots.size]) := by
  generalize hitem : Item.instr (.apply args.length receiver.isSome node) = item at h
  cases h with
  | instr hplain => cases hitem; cases hplain
  | reached htarget => cases hitem; cases htarget
  | stopped htarget => cases hitem; cases htarget
  | call hoperands' houtcome =>
    simp only [Item.instr.injEq, Instr.apply.injEq] at hitem
    obtain ⟨harity, hreceiver, -⟩ := hitem
    obtain ⟨rfl, rfl, rfl⟩ := operands_inj (hoperands.symm.trans hoperands') harity hreceiver
    exact .inl houtcome
  | @callCc function receiver' stash' node' hoperands' houtcome =>
    simp only [Item.instr.injEq, Instr.apply.injEq] at hitem
    obtain ⟨harity, hreceiver, -⟩ := hitem
    have hoperands' : s.stash = [function].reverse ++ .callCc :: (receiver'.toList ++ stash') := hoperands'
    obtain ⟨rfl, rfl, rfl⟩ := operands_inj (hoperands.symm.trans hoperands') harity hreceiver
    exact .inr ⟨rfl, .inl ⟨function, rfl, houtcome⟩⟩
  | @callCcTwice receiver' stash' node' hoperands' houtcome =>
    simp only [Item.instr.injEq, Instr.apply.injEq] at hitem
    obtain ⟨harity, hreceiver, -⟩ := hitem
    have hoperands' : s.stash = [Value.callCc].reverse ++ .callCc :: (receiver'.toList ++ stash') := hoperands'
    obtain ⟨rfl, rfl, rfl⟩ := operands_inj (hoperands.symm.trans hoperands') harity hreceiver
    exact .inr ⟨rfl, .inr ⟨rfl, houtcome⟩⟩
  | _ => cases hitem

end Machine

/-! ## 2. Calls that invoke no continuation -/

/-- The continuation that a call invokes, and the argument that it gets.  The next continuation to be captured
has the number `next`. -/
def Value.invoked? (next : Nat) : Value → List Value → Option (Nat × Value)
  | .continuation k, [] => some (k, .undefined)
  | .continuation k, [v] => some (k, v)
  -- A continuation may be captured for another one, which is invoked at once.
  | .callCc, [.continuation k] => some (k, .continuation next)
  | .callCc, [.callCc] => some (next, .continuation (next + 1))
  | _, _ => none

def State.Invokes (s : State) (k : Nat) (v : Value) : Prop :=
  ∃ (args : List Value) (callee : Value) (receiver : Option Value) (node : NodeId) (rest : Agenda)
    (stash : Stash), s.agenda = .instr (.apply args.length receiver.isSome node) :: rest ∧
      s.stash = args.reverse ++ callee :: (receiver.toList ++ stash) ∧
      callee.invoked? s.snapshots.size args = some (k, v)

namespace Machine

variable {p : Setting} {s s' : State}

variable {args : List Value} {callee : Value} {receiver : Option Value} {stash : Stash} {node : NodeId}

theorem one_lt_of_not_invokes (hoperands : s.stash = args.reverse ++ callee :: (receiver.toList ++ stash))
    (hnone : ∀ k v, ¬State.Invokes
      { s with agenda := .instr (.apply args.length receiver.isSome node) :: s.agenda } k v)
    {k : Nat} (hcallee : callee = .continuation k) : 1 < args.length := by
  subst hcallee
  rcases args with _ | ⟨v, _ | ⟨w, rest⟩⟩
  · exact absurd ⟨[], _, receiver, node, s.agenda, stash, rfl, hoperands, rfl⟩ (hnone k .undefined)
  · exact absurd ⟨[v], _, receiver, node, s.agenda, stash, rfl, hoperands, rfl⟩ (hnone k v)
  · exact Nat.succ_lt_succ (Nat.succ_pos _)

theorem ne_continuation_of_not_invokes (hoperands : s.stash = callee :: .callCc :: (receiver.toList ++ stash))
    (hnone : ∀ k v, ¬State.Invokes { s with agenda := .instr (.apply 1 receiver.isSome node) :: s.agenda } k v)
    (k : Nat) : callee ≠ .continuation k := by
  rintro rfl
  exact hnone k _ ⟨[.continuation k], .callCc, receiver, node, s.agenda, stash, rfl, hoperands, rfl⟩

theorem invokes_of_callCcTwice (hoperands : s.stash = .callCc :: .callCc :: (receiver.toList ++ stash)) :
    State.Invokes { s with agenda := .instr (.apply 1 receiver.isSome node) :: s.agenda } s.snapshots.size
      (.continuation (s.snapshots.size + 1)) :=
  ⟨[.callCc], .callCc, receiver, node, s.agenda, stash, rfl, hoperands, rfl⟩

/-- Whether a continuation is invoked depends on the next item, not on those behind it. -/
theorem not_invokes_cons {item : Item} {a a' : Agenda} (hs : s.agenda = item :: a) (hnone : ∀ k v, ¬s.Invokes k v) :
    ∀ k v, ¬State.Invokes { s with agenda := item :: a' } k v := by
  rintro k v ⟨args, callee, receiver, node, rest, stash, hagenda, hstash, hinvoked⟩
  cases hagenda
  exact hnone k v ⟨args, callee, receiver, node, a, stash, hs, hstash, hinvoked⟩

/-! ## 3. Runs -/

variable {σ : Type} {m : Machine σ}

def Reaches (m : Machine σ) (s : State) : Prop :=
  ∃ n, (m.runThrough n).progress = .running s

theorem reaches_iff : m.Reaches s ↔ ∃ n, travel m.setting n m.state = .running s :=
  exists_progress_iff m (· = .running s)

theorem reaches_start (m : Machine σ) : m.Reaches m.state :=
  ⟨0, rfl⟩

theorem Reaches.travel {n : Nat} (hs : m.Reaches s) (h : travel m.setting n s = .running s') : m.Reaches s' := by
  obtain ⟨k, hk⟩ := reaches_iff.mp hs
  exact reaches_iff.mpr ⟨k + n, (travelBy_add n hk).trans h⟩

theorem Reaches.advance (hs : m.Reaches s) (h : advance m.setting s = .running s') : m.Reaches s' :=
  hs.travel (n := 1) (travelBy_running 0 h)

/-- A state at which the program ends is come to before. -/
theorem reaches_of_finished {n : Nat} {v : Value} (h : (m.runThrough n).progress = .finished v s) :
    m.Reaches s := by
  obtain ⟨k, -, hk⟩ := exists_travel m n
  rw [hk] at h
  suffices hfound : ∀ k t, Machine.travel m.setting k t = .finished v s →
      ∃ j, Machine.travel m.setting j t = .running s from
    reaches_iff.mpr (hfound k m.state h)
  intro k
  induction k with
  | zero => intro t ht; cases ht
  | succ k ih =>
    intro t ht
    cases ha : Machine.advance m.setting t with
    | running t₁ =>
      obtain ⟨j, hj⟩ := ih t₁ (by rwa [Machine.travel, travelBy_running k ha] at ht)
      exact ⟨j + 1, (travelBy_running j ha).trans hj⟩
    | failed e t₁ => rw [Machine.travel, travelBy_failed k ha] at ht; cases ht
    | finished w t₁ =>
      rw [Machine.travel, travelBy_finished k ha] at ht
      cases ht
      obtain ⟨-, rfl, -⟩ := advanceBy_finished ha
      exact ⟨0, rfl⟩

/-- What holds at the start and is kept by every move that a run makes holds of every state that it comes to. -/
theorem Reaches.induct {I : State → Prop} (hs : m.Reaches s) (start : I m.state)
    (moves : ∀ (s s' : State) (item : Item) (rest : Agenda), m.Reaches s → I s → s.agenda = item :: rest →
      Machine.advance m.setting s = .running s' → Move m.setting { s with agenda := rest } s' item → I s') : I s := by
  obtain ⟨n, hn⟩ := reaches_iff.mp hs
  suffices h : ∀ n t, m.Reaches t → I t → ∀ s, Machine.travel m.setting n t = .running s → I s from
    h n m.state (reaches_start m) start s hn
  intro n
  induction n with
  | zero => intro t _ hI s hs; cases hs; exact hI
  | succ n ih =>
    intro t ht hI s hs
    rw [travel_succ] at hs
    cases ha : Machine.advance m.setting t with
    | running t₁ =>
      rw [ha] at hs
      cases hagenda : t.agenda with
      | nil => rw [advance_nil m.setting hagenda] at ha; cases ha
      | cons item rest =>
        exact ih t₁ (ht.advance ha) (moves t t₁ item rest ht hI hagenda ha (move_of_advance hagenda ha)) s hs
    | finished v t₁ => rw [ha] at hs; cases hs
    | failed e t₁ => rw [ha] at hs; cases hs

end Machine

end ExplicitControl
