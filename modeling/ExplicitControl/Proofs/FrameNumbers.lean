import ExplicitControl.Proofs.FramesSince
import ExplicitControl.Proofs.Overflow
import ExplicitControl.Proofs.StaticScope
import ExplicitControl.Proofs.Unwinding

/-!
# Frames have their own numbers

An environment is told by the number of its frame.  The frames that a run can come upon are many: those of the current
environment and of those around it, those that pending work goes back to, those of functions in any variable, array,
object or argument, and those that captured continuations keep.  What a step leaves to be found has been found before,
but for the frame that it makes.  So each has the number that it has got when it was made, and as long as the numbers do
not wrap around, no other frame has it.
-/

namespace ExplicitControl

/-! ## 1. Environments that are held -/

namespace Agenda

variable {a : Agenda} {env env' : Env}

/-- Behind the body of a scope, the environment outside of it comes back. -/
theorem mem_restores_opening (h : env' ∈ restores (opening env a)) : env' = env ∨ env' ∈ restores a := by
  unfold opening at h
  split at h
  · exact .inr h
  · exact List.mem_cons.mp h

theorem mem_restores_closing (h : env' ∈ restores (closing env a)) : env' = env ∨ env' ∈ restores a := by
  obtain ⟨-, -, hclosing⟩ | ⟨e, closesCall, rest, rfl, -, hclosing⟩ := Machine.closing_cases env a
  · rw [hclosing] at h
    exact List.mem_cons.mp h
  · rw [hclosing] at h
    exact .inr h

end Agenda

structure State.Envs (Q : Env → Prop) (s : State) : Prop where
  ends : ∀ env ∈ s.agenda.restores, Q env
  tails : ∀ f ∈ s.scopes.frames, ∀ outer ∈ f.tail, Q outer
  kept : ∀ k ∈ s.snapshots, Q k.env ∧ ∀ env ∈ k.agenda.restores, Q env

namespace State.Envs

variable {Q Q' : Env → Prop} {s s' : State}

theorem mono (h : s.Envs Q) (hQ : ∀ env, Q env → Q' env) : s.Envs Q' where
  ends env henv := hQ env (h.ends env henv)
  tails f hf outer houter := hQ outer (h.tails f hf outer houter)
  kept k hk := ⟨hQ k.env (h.kept k hk).1, fun env henv => hQ env ((h.kept k hk).2 env henv)⟩

theorem captured (h : s.Envs Q) (henv : Q s.env) : s.captured.Envs Q where
  ends := h.ends
  tails := h.tails
  kept k hk := by
    obtain hk | rfl := Array.mem_push.mp hk
    · exact h.kept k hk
    · exact ⟨henv, h.ends⟩

/-- A new frame is inside of an environment that has been held. -/
theorem tails_of_makes (h : s.Envs Q) {f : Frame} (hmade : s.Makes f s') (hf : ∀ outer ∈ f.tail, Q outer) :
    ∀ f ∈ s'.scopes.frames, ∀ outer ∈ f.tail, Q outer := by
  intro g hg
  rw [hmade.frames] at hg
  obtain hg | rfl := Array.mem_push.mp hg
  · exact h.tails g hg
  · exact hf

theorem tails_of_modifySlot (h : s.Envs Q) (frame : Nat) (name : Name) (g : Slot → Slot) :
    ∀ f ∈ (s.scopes.modifySlot frame name g).frames, ∀ outer ∈ f.tail, Q outer := by
  intro f hf outer houter
  obtain ⟨i, hi⟩ := Array.mem_iff_getElem?.mp hf
  have htail := Scopes.tail_modifySlot s.scopes frame name g i
  rw [hi] at htail
  obtain ⟨f', hf', heq⟩ := Option.map_eq_some_iff.mp htail.symm
  exact h.tails f' (Array.mem_of_getElem? hf') outer (heq ▸ houter)

end State.Envs

theorem State.Makes.size_ne {s s' : State} {f : Frame} (h : s.Makes f s') :
    s'.scopes.frames.size ≠ s.scopes.frames.size := by
  rw [h.frames, Array.size_push]
  exact Nat.succ_ne_self _

namespace Machine

open Agenda

variable {p : Setting} {s s' : State} {Q : Env → Prop} {item : Item}

/-- What is held after a step, when all that was held before satisfies `Q`; the current environment may be a new one. -/
def EnvsAfter (Q : Env → Prop) (s s' : State) : Prop :=
  s'.Envs Q ∧ (s'.scopes.frames.size = s.scopes.frames.size → Q s'.env)

theorem envsAfter_still (hs : s.Envs Q) (henv : Q s.env) (hends : ∀ env ∈ s'.agenda.restores, Q env)
    (h : s.Still s') : EnvsAfter Q s s' :=
  ⟨⟨hends, h.scopes ▸ hs.tails, h.snapshots ▸ hs.kept⟩, fun _ => h.env ▸ henv⟩

theorem envsAfter_makes {f : Frame} (hs : s.Envs Q) (hends : ∀ env ∈ s'.agenda.restores, Q env)
    (hsnapshots : s'.snapshots = s.snapshots) (hmade : s.Makes f s') (hf : ∀ outer ∈ f.tail, Q outer) :
    EnvsAfter Q s s' :=
  ⟨⟨hends, hs.tails_of_makes hmade hf, hsnapshots ▸ hs.kept⟩, fun hsize => absurd hsize hmade.size_ne⟩

theorem not_isRestore_bodyItems (code : FunctionBody) : ∀ item ∈ bodyItems code, item.isRestore = false := by
  intro item hitem
  cases bodyPart_of_mem item hitem with
  | child h => rfl
  | simple h => exact Item.not_isRestore_of_isSimple h
  | marker => rfl

theorem Call.envsAfter {callee : Value} {args : List Value} (h : Call p s s' callee args) (hs : s.Envs Q)
    (henv : Q s.env) (hcallee : ∀ identity f, callee = .closure identity f → Q f.env) : EnvsAfter Q s s' := by
  cases h with
  | @enter identity f fname params code frame name node receiver hclosure hkind harity hagenda hstash hcalls
      hsnapshots hmade hnames =>
    refine envsAfter_makes hs (fun env hin => ?_) hsnapshots hmade fun outer houter => ?_
    · rw [hagenda, restores_append_of_plain (not_isRestore_bodyItems code)] at hin
      obtain rfl | hin := mem_restores_closing hin
      · exact henv
      · exact hs.ends env hin
    · cases houter
      exact hcallee identity f hclosure
  | answer hagenda hstash hstill => exact envsAfter_still hs henv (hagenda ▸ hs.ends) hstill
  | @invoke k kept hcontinuation harity hkept hregisters hscopes hsnapshots =>
    obtain ⟨hq, hends⟩ := hs.kept kept (Array.mem_of_getElem? hkept)
    have hagenda : s'.agenda = kept.agenda := congrArg Snapshot.agenda hregisters
    have henv' : s'.env = kept.env := congrArg Snapshot.env hregisters
    exact ⟨⟨hagenda ▸ hends, hscopes ▸ hs.tails, hsnapshots ▸ hs.kept⟩, fun _ => henv' ▸ hq⟩

/-- A step holds no environment that was not held before, but for that of the frame that it makes. -/
theorem Move.envsAfter (h : Move p s s' item) (hs : s.Envs Q) (henv : Q s.env)
    (hitem : ∀ env closesCall, item = .instr (.restore env closesCall) → Q env)
    (hvalues : ∀ identity f, .closure identity f ∈ s.stash → Q f.env) : EnvsAfter Q s s' := by
  have padded : ∀ {kind : NodeKind}, restores (kind.padding ++ s.agenda) = restores s.agenda := fun {kind} =>
    restores_append_of_plain (fun item hitem => Item.not_isRestore_of_isQuiet (isQuiet_padding kind item hitem)) _
  have node : ∀ {id : NodeId} {kind : NodeKind} (b : Agenda), restores (kindItems p id kind ++ b) = restores b :=
    fun {id kind} b => restores_append_of_plain (not_isRestore_kindItems p id kind) b
  cases h with
  | plain hkind hopened hgoes hagenda hstill =>
    refine envsAfter_still hs henv ?_ hstill
    rw [hagenda, node, padded]
    exact hs.ends
  | scope hkind hopened hagenda hcalls hsnapshots hmade hnames =>
    refine envsAfter_makes hs (fun env hin => ?_) hsnapshots hmade fun outer houter => ?_
    · rw [hagenda, node] at hin
      obtain rfl | hin := mem_restores_opening hin
      · exact henv
      · exact hs.ends env (padded ▸ hin)
    · cases houter
      exact henv
  | @returned id argument hkind hagenda hstash hstill =>
    refine envsAfter_still hs henv (fun env hin => ?_) hstill
    have hvalue := Item.not_isRestore_of_isQuiet (isQuiet_returnItem argument)
    rw [hagenda] at hin
    split at hin
    · rw [restores_cons_of_plain hvalue] at hin
      exact hs.ends env (mem_restores_of_suffix (unwindCall_suffix _) hin)
    · rw [restores_cons_of_plain hvalue, restores_cons_of_plain rfl] at hin
      exact hs.ends env hin
  | instr hplain hoffered hagenda hstill =>
    refine envsAfter_still hs henv ?_ hstill
    rw [hagenda, restores_append_of_plain (not_isRestore_offers hoffered)]
    exact hs.ends
  | assign howner hslot hvalue hmutability hagenda henv' hcalls hsnapshots hscopes =>
    exact ⟨⟨hagenda ▸ hs.ends, hscopes ▸ hs.tails_of_modifySlot _ _ _, hsnapshots ▸ hs.kept⟩, fun _ => henv' ▸ henv⟩
  | declare howner hagenda henv' hcalls hsnapshots hscopes =>
    exact ⟨⟨hagenda ▸ hs.ends, hscopes ▸ hs.tails_of_modifySlot _ _ _, hsnapshots ▸ hs.kept⟩, fun _ => henv' ▸ henv⟩
  | freshTrip hvars hagenda hcalls hsnapshots hmade =>
    refine envsAfter_makes hs (hagenda ▸ hs.ends) hsnapshots hmade fun outer houter => ?_
    -- The copy is inside of what the current frame is inside of.
    cases hf : s.scopes.frame? s.env with
    | none => rw [hf] at houter; cases houter
    | some f => rw [hf] at houter; exact hs.tails f (Array.mem_of_getElem? hf) outer houter
  | restore hagenda hstash henv' hcalls hscopes hsnapshots =>
    exact ⟨⟨hagenda ▸ hs.ends, hscopes ▸ hs.tails, hsnapshots ▸ hs.kept⟩, fun _ => henv' ▸ hitem _ _ rfl⟩
  | reset hagenda hstash hstill =>
    refine envsAfter_still hs henv (fun env hin => ?_) hstill
    exact hs.ends env (mem_restores_of_suffix (unwindCall_suffix _) (hagenda ▸ hin))
  | reached htarget hsearch hagenda hstash hstill =>
    refine envsAfter_still hs henv (fun env hin => ?_) hstill
    exact hs.ends env (mem_restores_of_suffix (suffix_of_searchLoop_reached hsearch) (hagenda ▸ hin))
  | @stopped i target item rest htarget hsearch hagenda hstash hstill =>
    refine envsAfter_still hs henv (fun env hin => ?_) hstill
    obtain ⟨dropped, env', closesCall, -, rfl, -⟩ := eq_of_searchLoop_scope hsearch
    refine hs.ends env (mem_restores_of_suffix (suffix_of_searchLoop_scope hsearch) ?_)
    rw [hagenda, restores_cons_restore, restores_cons_of_plain (Item.not_isRestore_of_target htarget)] at hin
    exact hin
  | @call args callee receiver stash node hoperands houtcome =>
    refine houtcome.envsAfter ⟨hs.ends, hs.tails, hs.kept⟩ henv fun identity f hclosure => hvalues identity f ?_
    rw [hoperands, hclosure]
    exact List.mem_append_right _ List.mem_cons_self
  | @callCc callee receiver stash node hoperands houtcome =>
    have hkept : State.Envs Q { s with stash } := ⟨hs.ends, hs.tails, hs.kept⟩
    refine houtcome.envsAfter (hkept.captured henv) henv fun identity f hclosure => hvalues identity f ?_
    rw [hoperands, hclosure]
    exact List.mem_cons_self
  | @callCcTwice receiver stash node hoperands houtcome =>
    have hkept : State.Envs Q { s with stash } := ⟨hs.ends, hs.tails, hs.kept⟩
    exact houtcome.envsAfter ((hkept.captured henv).captured henv) henv nofun

end Machine

/-! ## 2. Arguments of calls -/

structure State.Args (P : Value → Prop) (s : State) : Prop where
  now : ∀ call ∈ s.calls.frames, ∀ v ∈ call.args, P v
  kept : ∀ k ∈ s.snapshots, ∀ call ∈ k.calls.frames, ∀ v ∈ call.args, P v

theorem State.Args.mono {P P' : Value → Prop} {s : State} (h : s.Args P) (hP : ∀ v, P v → P' v) : s.Args P' where
  now call hcall v hv := hP v (h.now call hcall v hv)
  kept k hk call hcall v hv := hP v (h.kept k hk call hcall v hv)

theorem CallStack.mem_of_mem_pop {c : CallStack} {call : CallFrame} (h : call ∈ c.pop.frames) : call ∈ c.frames := by
  rw [CallStack.pop, ← Array.mem_toList_iff, Array.toList_pop] at h
  exact Array.mem_toList_iff.mp ((List.dropLast_sublist _).subset h)

namespace Machine

variable {p : Setting} {s s' : State} {P : Value → Prop} {item : Item} {rest : Agenda}

/-- A call tells arguments that have been on the stash, or a continuation. -/
theorem Applies.args {node : NodeId} {frame : CallFrame} (h : Applies p s node frame) (hstash : ∀ v ∈ s.stash, P v)
    (hcontinuation : ∀ k, P (.continuation k)) : ∀ v ∈ frame.args, P v := by
  cases h with
  | call hagenda hoperands hkind harity =>
    intro v hv
    exact hstash v (hoperands ▸ List.mem_append_left _ (List.mem_reverse.mpr hv))
  | callCc hagenda hoperands hkind harity => exact List.forall_mem_singleton.mpr (hcontinuation _)

theorem args_of_advance (hagenda : s.agenda = item :: rest) (hrun : advance p s = .running s') (hs : s.Args P)
    (hstash : ∀ v ∈ s.stash, P v) (hcontinuation : ∀ k, P (.continuation k)) : s'.Args P := by
  have hmove := move_of_advance hagenda hrun
  refine ⟨?_, fun k hk => ?_⟩
  · obtain hsame | hpop | ⟨k, hk, hsame⟩ | ⟨node, frame, happlies⟩ := hmove.recalls hagenda
    · exact hsame ▸ hs.now
    · rw [hpop]
      exact fun call hcall => hs.now call (CallStack.mem_of_mem_pop hcall)
    · exact hsame ▸ hs.kept k hk
    · rw [happlies.calls_of_advance hagenda hrun]
      intro call hcall
      obtain hcall | rfl := Array.mem_push.mp hcall
      · split at hcall
        · exact hs.now call (CallStack.mem_of_mem_pop hcall)
        · exact hs.now call hcall
      · exact happlies.args hstash hcontinuation
  · obtain hold | ⟨-, -, hcalls⟩ := hmove.captures k hk
    · exact hs.kept k hold
    · exact hcalls ▸ hs.now

/-- What instructions push that are put in front is no function of the program. -/
theorem pushes_of_adds {it : Item} (h : Adds p item it) (hitem : ∀ v, item = .instr (.push v) → v.isInert = true) :
    ∀ v, it = .instr (.push v) → v.isInert = true := by
  have simple : ∀ {i : Instr}, i.isSimple = true → ∀ v, Item.instr i = .instr (.push v) → v.isInert = true := by
    rintro i hi v hv
    cases hv
    exact hi
  cases h with
  | part hkind hpart =>
    cases part_of_mem _ hpart with
    | simple hi => exact simple hi
    | jump htarget =>
      rintro v ⟨⟩
      cases htarget
    | _ => exact nofun
  | padding => exact nofun
  | @argument id argument hkind =>
    cases argument with
    | none => exact simple (i := .push .undefined) rfl
    | some value => exact nofun
  | reset => exact nofun
  | offered hoffered =>
    cases hoffered with
    | simple hi => exact simple hi
    | again htest => exact hitem
    | _ => exact nofun
  | jump htarget => exact hitem
  | body hkind hbody =>
    cases hbody with
    | simple hi => exact simple hi
    | _ => exact nofun
  | ending => exact nofun

end Machine

/-! ## 3. The next number -/

/-- No frame has been made, or one, which has got the next number and is current.  Nothing takes a number back: when a
continuation is invoked, its environment becomes current again, but not the number that was next when it was
captured. -/
inductive State.Numbers (s s' : State) : Prop where
  | none (hnext : s'.nextEnvId = s.nextEnvId) (hsize : s'.scopes.frames.size = s.scopes.frames.size)
  | one (hnext : s'.nextEnvId = s.nextEnvId + 1) (hsize : s'.scopes.frames.size = s.scopes.frames.size + 1)
      (henv : s'.env = ⟨s.nextEnvId, s.scopes.frames.size⟩)

theorem State.Makes.numbers {s s' : State} {f : Frame} (h : s.Makes f s') : s.Numbers s' :=
  .one h.next (by rw [h.frames, Array.size_push]) h.handle

theorem Machine.Change.numbers {p : Setting} {s s' : State} (h : Change p s s') : s.Numbers s' := by
  have written : ∀ {frame : Nat} {name : Name} {g : Slot → Slot}, s'.scopes = s.scopes.modifySlot frame name g →
      s'.nextEnvId = s.nextEnvId → s.Numbers s' :=
    fun hscopes hnumber => .none hnumber (by rw [hscopes, Scopes.modifySlot, Array.size_modify])
  cases h with
  | still hscopes hnumber => exact .none hnumber (by rw [hscopes])
  | entered henters harity hmade hnames => exact hmade.numbers
  | copied hnext hmade => exact hmade.numbers
  | assigned hnext howner hslot hvalue hmutability hscopes hnumber => exact written hscopes hnumber
  | declared hnext howner hscopes hnumber => exact written hscopes hnumber

/-! ## 4. Numbers of frames -/

structure Env.Numbered (n : Nat) (e : Env) : Prop where
  lt : e.frame < n
  id : e.id = .ofNat e.frame

def Value.Numbered (n : Nat) : Value → Prop
  | .closure _ f => f.env.Numbered n
  | _ => True

theorem Env.Numbered.mono {n n' : Nat} (hle : n ≤ n') {e : Env} (h : e.Numbered n) : e.Numbered n' :=
  ⟨Nat.lt_of_lt_of_le h.lt hle, h.id⟩

/-- A number that does not wrap around is the place of its frame. -/
theorem Env.Numbered.toNat_id {n : Nat} {e : Env} (h : e.Numbered n) (hn : n ≤ UInt32.size) : e.id.toNat = e.frame := by
  rw [h.id, UInt32.toNat_ofNat_of_lt' (Nat.lt_of_lt_of_le h.lt hn)]

theorem Env.Numbered.id_eq_iff {n : Nat} {e e' : Env} (h : e.Numbered n) (h' : e'.Numbered n) (hn : n ≤ UInt32.size) :
    e.id = e'.id ↔ e.frame = e'.frame := by
  rw [← UInt32.toNat_inj, h.toNat_id hn, h'.toNat_id hn]

theorem Value.Numbered.mono {n n' : Nat} (hle : n ≤ n') {v : Value} (h : v.Numbered n) : v.Numbered n' := by
  cases v with
  | closure identity f => exact Env.Numbered.mono hle h
  | _ => trivial

theorem Value.numbered_of_isInert {n : Nat} {v : Value} (h : v.isInert = true) : v.Numbered n := by
  cases v with
  | closure identity f => cases h
  | _ => trivial

/-- Everything that the state holds has the number of its frame, and the next number is that of the next frame. -/
structure State.Numbered (s : State) : Prop where
  next : s.nextEnvId = .ofNat s.scopes.frames.size
  env : s.env.Numbered s.scopes.frames.size
  held : s.Envs (Env.Numbered s.scopes.frames.size)
  values : s.All (Value.Numbered s.scopes.frames.size)
  args : s.Args (Value.Numbered s.scopes.frames.size)
  pushes : s.AllItems fun item => ∀ v, item = .instr (.push v) → v.isInert = true

namespace Machine

variable {s s' : State}

section

variable {p : Setting} {item : Item} {rest : Agenda}

/-- Every step keeps the numbers, also where a continuation is invoked. -/
theorem numbered_advance (hkeeps : ∀ n, p.Keeps (Value.Numbered n)) (hagenda : s.agenda = item :: rest)
    (hrun : advance p s = .running s') (hs : s.Numbered) : s'.Numbered := by
  have hmove := move_of_advance hagenda hrun
  have hmem : item ∈ s.agenda := hagenda ▸ List.mem_cons_self
  -- What is held after the step has been held before, but for the environment of a new frame.
  have hvalues : Ensures (execute p item) { s with agenda := rest }
      (fun _ s' => s'.All (Value.Numbered s.scopes.frames.size)) fun _ _ => True := by
    refine all_execute (fun _ => Value.numbered_of_isInert) (fun _ => trivial) (hkeeps _) { hs.values with } ?_ ?_
    · exact fun v hv => Value.numbered_of_isInert (hs.pushes.agenda item hmem v hv)
    · exact fun _ _ _ _ _ _ _ => hs.env
  have hvalues := hvalues.of_advance hagenda hrun
  have hargs : s'.Args (Value.Numbered s.scopes.frames.size) :=
    args_of_advance hagenda hrun hs.args hs.values.stash fun _ => trivial
  have hrest : State.Envs (Env.Numbered s.scopes.frames.size) { s with agenda := rest } :=
    ⟨fun env henv => hs.held.ends env (hagenda ▸ Agenda.mem_restores_of_suffix (List.suffix_cons _ _) henv),
      hs.held.tails, hs.held.kept⟩
  obtain ⟨hheld, hcurrent⟩ := hmove.envsAfter hrest hs.env
    (fun env closesCall hitem => hs.held.ends env (by rw [hagenda, hitem]; exact List.mem_cons_self))
    fun identity f hf => hs.values.stash _ hf
  have hpushes := hmove.allItems ⟨fun it hit => hs.pushes.agenda it (hagenda ▸ List.mem_cons_of_mem _ hit),
    hs.pushes.snapshots⟩ fun it hadds => pushes_of_adds hadds (hs.pushes.agenda item hmem)
  cases (hmove.change hagenda).numbers with
  | none hnext hsize =>
    refine ⟨by rw [hnext, hs.next, hsize], ?_, ?_, ?_, ?_, hpushes⟩ <;> rw [hsize]
    · exact hcurrent hsize
    · exact hheld
    · exact hvalues
    · exact hargs
  | one hnext hsize henv =>
    have hle : s.scopes.frames.size ≤ s'.scopes.frames.size := hsize ▸ Nat.le_succ _
    refine ⟨?_, ?_, hheld.mono fun _ => Env.Numbered.mono hle, hvalues.mono fun _ => Value.Numbered.mono hle,
      hargs.mono fun _ => Value.Numbered.mono hle, hpushes⟩
    · rw [hnext, hs.next, hsize, UInt32.ofNat_add]
      rfl
    · rw [henv, hsize]
      exact ⟨Nat.lt_succ_self _, hs.next⟩

end

end Machine

/-! ## 5. What can be found -/

inductive Held where
  | registers (k : Snapshot)
  | env (e : Env)
  | value (v : Value)

/-- What the machine holds in a state, directly or in something else that it holds. -/
inductive State.Finds (p : Setting) (s : State) : Held → Prop where
  | now : Finds p s (.registers s.registers)
  | global : Finds p s (.env p.global)
  | method {entry : String × Value} (h : entry ∈ p.methods) : Finds p s (.value entry.2)
  | current {k : Snapshot} (h : Finds p s (.registers k)) : Finds p s (.env k.env)
  /-- The end of a scope or of a call is pending. -/
  | restore {k : Snapshot} {e : Env} (h : Finds p s (.registers k)) (he : e ∈ k.agenda.restores) : Finds p s (.env e)
  | push {k : Snapshot} {v : Value} (h : Finds p s (.registers k)) (hv : .instr (.push v) ∈ k.agenda) :
      Finds p s (.value v)
  | stash {k : Snapshot} {v : Value} (h : Finds p s (.registers k)) (hv : v ∈ k.stash) : Finds p s (.value v)
  | argument {k : Snapshot} {call : CallFrame} {v : Value} (h : Finds p s (.registers k))
      (hcall : call ∈ k.calls.frames) (hv : v ∈ call.args) : Finds p s (.value v)
  | outer {e outer : Env} (h : Finds p s (.env e)) (houter : s.scopes.tail? e = some outer) : Finds p s (.env outer)
  | slot {e : Env} {f : Frame} {name : Name} {slot : Slot} {v : Value} (h : Finds p s (.env e))
      (hf : s.scopes.frame? e = some f) (hslot : (name, slot) ∈ f.head) (hv : slot.value = some v) :
      Finds p s (.value v)
  | receiver {e : Env} {f : Frame} {v : Value} (h : Finds p s (.env e)) (hf : s.scopes.frame? e = some f)
      (hv : f.receiver = some v) : Finds p s (.value v)
  | element {c : CellId} {elements : Array Value} {v : Value} (h : Finds p s (.value (.array c)))
      (hc : s.heap.array? c = some elements) (hv : v ∈ elements) : Finds p s (.value v)
  | property {c : CellId} {o : Object} {key : String} {v : Value} (h : Finds p s (.value (.object c)))
      (hc : s.heap.object? c = some o) (hv : (key, v) ∈ o.entries) : Finds p s (.value v)
  | closure {identity : Nat} {f : Closure} (h : Finds p s (.value (.closure identity f))) : Finds p s (.env f.env)
  | continuation {i : Nat} {k : Snapshot} (h : Finds p s (.value (.continuation i)))
      (hk : s.snapshots[i]? = some k) : Finds p s (.registers k)

structure Snapshot.Numbered (n : Nat) (k : Snapshot) : Prop where
  env : k.env.Numbered n
  ends : ∀ env ∈ k.agenda.restores, env.Numbered n
  pushes : ∀ v, .instr (.push v) ∈ k.agenda → v.isInert = true
  stash : ∀ v ∈ k.stash, v.Numbered n
  args : ∀ call ∈ k.calls.frames, ∀ v ∈ call.args, v.Numbered n

def Held.Numbered (n : Nat) : Held → Prop
  | .registers k => k.Numbered n
  | .env e => e.Numbered n
  | .value v => v.Numbered n

/-- Whatever can be found is numbered. -/
theorem State.Finds.numbered {p : Setting} {s : State} {held : Held} (h : s.Finds p held) (hs : s.Numbered)
    (hglobal : p.global.Numbered s.scopes.frames.size) (hmethods : ∀ entry ∈ p.methods, entry.2.isInert = true) :
    held.Numbered s.scopes.frames.size := by
  induction h with
  | now =>
    exact ⟨hs.env, hs.held.ends, fun v hv => hs.pushes.agenda _ hv v rfl, hs.values.stash, hs.args.now⟩
  | global => exact hglobal
  | method h => exact Value.numbered_of_isInert (hmethods _ h)
  | current h ih => exact ih.env
  | restore h he ih => exact ih.ends _ he
  | push h hv ih => exact Value.numbered_of_isInert (ih.pushes _ hv)
  | stash h hv ih => exact ih.stash _ hv
  | argument h hcall hv ih => exact ih.args _ hcall _ hv
  | outer h houter ih =>
    obtain ⟨f, hf, houter⟩ := Option.bind_eq_some_iff.mp houter
    exact hs.held.tails f (Array.mem_of_getElem? hf) _ houter
  | slot h hf hslot hv ih => exact (hs.values.scopes.frame hf).head _ hslot _ hv
  | receiver h hf hv ih => exact (hs.values.scopes.frame hf).receiver _ hv
  | @element c elements v h hc hv ih => exact hs.values.heap.elements c v (by rwa [hc])
  | @property c o key v h hc hv ih => exact hs.values.heap.properties c (key, v) (by rwa [hc])
  | closure h ih => exact ih
  | @continuation i k h hk ih =>
    have hmem := Array.mem_of_getElem? hk
    obtain ⟨henv, hends⟩ := hs.held.kept k hmem
    exact ⟨henv, hends, fun v hv => hs.pushes.snapshots k hmem _ hv v rfl, hs.values.snapshots k hmem,
      hs.args.kept k hmem⟩

/-! ## 6. Runs -/

namespace Machine

section

variable {σ : Type} {t : Tree} {config : Config} {hosts : List EmbeddedFunction} {output : Output}
  {clock : Nat → Nat} {rule : PauseRule σ} {memory : σ} {s : State}

/-- What every program finds is put into the first frame. -/
theorem size_install (env : Env) (entries : List (String × Value)) (names : NameTable) (scopes : Scopes) :
    (install env entries names scopes).2.frames.size = scopes.frames.size := by
  induction entries generalizing names scopes with
  | nil => rfl
  | cons entry rest ih => exact (ih _ _).trans Array.size_modify

theorem frames_size_build : (build t config hosts output clock rule memory).state.scopes.frames.size = 1 :=
  size_install _ _ _ _

/-- The first frame has the number 0. -/
theorem numbered_build : (build t config hosts output clock rule memory).state.Numbered := by
  have hsize : (build t config hosts output clock rule memory).state.scopes.frames.size = 1 := frames_size_build
  have hroot : Env.Numbered (build t config hosts output clock rule memory).state.scopes.frames.size
      (build t config hosts output clock rule memory).state.env := ⟨hsize ▸ Nat.one_pos, rfl⟩
  have empty : ∀ {α : Type} {P : α → Prop}, ∀ x ∈ (#[] : Array α), P x := fun x hx =>
    absurd hx (Array.not_mem_empty x)
  refine ⟨by rw [hsize]; rfl, hroot, ⟨List.forall_mem_nil _, fun f hf outer houter => ?_, empty⟩, ?_, ⟨empty, empty⟩,
    List.forall_mem_singleton.mpr nofun, empty⟩
  · -- The only frame is outermost.
    obtain ⟨i, hi⟩ := Array.mem_iff_getElem?.mp hf
    have hlt := (Array.getElem?_eq_some_iff.mp hi).1
    rw [hsize] at hlt
    obtain rfl := Nat.lt_one_iff.mp hlt
    have htail : (build t config hosts output clock rule memory).state.scopes.frames[0]?.map Frame.tail =
        some none := tail_build
    rw [hi] at htail
    cases houter.symm.trans (Option.some.inj htail)
  · rw [build_eq_buildWith]
    exact all_buildWith t config hosts output clock rule memory (fun _ => Value.numbered_of_isInert)
      (globals_inert hosts)

theorem Reaches.numbered (hhosts : ∀ f ∈ hosts, f.Honest)
    (hs : (build t config hosts output clock rule memory).Reaches s) : s.Numbered := by
  refine hs.induct numbered_build fun s s' item rest _ hnumbered hagenda hrun _ => ?_
  exact numbered_advance (fun _ => keeps_buildWith t config hosts output clock rule memory fun f hf =>
    hhosts f hf _ (fun _ => Value.numbered_of_isInert) fun _ => trivial) hagenda hrun hnumbered

/-- Whatever environment a run can find is numbered. -/
theorem Reaches.numbered_found (hhosts : ∀ f ∈ hosts, f.Honest)
    (hs : (build t config hosts output clock rule memory).Reaches s) {e : Env}
    (h : s.Finds (build t config hosts output clock rule memory).setting (.env e)) :
    e.Numbered s.scopes.frames.size := by
  have hglobal := starts_build.outermost.trans_le hs.size_le
  exact h.numbered (hs.numbered hhosts) ⟨hglobal, rfl⟩ fun _ => isInert_of_mem_identify

end

section

variable {σ : Type}

/-- **Frames have their own numbers.**  Let the functions of the host make no functions of the program, and let a run
have made fewer than `2 ^ 32 - 1` frames.  Every environment that can be found then, be it current, brought back by
pending work, around another one, that of a function in any value, or kept by a continuation, is that of a frame that
has been made, and its number is smaller than the next one.  Two of them have the same number just if they have the same
frame, also if one was found earlier in the run.  The next number has never been larger. -/
theorem frames_have_their_own_numbers (t : Tree) (config : Config) (hosts : List EmbeddedFunction) (output : Output)
    (clock : Nat → Nat) (rule : PauseRule σ) (memory : σ) (hhosts : ∀ f ∈ hosts, f.Honest) (s : State)
    (hs : (build t config hosts output clock rule memory).Reaches s)
    (hfew : s.scopes.frames.size <
      (build t config hosts output clock rule memory).state.scopes.frames.size + (UInt32.size - 1)) :
    let m := build t config hosts output clock rule memory
    (∀ e, s.Finds m.setting (.env e) → (s.scopes.frame? e).isSome = true ∧ e.id < s.nextEnvId) ∧
      (∀ e e', s.Finds m.setting (.env e) → s.Finds m.setting (.env e') → (e.id = e'.id ↔ e.frame = e'.frame)) ∧
      ∀ (n : Nat) (r : State), m.Reaches r → travel m.setting n r = .running s →
        r.nextEnvId ≤ s.nextEnvId ∧
          ∀ e e', r.Finds m.setting (.env e) → s.Finds m.setting (.env e') → (e.id = e'.id ↔ e.frame = e'.frame) := by
  intro m
  rw [frames_size_build] at hfew
  have hsize : s.scopes.frames.size < UInt32.size := by
    rwa [Nat.add_sub_of_le (by decide : 1 ≤ UInt32.size)] at hfew
  have found : ∀ {r e}, m.Reaches r → r.Finds m.setting (.env e) → e.Numbered r.scopes.frames.size :=
    fun hr h => hr.numbered_found hhosts h
  have next : ∀ {r : State}, m.Reaches r → r.scopes.frames.size ≤ s.scopes.frames.size →
      r.nextEnvId.toNat = r.scopes.frames.size := fun hr hle => by
    rw [(hr.numbered hhosts).next, UInt32.toNat_ofNat_of_lt' (Nat.lt_of_le_of_lt hle hsize)]
  refine ⟨fun e h => ⟨?_, ?_⟩, fun e e' h h' => ?_, fun n r hr hrun => ⟨?_, fun e e' h h' => ?_⟩⟩
  · exact Option.isSome_iff_exists.mpr ⟨_, Array.getElem?_eq_getElem (found hs h).lt⟩
  · rw [UInt32.lt_iff_toNat_lt, next hs (Nat.le_refl _), (found hs h).toNat_id (Nat.le_of_lt hsize)]
    exact (found hs h).lt
  · exact (found hs h).id_eq_iff (found hs h') (Nat.le_of_lt hsize)
  · have hle := size_le_of_travel hrun
    rw [UInt32.le_iff_toNat_le, next hs (Nat.le_refl _), next hr hle]
    exact hle
  · exact ((found hr h).mono (size_le_of_travel hrun)).id_eq_iff (found hs h') (Nat.le_of_lt hsize)

end

end Machine

/-- A program in which a function invokes the continuation that has been captured for it. -/
def Tree.resuming : Tree where
  names := ⟨#["", "call_cc", "k"]⟩
  nodes := #[⟨.identifier ⟨2⟩, .dummy⟩, ⟨.literal (.bool true), .dummy⟩, ⟨.call ⟨0⟩ [⟨1⟩], .dummy⟩,
    ⟨.function none [⟨2⟩] (.expression ⟨2⟩), .dummy⟩, ⟨.identifier ⟨1⟩, .dummy⟩, ⟨.call ⟨4⟩ [⟨3⟩], .dummy⟩,
    ⟨.expressionStatement ⟨5⟩, .dummy⟩, ⟨.program [⟨6⟩], .dummy⟩]
  root := ⟨7⟩
  accepted := by decide

def State.continuation? (s : State) : Option Nat :=
  s.stash.findSome? fun v =>
    match v with
    | .continuation k => some k
    | _ => none

theorem State.mem_stash_of_continuation? {s : State} {k : Nat} (h : s.continuation? = some k) :
    .continuation k ∈ s.stash := by
  obtain ⟨v, hv, hk⟩ := List.exists_of_findSome?_eq_some h
  split at hk
  · cases hk
    exact hv
  · cases hk

namespace Machine

/-- The environment of the function and the one that the continuation keeps have their own numbers, and the latter has
the same number still when it is current again. -/
theorem frames_have_their_own_numbers_resuming :
    let m := build .resuming .standard [] default (fun _ => 0) .never ()
    (∀ f ∈ ([] : List EmbeddedFunction), f.Honest) ∧ ∃ (r s : State) (kept : Env),
      m.Reaches r ∧ travel m.setting 1 r = .running s ∧ m.Reaches s ∧
        s.scopes.frames.size < m.state.scopes.frames.size + (UInt32.size - 1) ∧
        r.Finds m.setting (.env kept) ∧ kept.frame ≠ r.env.frame ∧ s.env.frame = kept.frame ∧
        kept.id ≠ r.env.id ∧ s.env.id = kept.id ∧ kept.id < r.nextEnvId ∧ r.nextEnvId ≤ s.nextEnvId := by
  intro m
  have hhosts : ∀ f ∈ ([] : List EmbeddedFunction), f.Honest := List.forall_mem_nil _
  refine ⟨hhosts, ?_⟩
  -- Where the program is, and that it has not ended, is found out by running it.
  have hrun₉ : (travel m.setting 9 m.state).isRunning = true := by decide +kernel
  have hrun : (travel m.setting 1 (travel m.setting 9 m.state).state).isRunning = true := by decide +kernel
  have hsize : (travel m.setting 1 (travel m.setting 9 m.state).state).state.scopes.frames.size = 2 := by
    decide +kernel
  have hsize₉ : (travel m.setting 9 m.state).state.scopes.frames.size = 2 := by decide +kernel
  have hstash : (travel m.setting 9 m.state).state.continuation? = some 0 := by decide +kernel
  have hsnapshot : ((travel m.setting 9 m.state).state.snapshots[0]?).map Snapshot.env = some m.setting.global := by
    decide +kernel
  have hinside : (travel m.setting 9 m.state).state.env.frame = 1 := by decide +kernel
  have hback : (travel m.setting 1 (travel m.setting 9 m.state).state).state.env = m.setting.global := by
    decide +kernel
  have hr : m.Reaches (travel m.setting 9 m.state).state := (reaches_start m).travel (Progress.eq_running hrun₉)
  generalize (travel m.setting 9 m.state).state = r at hrun hsize hsize₉ hstash hsnapshot hinside hback hr
  have hs := Progress.eq_running hrun
  generalize (travel m.setting 1 r).state = s at hsize hback hs
  obtain ⟨k, hk, hkept⟩ := Option.map_eq_some_iff.mp hsnapshot
  have hfound : r.Finds m.setting (.env k.env) :=
    .current (.continuation (.stash .now (State.mem_stash_of_continuation? hstash)) hk)
  have hfirst : m.state.scopes.frames.size = 1 := frames_size_build
  have hfew : s.scopes.frames.size < m.state.scopes.frames.size + (UInt32.size - 1) := by rw [hsize, hfirst]; decide
  have hfew₉ : r.scopes.frames.size < m.state.scopes.frames.size + (UInt32.size - 1) := by rw [hsize₉, hfirst]; decide
  have hnumbers := frames_have_their_own_numbers .resuming .standard [] default (fun _ => 0) .never () hhosts
  obtain ⟨hbelow, hinjective, -⟩ := hnumbers r hr hfew₉
  obtain ⟨-, -, hearlier⟩ := hnumbers s (hr.travel hs) hfew
  obtain ⟨hnext, hsince⟩ := hearlier 1 r hr hs
  have hframe : k.env.frame ≠ r.env.frame := by rw [hkept, hinside]; decide
  have hsame : s.env.frame = k.env.frame := by rw [hback, hkept]
  exact ⟨r, s, k.env, hr, hs, hr.travel hs, hfew, hfound, hframe, hsame,
    mt (hinjective _ _ hfound (.current .now)).mp hframe, ((hsince _ _ hfound (.current .now)).mpr hsame.symm).symm,
    (hbelow _ hfound).2, hnext⟩

end Machine

end ExplicitControl
