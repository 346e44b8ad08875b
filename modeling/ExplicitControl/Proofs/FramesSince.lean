import ExplicitControl.Proofs.Balance
import ExplicitControl.Proofs.StaticScope

/-!
# Frames made since

Work that is done in front of other work begins in one frame and makes more.  As long as it stays in front, the current
environment is that frame or one made since, and each frame that a scope has made since is inside of one of these; only
the frame of a call may be inside of anything else.  So on the way outward from the current environment a name is found
before the walk goes past the first frame, if this frame has it, or a call has been made that leads out.  That copies of
frames keep to this is seen on the pending work: what is copied is never the frame of a call.
-/

namespace ExplicitControl

/-! ## 1. Looking outward -/

namespace Scopes

variable {s s' : Scopes} {frame frame' base : Nat} {name : Name} {env : Env}

inductive Surrounds (s : Scopes) (frame : Nat) : Nat → Prop where
  | here : Surrounds s frame frame
  | outer {frame' : Nat} {f : Frame} {outer : Env} (hf : s.frames[frame']? = some f) (htail : f.tail = some outer)
    (h : Surrounds s frame outer.frame) : Surrounds s frame frame'

/-- On the way outward from the frame `frame'` there is the frame of a call, and the function that has been called is
closed over an environment from which one comes to `frame`. -/
inductive CalledOver (s : Scopes) (frame : Nat) : Nat → Prop where
  | call {frame' : Nat} {f : Frame} {outer : Env} (hf : s.frames[frame']? = some f) (hcall : f.callSite.isSome = true)
    (htail : f.tail = some outer) (h : s.Surrounds frame outer.frame) : CalledOver s frame frame'
  | inner {frame' : Nat} {f : Frame} {outer : Env} (hf : s.frames[frame']? = some f) (htail : f.tail = some outer)
    (h : CalledOver s frame outer.frame) : CalledOver s frame frame'

/-- The frames that scopes have made after the frame `base` are inside of it, or inside of others made after it. -/
def ScopesInside (s : Scopes) (base : Nat) : Prop :=
  ∀ (frame : Nat) (f : Frame), base < frame → s.frames[frame]? = some f → f.callSite = none →
    ∃ outer, f.tail = some outer ∧ base ≤ outer.frame ∧ outer.frame < frame

def ScopeSince (s : Scopes) (base : Nat) (env : Env) : Prop :=
  base < env.frame ∧ ∃ f, s.frames[env.frame]? = some f ∧ f.callSite = none

def Remains (s s' : Scopes) : Prop :=
  ∀ (frame : Nat) (f : Frame), s.frames[frame]? = some f → ∃ f', s'.frames[frame]? = some f' ∧ f'.tail = f.tail ∧
    f'.callSite = f.callSite ∧ ∀ name, (f'.slot? name).isSome = (f.slot? name).isSome

theorem surrounds_of_findUpTo {p : Frame → Bool} {fuel : Nat} (h : s.findUpTo p fuel frame' = some frame) :
    s.Surrounds frame frame' := by
  induction fuel generalizing frame' with
  | zero => cases h
  | succ fuel ih =>
    unfold findUpTo at h
    split at h
    · cases h
    next f hf =>
      split at h
      · cases h
        exact .here
      · split at h
        next outer htail => exact .outer hf htail (ih h)
        next => cases h

/-- From a frame made since, a name leads no further than to the frame `base`, which has it, unless there is a call on
the way. -/
theorem calledOver_of_findUpTo (hinside : s.ScopesInside base) (hbase : (s.own? base name).isSome = true) {fuel : Nat}
    (hle : base ≤ frame') (hlt : frame < base)
    (h : s.findUpTo (fun f => (f.slot? name).isSome) fuel frame' = some frame) : s.CalledOver frame frame' := by
  induction fuel generalizing frame' with
  | zero => cases h
  | succ fuel ih =>
    cases hf : s.frames[frame']? with
    | none => rw [findUpTo, hf] at h; cases h
    | some f =>
      rw [findUpTo_succ hf] at h
      split at h
      · -- The name is found at once, but `frame` is older.
        cases h
        exact absurd hle (Nat.not_le_of_lt hlt)
      next hown =>
        obtain ⟨outer, htail, h⟩ := Option.bind_eq_some_iff.mp h
        have hne : base ≠ frame' := by
          rintro rfl
          exact hown hbase
        cases hcall : f.callSite with
        | some site => exact .call hf (by rw [hcall]; rfl) htail (surrounds_of_findUpTo h)
        | none =>
          obtain ⟨outer', htail', hle', -⟩ := hinside frame' f (Nat.lt_of_le_of_ne hle hne) hf hcall
          obtain rfl := Option.some.inj (htail.symm.trans htail')
          exact .inner hf htail (ih hle' h)

namespace Remains

theorem findUpTo (h : s.Remains s') {fuel : Nat}
    (howner : s.findUpTo (fun f => (f.slot? name).isSome) fuel frame' = some frame) :
    s'.findUpTo (fun f => (f.slot? name).isSome) fuel frame' = some frame := by
  induction fuel generalizing frame' with
  | zero => cases howner
  | succ fuel ih =>
    cases hf : s.frames[frame']? with
    | none => rw [Scopes.findUpTo, hf] at howner; cases howner
    | some f =>
      obtain ⟨f', hf', htail, -, hslots⟩ := h frame' f hf
      have hown : (s'.own? frame' name).isSome = (s.own? frame' name).isSome := by
        rw [own?, hf', own?, hf]
        exact hslots name
      rw [findUpTo_succ hf] at howner
      rw [findUpTo_succ hf', hown, htail]
      split
      next hhere => rwa [if_pos hhere] at howner
      next hhere =>
        rw [if_neg hhere] at howner
        obtain ⟨outer, houter, howner⟩ := Option.bind_eq_some_iff.mp howner
        rw [houter]
        exact ih howner

/-- A name leads to where it has led. -/
theorem owner? (h : s.Remains s') (howner : s.owner? env name = some frame) : s'.owner? env name = some frame :=
  h.findUpTo howner

theorem own? (h : s.Remains s') (howned : (s.own? frame name).isSome = true) : (s'.own? frame name).isSome = true := by
  obtain ⟨slot, hslot⟩ := Option.isSome_iff_exists.mp howned
  obtain ⟨f, hf, hslot⟩ := Option.bind_eq_some_iff.mp hslot
  obtain ⟨f', hf', -, -, hslots⟩ := h frame f hf
  rw [Scopes.own?, hf', Option.bind_some, hslots, hslot]
  rfl

theorem tail? (h : s.Remains s') {outer : Env} (htail : s.tail? env = some outer) : s'.tail? env = some outer := by
  obtain ⟨f, hf, houter⟩ := Option.bind_eq_some_iff.mp htail
  obtain ⟨f', hf', htail', -⟩ := h env.frame f hf
  rw [Scopes.tail?, frame?, hf']
  exact htail'.trans houter

theorem scopeSince (h : s.Remains s') (hsince : s.ScopeSince base env) : s'.ScopeSince base env := by
  obtain ⟨hlt, f, hf, hcall⟩ := hsince
  obtain ⟨f', hf', -, hcall', -⟩ := h env.frame f hf
  exact ⟨hlt, f', hf', hcall'.trans hcall⟩

end Remains

theorem remains_modifySlot (s : Scopes) (frame : Nat) (name : Name) (g : Slot → Slot) :
    s.Remains (s.modifySlot frame name g) := by
  intro i f hf
  rw [modifySlot, Array.getElem?_modify, hf]
  split
  · refine ⟨_, rfl, rfl, rfl, fun name' => ?_⟩
    rw [Frame.slot?_modifySlot]
    split
    · exact Option.isSome_map
    · rfl
  · exact ⟨f, rfl, rfl, rfl, fun _ => rfl⟩

theorem ScopesInside.modifySlot (h : s.ScopesInside base) (frame : Nat) (name : Name) (g : Slot → Slot) :
    (s.modifySlot frame name g).ScopesInside base := by
  intro i f hlt hf hcall
  rw [Scopes.modifySlot, Array.getElem?_modify] at hf
  split at hf
  · obtain ⟨f', hf', rfl⟩ := Option.map_eq_some_iff.mp hf
    exact h i f' hlt hf' hcall
  · exact h i f hlt hf hcall

end Scopes

namespace State.Makes

variable {s s' : State} {f : Frame} {base : Nat}

theorem remains (h : s.Makes f s') : s.scopes.Remains s'.scopes := by
  intro i g hg
  have hlt : i < s.scopes.frames.size := (Array.getElem?_eq_some_iff.mp hg).1
  refine ⟨g, ?_, rfl, rfl, fun _ => rfl⟩
  rw [h.frames, Array.getElem?_push, if_neg (Nat.ne_of_lt hlt), hg]

theorem getElem?_env (h : s.Makes f s') : s'.scopes.frames[s'.env.frame]? = some f := by
  rw [h.env, h.frames]
  exact Array.getElem?_push_size

theorem lt_size (h : s.Makes f s') : s'.env.frame < s'.scopes.frames.size := by
  rw [h.env, h.frames, Array.size_push]
  exact Nat.lt_succ_self _

/-- One frame more, which a call has made, or which is inside of a frame made since. -/
theorem scopesInside (h : s.Makes f s') (hinside : s.scopes.ScopesInside base)
    (hf : f.callSite = none → ∃ outer, f.tail = some outer ∧ base ≤ outer.frame ∧
      outer.frame < s.scopes.frames.size) : s'.scopes.ScopesInside base := by
  intro i g hlt hg hcall
  rw [h.frames, Array.getElem?_push] at hg
  split at hg
  next hnew =>
    cases hg
    rw [hnew]
    exact hf hcall
  next => exact hinside i g hlt hg hcall

/-- Nothing has been made after the frame that has just been made. -/
theorem scopesInside_env (h : s.Makes f s') : s'.scopes.ScopesInside s'.env.frame := by
  intro i g hlt hg _
  have hsize := (Array.getElem?_eq_some_iff.mp hg).1
  rw [h.frames, Array.size_push, ← h.env] at hsize
  exact absurd hlt (Nat.not_lt.mpr (Nat.le_of_lt_succ hsize))

end State.Makes

namespace Machine

variable {p : Setting} {s s' : State}

/-- Each step leaves the frames as they are, but for values and for frames that it makes. -/
theorem Change.remains (h : Change p s s') : s.scopes.Remains s'.scopes := by
  cases h with
  | still hscopes => exact hscopes ▸ fun _ f hf => ⟨f, hf, rfl, rfl, fun _ => rfl⟩
  | entered henters harity hmade hnames => exact hmade.remains
  | copied hnext hmade => exact hmade.remains
  | assigned hnext howner hslot hvalue hmutability hscopes => exact hscopes ▸ Scopes.remains_modifySlot _ _ _ _
  | declared hnext howner hscopes => exact hscopes ▸ Scopes.remains_modifySlot _ _ _ _

end Machine

/-! ## 2. Where pending work stands -/

/-- The environment that is current behind an item and all that it puts in front, or else one of which this is a
copy; `env` is the one before. -/
def Item.standing (env : Env) : Item → Env
  | .instr (.restore env' _) => env'
  | _ => env

def Agenda.standing (env : Env) (a : Agenda) : Env :=
  a.foldl Item.standing env

namespace Agenda

variable {a b : Agenda} {env : Env} {item : Item}

theorem standing_append (env : Env) (a b : Agenda) : standing env (a ++ b) = standing (standing env a) b :=
  List.foldl_append

theorem standing_cons (hitem : item.isRestore = false) (env : Env) (a : Agenda) :
    standing env (item :: a) = standing env a := by
  have hsame : item.standing env = env := by
    unfold Item.standing
    split
    · cases hitem
    · rfl
  rw [standing, List.foldl_cons, hsame]
  rfl

theorem standing_of_plain (h : ∀ item ∈ a, item.isRestore = false) (env : Env) : standing env a = env := by
  induction a with
  | nil => rfl
  | cons item a ih =>
    rw [List.forall_mem_cons] at h
    rw [standing_cons h.1, ih h.2]

theorem standing_of_endsScope (h : a.endsScope = true) (env env' : Env) : standing env a = standing env' a := by
  cases a with
  | nil => cases h
  | cons item rest =>
    obtain ⟨e, closesCall, rfl⟩ := Item.isRestore_iff.mp h
    rfl

/-- The environment before does not matter, or it is the one behind as well. -/
theorem standing_cases (a : Agenda) : (∀ env, standing env a = env) ∨ ∃ e, ∀ env, standing env a = e := by
  induction a with
  | nil => exact .inl fun _ => rfl
  | cons item rest ih =>
    cases hitem : item.isRestore with
    | false =>
      obtain hsame | ⟨e, he⟩ := ih
      · exact .inl fun env => (standing_cons hitem env rest).trans (hsame env)
      · exact .inr ⟨e, fun env => (standing_cons hitem env rest).trans (he env)⟩
    | true =>
      obtain ⟨e, closesCall, rfl⟩ := Item.isRestore_iff.mp hitem
      exact .inr ⟨standing e rest, fun _ => rfl⟩

theorem standing_opening (env env' : Env) (a : Agenda) : standing env (opening env' a) = standing env' a := by
  unfold opening
  split
  next h => exact standing_of_endsScope h _ _
  next => rfl

theorem standing_closing (env env' : Env) (a : Agenda) : standing env (closing env' a) = standing env' a := by
  obtain ⟨-, -, hclosing⟩ | ⟨e, closesCall, rest, rfl, -, hclosing⟩ := Machine.closing_cases env' a
  · rw [hclosing]
    rfl
  · rw [hclosing]
    rfl

theorem standing_unwindCall (ha : a.Tidy) (hmarker : .instr (.marker .call) ∈ a) (env env' : Env) :
    standing env (unwindCall a) = standing env' a := by
  have hends := endsScope_of_endsCall (ha.endsCall_unwindCall hmarker)
  obtain ⟨dropped, -, heq⟩ | ⟨hnone, -⟩ := unwindCall_cases a
  · conv_rhs => rw [heq, List.append_cons, standing_append]
    exact standing_of_endsScope hends _ _
  · exact absurd (hnone _ hmarker) (by decide)

/-- An item among other work, behind more work: it is in the first part, or it is behind that. -/
theorem split_at {a b before behind : Agenda} (h : before ++ item :: behind = a ++ b) :
    (∃ l, a = before ++ item :: l) ∨ item :: behind <:+ b := by
  obtain ⟨l, ha, hb⟩ | ⟨l, -, hb⟩ := List.append_eq_append_iff.mp h
  · cases l with
    | nil => exact .inr ⟨[], hb⟩
    | cons item' l =>
      obtain ⟨rfl, -⟩ := List.cons.inj hb
      exact .inl ⟨l, ha⟩
  · exact .inr ⟨l, hb.symm⟩

end Agenda

namespace Machine

open Agenda

variable {p : Setting} {s s' : State} {item it : Item} {before behind : Agenda}

theorem not_isRestore_kindItems (p : Setting) (id : NodeId) (kind : NodeKind) :
    ∀ item ∈ kindItems p id kind, item.isRestore = false :=
  fun item hitem => Item.not_isRestore_of_isQuiet (isQuiet_kindItems id kind item hitem)

theorem not_isRestore_offers {i : Instr} {items : List Item} (h : items ∈ i.offers) :
    ∀ item ∈ items, item.isRestore = false :=
  fun item hitem => Item.not_isRestore_of_isQuiet (isQuiet_offers h item hitem)

/-- A call leaves what is pending where it stands. -/
theorem Call.standing {callee : Value} {args : List Value} (h : Call p s s' callee args)
    (hnone : ∀ k, callee = .continuation k → 1 < args.length) :
    Agenda.standing s'.env s'.agenda = Agenda.standing s.env s.agenda := by
  cases h with
  | enter hclosure hkind harity hagenda hstash hcalls hsnapshots hmade hnames =>
    rw [hagenda, standing_append, standing_closing]
  | answer hagenda hstash hstill => rw [hagenda, hstill.env]
  | @invoke k kept hcontinuation harity hkept hregisters hscopes hsnapshots =>
    exact absurd (hnone k hcontinuation) (Nat.not_lt.mpr harity)

/-- A step leaves what is pending where it stands, if it does not drop everything; but a copy may take the place of the
current environment. -/
theorem Move.standing (h : Move p s s' item) (htidy : s.agenda.Tidy)
    (hnone : ∀ k v, ¬State.Invokes { s with agenda := item :: s.agenda } k v)
    (hreset : item = .instr .reset → .instr (.marker .call) ∈ s.agenda) :
    Agenda.standing s'.env s'.agenda = Agenda.standing s.env (item :: s.agenda) ∨
      Agenda.standing s'.env s'.agenda = s'.env ∧ ∃ vars, item = .instr (.freshTrip vars) ∧
        s.Makes (((s.scopes.frame? s.env).getD default).copy vars) s' := by
  cases h with
  | @plain id kind hkind hopened hgoes hagenda hstill =>
    refine .inl ?_
    rw [hagenda, hstill.env, standing_append, standing_of_plain (not_isRestore_kindItems p id kind), standing_append,
      standing_of_plain fun item hitem => Item.not_isRestore_of_isQuiet (isQuiet_padding kind item hitem)]
    rfl
  | @scope id kind name hkind hopened hagenda hcalls hsnapshots hmade hnames =>
    refine .inl ?_
    rw [hagenda, standing_append, standing_opening, standing_append,
      standing_of_plain fun item hitem => Item.not_isRestore_of_isQuiet (isQuiet_padding kind item hitem)]
    rfl
  | @returned id argument hkind hagenda hstash hstill =>
    have hvalue : (returnItem argument).isRestore = false := Item.not_isRestore_of_isQuiet (isQuiet_returnItem argument)
    refine .inl ?_
    rw [hagenda, hstill.env]
    split
    next htail =>
      rw [standing_cons hvalue, standing_unwindCall htidy (mem_marker_of_inTailPosition htail) _ s.env]
      rfl
    next =>
      rw [standing_cons hvalue]
      rfl
  | @instr i items hplain hoffered hagenda hstill =>
    have hi : (Item.instr i).isRestore = false := by cases i <;> first | rfl | cases hplain
    refine .inl ?_
    rw [hagenda, hstill.env, standing_append, standing_of_plain (not_isRestore_offers hoffered), standing_cons hi]
  | assign howner hslot hvalue hmutability hagenda henv hcalls hsnapshots hscopes =>
    exact .inl (by rw [hagenda, henv]; rfl)
  | declare howner hagenda henv hcalls hsnapshots hscopes => exact .inl (by rw [hagenda, henv]; rfl)
  | @freshTrip vars hvars hagenda hcalls hsnapshots hmade =>
    rw [hagenda, standing_cons rfl]
    -- If nothing that is pending brings back an environment, the copies stay current.
    obtain hsame | ⟨e, he⟩ := standing_cases s.agenda
    · exact .inr ⟨hsame _, vars, rfl, hmade⟩
    · exact .inl ((he _).trans (he _).symm)
  | restore hagenda hstash henv hcalls hscopes hsnapshots => exact .inl (by rw [hagenda, henv]; rfl)
  | reset hagenda hstash hstill =>
    rw [hagenda, standing_unwindCall htidy (hreset rfl) _ s.env]
    exact .inl rfl
  | @reached i target rest htarget hsearch hagenda hstash hstill =>
    obtain ⟨dropped, hdropped, heq⟩ := eq_of_searchLoop_reached hsearch
    refine .inl ?_
    rw [hagenda, hstill.env, standing_cons (Item.not_isRestore_of_target htarget), heq, standing_append,
      standing_of_plain fun item hitem => (Item.isPassed_iff.mp (hdropped item hitem)).2]
    rfl
  | @stopped i target item rest htarget hsearch hagenda hstash hstill =>
    obtain ⟨dropped, env, closesCall, hdropped, rfl, heq⟩ := eq_of_searchLoop_scope hsearch
    have hjump := Item.not_isRestore_of_target htarget
    refine .inl ?_
    rw [hagenda, standing_cons hjump, heq, standing_append]
    exact standing_cons hjump env rest
  | call hoperands houtcome =>
    exact .inl (houtcome.standing fun k => one_lt_of_not_invokes hoperands hnone)
  | callCc hoperands houtcome =>
    exact .inl (houtcome.standing fun k hk => absurd hk (ne_continuation_of_not_invokes hoperands hnone k))
  | callCcTwice hoperands houtcome => exact absurd (invokes_of_callCcTwice hoperands) (hnone _ _)

/-- Where an item of the pending work comes from that is there behind a step, with `before` in front of it. -/
inductive Source (s s' : State) (item : Item) (before : Agenda) (it : Item) (behind : Agenda) : Prop where
  | kept (h : it :: behind <:+ s.agenda)
  | plain (hvars : it.vars = []) (hrestore : it.isRestore = false)
  /-- The end of a scope or of a call, which may have been pending. -/
  | ending {env : Env} {closesCall : Bool} (h : it = .instr (.restore env closesCall))
    (henv : env = s.env ∨ ∃ closesCall, .instr (.restore env closesCall) ∈ s.agenda)
  | scope {f : Frame} (hrestore : it.isRestore = false) (hbefore : ∀ item ∈ before, item.isRestore = false)
    (hmade : s.Makes f s') (hcall : f.callSite = none)
  | trip (hrestore : it.isRestore = false) (hbefore : ∀ item ∈ before, item.isRestore = false) (hvars : item.vars ≠ [])
    (henv : s'.env = s.env)

theorem Source.of_suffix {a : Agenda} (ha : a <:+ s.agenda) (h : it :: behind <:+ a) :
    Source s s' item before it behind :=
  .kept (h.trans ha)

theorem source_simple {i : Instr} (h : i.isSimple = true) : Source s s' item before (.instr i) behind := by
  refine .plain ?_ (Item.not_isRestore_of_isSimple h)
  cases i <;> first | rfl | cases h

theorem source_jump {i : Instr} {target : Marker} (h : i.target? = some target) :
    Source s s' item before (.instr i) behind := by
  refine .plain ?_ (Item.not_isRestore_of_target h)
  cases i <;> first | rfl | cases h

/-- Behind the items of a node comes its padding, and then what was pending. -/
theorem source_padded {kind : NodeKind} (h : it :: behind <:+ kind.padding ++ s.agenda) :
    Source s s' item before it behind := by
  obtain ⟨d, hd⟩ := h
  obtain ⟨l, hpadding⟩ | hbehind := split_at hd
  · have hit : it ∈ kind.padding := hpadding ▸ List.mem_append_right d List.mem_cons_self
    rw [eq_of_mem_padding hit]
    exact .plain rfl rfl
  · exact .kept hbehind

/-- The end of the scope or call that begins, or what is pending behind it. -/
theorem source_restore {a : Agenda} {closesCall : Bool} (ha : it :: behind <:+ a → Source s s' item before it behind)
    (h : it :: behind <:+ .instr (.restore s.env closesCall) :: a) : Source s s' item before it behind := by
  obtain hhere | hbehind := List.suffix_cons_iff.mp h
  · exact .ending (List.cons.inj hhere).1 (.inl rfl)
  · exact ha hbehind

theorem source_opening {a : Agenda} (ha : it :: behind <:+ a → Source s s' item before it behind)
    (h : it :: behind <:+ a.opening s.env) : Source s s' item before it behind := by
  unfold Agenda.opening at h
  split at h
  · exact ha h
  · exact source_restore ha h

/-- A call ends where it returns to, or where the call ends that has been pending. -/
theorem source_closing (h : it :: behind <:+ s.agenda.closing s.env) : Source s s' item before it behind := by
  obtain ⟨-, -, hclosing⟩ | ⟨env', closesCall, rest, heq, -, hclosing⟩ := closing_cases s.env s.agenda
  · exact source_restore .kept (hclosing ▸ h)
  · rw [hclosing] at h
    obtain hhere | hbehind := List.suffix_cons_iff.mp h
    · exact .ending (List.cons.inj hhere).1 (.inr ⟨closesCall, heq ▸ List.mem_cons_self⟩)
    · exact .of_suffix (heq ▸ List.suffix_cons _ _) hbehind

/-- What is put in front for a node has variables to copy only if the node has a scope. -/
theorem source_kindItems {id : NodeId} {kind : NodeKind} (hit : it ∈ kindItems p id kind)
    (hvars : (p.tree.opened kind).map (fun d => d.2.1) = it.vars → Source s s' item before it behind) :
    Source s s' item before it behind := by
  cases part_of_mem it hit with
  | simple h => exact source_simple h
  | jump h => exact source_jump h
  | freshTrip h => exact hvars rfl
  | forTest h => exact hvars rfl
  | _ => exact .plain rfl rfl

theorem Call.source {s₁ : State} {callee : Value} {args : List Value} (h : Call p s₁ s' callee args)
    (hsame : s₁.agenda = s.agenda) (henv : s₁.env = s.env)
    (hnone : ∀ k, callee = .continuation k → 1 < args.length) (hs' : s'.agenda = before ++ it :: behind) :
    Source s s' item before it behind := by
  cases h with
  | @enter identity f fname params code frame name node receiver hclosure hkind harity hagenda hstash hcalls
      hsnapshots hmade hnames =>
    rw [hsame, henv] at hagenda
    obtain ⟨l, hitems⟩ | hbehind := split_at (hs'.symm.trans hagenda)
    · have hit : it ∈ bodyItems code := hitems ▸ List.mem_append_right _ List.mem_cons_self
      cases bodyPart_of_mem it hit with
      | simple h => exact source_simple h
      | _ => exact .plain rfl rfl
    · exact source_closing hbehind
  | answer hagenda hstash hstill =>
    exact .kept (hsame ▸ hagenda ▸ hs' ▸ List.suffix_append _ _)
  | @invoke k kept hcontinuation harity hkept hregisters hscopes hsnapshots =>
    exact absurd (hnone k hcontinuation) (Nat.not_lt.mpr harity)

/-- Whatever is pending behind a step has been pending, or the step has put it there in one of these ways. -/
theorem Move.source (h : Move p s s' item) (hnone : ∀ k v, ¬State.Invokes { s with agenda := item :: s.agenda } k v)
    (hs' : s'.agenda = before ++ it :: behind) : Source s s' item before it behind := by
  have here : it :: behind <:+ s'.agenda := hs' ▸ List.suffix_append _ _
  have mem : ∀ {items l : List Item}, items = before ++ it :: l → it ∈ items :=
    fun h => h ▸ List.mem_append_right _ List.mem_cons_self
  have first : ∀ {items l : List Item}, items = before ++ it :: l → (∀ item ∈ items, item.isRestore = false) →
      ∀ item ∈ before, item.isRestore = false :=
    fun h hall item hitem => hall item (h ▸ List.mem_append_left _ hitem)
  cases h with
  | @plain id kind hkind hopened hgoes hagenda hstill =>
    obtain ⟨l, hitems⟩ | hbehind := split_at (hs'.symm.trans hagenda)
    · refine source_kindItems (mem hitems) fun hvars => ?_
      rw [hopened] at hvars
      exact .plain hvars.symm (not_isRestore_kindItems p id kind it (mem hitems))
    · exact source_padded hbehind
  | @scope id kind name hkind hopened hagenda hcalls hsnapshots hmade hnames =>
    obtain ⟨l, hitems⟩ | hbehind := split_at (hs'.symm.trans hagenda)
    · have hplain := not_isRestore_kindItems p id kind
      exact .scope (hplain it (mem hitems)) (first hitems hplain) hmade rfl
    · exact source_opening source_padded hbehind
  | @returned id argument hkind hagenda hstash hstill =>
    have hvalue : Source s s' (.node id) before (returnItem argument) behind := by
      refine .plain ?_ (Item.not_isRestore_of_isQuiet (isQuiet_returnItem argument))
      cases argument <;> rfl
    rw [hagenda] at here
    split at here
    · obtain hhere | hbehind := List.suffix_cons_iff.mp here
      · exact (List.cons.inj hhere).1 ▸ hvalue
      · exact .of_suffix (unwindCall_suffix _) hbehind
    · obtain hhere | hbehind := List.suffix_cons_iff.mp here
      · exact (List.cons.inj hhere).1 ▸ hvalue
      · obtain hhere | hbehind := List.suffix_cons_iff.mp hbehind
        · rw [(List.cons.inj hhere).1]
          exact .plain rfl rfl
        · exact .kept hbehind
  | @instr i items hplain hoffered hagenda hstill =>
    obtain ⟨l, hitems⟩ | hbehind := split_at (hs'.symm.trans hagenda)
    · have hrestore := not_isRestore_offers hoffered
      by_cases hvars : (Item.instr i).vars = []
      · refine .plain ?_ (hrestore it (mem hitems))
        cases offered_of_mem hoffered (mem hitems) with
        | @simple i' h => cases i' <;> first | rfl | cases h
        | freshTrip => exact hvars
        | again h => exact hvars
        | _ => rfl
      · exact .trip (hrestore it (mem hitems)) (first hitems hrestore) hvars hstill.env
    · exact .kept hbehind
  | assign howner hslot hvalue hmutability hagenda henv hcalls hsnapshots hscopes => exact .kept (hagenda ▸ here)
  | declare howner hagenda henv hcalls hsnapshots hscopes => exact .kept (hagenda ▸ here)
  | freshTrip hvars hagenda hcalls hsnapshots hmade => exact .kept (hagenda ▸ here)
  | restore hagenda hstash henv hcalls hscopes hsnapshots => exact .kept (hagenda ▸ here)
  | reset hagenda hstash hstill => exact .of_suffix (unwindCall_suffix _) (hagenda ▸ here)
  | reached htarget hsearch hagenda hstash hstill =>
    exact .of_suffix (suffix_of_searchLoop_reached hsearch) (hagenda ▸ here)
  | @stopped i target item rest htarget hsearch hagenda hstash hstill =>
    obtain ⟨dropped, env, closesCall, -, rfl, heq⟩ := eq_of_searchLoop_scope hsearch
    rw [hagenda] at here
    obtain hhere | hbehind := List.suffix_cons_iff.mp here
    · refine .ending (List.cons.inj hhere).1 (.inr ⟨closesCall, ?_⟩)
      exact heq ▸ List.mem_append_right _ List.mem_cons_self
    · obtain hhere | hbehind := List.suffix_cons_iff.mp hbehind
      · rw [(List.cons.inj hhere).1]
        exact source_jump htarget
      · exact .of_suffix ((List.suffix_cons _ _).trans (suffix_of_searchLoop_scope hsearch)) hbehind
  | @call args callee receiver stash node hoperands houtcome =>
    exact houtcome.source rfl rfl (fun k => one_lt_of_not_invokes hoperands hnone) hs'
  | @callCc callee receiver stash node hoperands houtcome =>
    exact houtcome.source rfl rfl (fun k hk => absurd hk (ne_continuation_of_not_invokes hoperands hnone k)) hs'
  | callCcTwice hoperands houtcome => exact absurd (invokes_of_callCcTwice hoperands) (hnone _ _)

end Machine

/-! ## 3. What stays so -/

/-- The pending work has begun in the frame `base`.  The environment is that one or has been made since, and so are
those that the work brings back; scopes made since are inside; what the work copies are frames of such scopes. -/
structure State.Since (base : Nat) (s : State) : Prop where
  inside : s.scopes.ScopesInside base
  env : base ≤ s.env.frame ∧ s.env.frame < s.scopes.frames.size
  ends : ∀ env closesCall, .instr (.restore env closesCall) ∈ s.agenda →
    base ≤ env.frame ∧ env.frame < s.scopes.frames.size
  copies : ∀ before item behind, s.agenda = before ++ item :: behind → item.vars ≠ [] →
    s.scopes.ScopeSince base (Agenda.standing s.env before)

namespace Machine

open Agenda

variable {p : Setting} {s s' : State} {item : Item} {base : Nat}

/-- Work that neither brings an environment back nor copies anything begins in the current frame. -/
theorem since_of_plain {a : Agenda} (hagenda : s.agenda = a) (hinside : s.scopes.ScopesInside base)
    (henv : s.env.frame = base) (hlt : base < s.scopes.frames.size)
    (ha : ∀ item ∈ a, item.isRestore = false ∧ item.vars = []) : s.Since base := by
  subst hagenda
  refine ⟨hinside, ⟨Nat.le_of_eq henv.symm, henv ▸ hlt⟩, fun env closesCall h => ?_,
    fun before it behind heq hvars => ?_⟩
  · cases (ha _ h).1
  · exact absurd (ha it (heq ▸ List.mem_append_right _ List.mem_cons_self)).2 hvars

/-- A call makes a frame that may be inside of any other. -/
theorem Call.scopesInside {callee : Value} {args : List Value} (h : Call p s s' callee args)
    (hinside : s.scopes.ScopesInside base) : s'.scopes.ScopesInside base := by
  cases h with
  | enter hclosure hkind harity hagenda hstash hcalls hsnapshots hmade hnames => exact hmade.scopesInside hinside nofun
  | answer hagenda hstash hstill => exact hstill.scopes ▸ hinside
  | invoke hcontinuation harity hkept hregisters hscopes hsnapshots => exact hscopes ▸ hinside

theorem Call.env_cases {s₁ : State} {callee : Value} {args : List Value} (h : Call p s₁ s' callee args)
    (henv : s₁.env = s.env) (hscopes : s₁.scopes = s.scopes) (hnext : s₁.nextEnvId = s.nextEnvId)
    (hnone : ∀ k, callee = .continuation k → 1 < args.length) :
    s'.env = s.env ∨ ∃ f, s.Makes f s' := by
  cases h with
  | enter hclosure hkind harity hagenda hstash hcalls hsnapshots hmade hnames =>
    exact .inr ⟨_, hmade.congr hscopes hnext⟩
  | answer hagenda hstash hstill => exact .inl (hstill.env.trans henv)
  | @invoke k kept hcontinuation harity hkept hregisters hscopes hsnapshots =>
    exact absurd (hnone k hcontinuation) (Nat.not_lt.mpr harity)

section

variable {rest : Agenda} (hagenda : s.agenda = item :: rest) (h : Move p { s with agenda := rest } s' item)
include hagenda h

/-- The environment stays, or its frame is a new one, or it is brought back. -/
theorem Move.env_cases (hnone : ∀ k v, ¬s.Invokes k v) :
    s'.env = s.env ∨ (∃ f, s.Makes f s') ∨ ∃ closesCall, item = .instr (.restore s'.env closesCall) := by
  have hcalm : ∀ k v, ¬State.Invokes { s with agenda := item :: rest } k v := not_invokes_cons hagenda hnone
  cases h with
  | plain hkind hopened hgoes hagenda' hstill => exact .inl hstill.env
  | scope hkind hopened hagenda' hcalls hsnapshots hmade hnames =>
    exact .inr (.inl ⟨_, hmade.handle, hmade.frames, hmade.next⟩)
  | returned hkind hagenda' hstash hstill => exact .inl hstill.env
  | instr hplain hoffered hagenda' hstill => exact .inl hstill.env
  | assign howner hslot hvalue hmutability hagenda' henv hcalls hsnapshots hscopes => exact .inl henv
  | declare howner hagenda' henv hcalls hsnapshots hscopes => exact .inl henv
  | freshTrip hvars hagenda' hcalls hsnapshots hmade => exact .inr (.inl ⟨_, hmade.handle, hmade.frames, hmade.next⟩)
  | restore hagenda' hstash henv hcalls hscopes hsnapshots => exact .inr (.inr ⟨_, by rw [henv]⟩)
  | reset hagenda' hstash hstill => exact .inl hstill.env
  | reached htarget hsearch hagenda' hstash hstill => exact .inl hstill.env
  | stopped htarget hsearch hagenda' hstash hstill => exact .inl hstill.env
  | call hoperands houtcome =>
    exact (houtcome.env_cases (s := s) rfl rfl rfl fun k => one_lt_of_not_invokes hoperands hcalm).imp_right .inl
  | callCc hoperands houtcome =>
    exact (houtcome.env_cases (s := s) rfl rfl rfl fun k hk =>
      absurd hk (ne_continuation_of_not_invokes hoperands hcalm k)).imp_right .inl
  | callCcTwice hoperands houtcome => exact absurd (invokes_of_callCcTwice hoperands) (hcalm _ _)

/-- New scopes are inside of what has been made since, and so are copies. -/
theorem Move.scopesInside (hs : s.Since base) : s'.scopes.ScopesInside base := by
  cases h with
  | plain hkind hopened hgoes hagenda' hstill => exact hstill.scopes ▸ hs.inside
  | scope hkind hopened hagenda' hcalls hsnapshots hmade hnames =>
    exact State.Makes.scopesInside ⟨hmade.handle, hmade.frames, hmade.next⟩ hs.inside fun _ => ⟨s.env, rfl, hs.env⟩
  | returned hkind hagenda' hstash hstill => exact hstill.scopes ▸ hs.inside
  | instr hplain hoffered hagenda' hstill => exact hstill.scopes ▸ hs.inside
  | assign howner hslot hvalue hmutability hagenda' henv hcalls hsnapshots hscopes =>
    exact hscopes ▸ hs.inside.modifySlot _ _ _
  | declare howner hagenda' henv hcalls hsnapshots hscopes => exact hscopes ▸ hs.inside.modifySlot _ _ _
  | freshTrip hvars hagenda' hcalls hsnapshots hmade =>
    obtain ⟨hlt, f, hf, hcall⟩ := hs.copies [] _ _ hagenda hvars
    obtain ⟨outer, htail, hle, hlt'⟩ := hs.inside _ f hlt hf hcall
    refine State.Makes.scopesInside (s := s) ⟨hmade.handle, hmade.frames, hmade.next⟩ hs.inside fun _ =>
      ⟨outer, ?_, hle, ?_⟩
    · rw [Scopes.frame?, show s.scopes.frames[s.env.frame]? = some f from hf]
      exact htail
    · exact Nat.lt_trans hlt' hs.env.2
  | restore hagenda' hstash henv hcalls hscopes hsnapshots => exact hscopes ▸ hs.inside
  | reset hagenda' hstash hstill => exact hstill.scopes ▸ hs.inside
  | reached htarget hsearch hagenda' hstash hstill => exact hstill.scopes ▸ hs.inside
  | stopped htarget hsearch hagenda' hstash hstill => exact hstill.scopes ▸ hs.inside
  | call hoperands houtcome => exact houtcome.scopesInside hs.inside
  | callCc hoperands houtcome => exact houtcome.scopesInside hs.inside
  | callCcTwice hoperands houtcome => exact houtcome.scopesInside hs.inside

/-- What a step leaves pending stands where it has stood, or where the new work stands. -/
theorem Move.copies (htidy : rest.Tidy) (hnone : ∀ k v, ¬s.Invokes k v) (hs : s.Since base)
    {before : Agenda} {it : Item}
    {behind : Agenda} (hs' : s'.agenda = before ++ it :: behind) (hvars : it.vars ≠ []) :
    s'.scopes.ScopeSince base (Agenda.standing s'.env before) := by
  have hcalm : ∀ a k v, ¬State.Invokes { s with agenda := item :: a } k v := fun a => not_invokes_cons hagenda hnone
  have hremains := (h.change hagenda).remains
  have since : ∀ {f : Frame}, s.Makes f s' → f.callSite = none → s'.scopes.ScopeSince base s'.env := by
    intro f hmade hcall
    refine ⟨?_, f, hmade.getElem?_env, hcall⟩
    rw [hmade.env]
    exact Nat.lt_of_le_of_lt hs.env.1 hs.env.2
  cases h.source (hcalm rest) hs' with
  | kept hkept =>
    obtain ⟨pre, hrest⟩ := hkept
    have hrest : pre ++ it :: behind = rest := hrest
    have hb : Agenda.endsScope (it :: behind) = false := by
      refine endsScope_cons ?_ behind
      cases hrestore : it.isRestore with
      | false => rfl
      | true =>
        obtain ⟨e, closesCall, rfl⟩ := Item.isRestore_iff.mp hrestore
        exact absurd rfl hvars
    -- What is behind stays, so the step is one of the work in front of it.
    obtain ⟨a', kept, hagenda', habove⟩ := h.above (a := pre) hb hrest.symm (hcalm rest) (hs' ▸ List.suffix_append _ _)
    obtain rfl : before = a' := List.append_cancel_right (hs'.symm.trans hagenda')
    have hreset : item = .instr .reset → .instr (.marker .call) ∈ pre := by
      rintro rfl
      refine mem_marker_of_suffix (List.cons_ne_nil it behind) ?_
      rw [hrest, ← agenda_of_reset h]
      exact hs' ▸ List.suffix_append _ _
    obtain hsame | ⟨hnew, vars, -, hmade⟩ :=
      habove.standing (Tidy.of_append hb (hrest ▸ htidy)) (hcalm pre) hreset
    · rw [hsame]
      exact hremains.scopeSince (hs.copies (item :: pre) it behind (by rw [hagenda, ← hrest]; rfl) hvars)
    · rw [hnew]
      exact since ⟨hmade.handle, hmade.frames, hmade.next⟩ rfl
  | plain hnone' hrestore => exact absurd hnone' hvars
  | ending hit henv =>
    subst hit
    exact absurd rfl hvars
  | scope hrestore hbefore hmade hcall =>
    rw [standing_of_plain hbefore]
    exact since ⟨hmade.handle, hmade.frames, hmade.next⟩ hcall
  | trip hrestore hbefore hvars' henv =>
    rw [standing_of_plain hbefore, henv]
    exact hremains.scopeSince (hs.copies [] item rest hagenda hvars')

/-- A step that invokes no continuation keeps to the frames made since. -/
theorem Move.since (htidy : rest.Tidy) (hnone : ∀ k v, ¬s.Invokes k v) (hs : s.Since base) : s'.Since base := by
  have hle := (h.change hagenda).size_le
  refine ⟨h.scopesInside hagenda hs, ?_, fun env closesCall hmem => ?_, fun before it behind hs' hvars =>
    h.copies hagenda htidy hnone hs hs' hvars⟩
  · obtain henv | ⟨f, hmade⟩ | ⟨closesCall, rfl⟩ := h.env_cases hagenda hnone
    · exact henv ▸ ⟨hs.env.1, Nat.lt_of_lt_of_le hs.env.2 hle⟩
    · exact ⟨hmade.env ▸ Nat.le_of_lt (Nat.lt_of_le_of_lt hs.env.1 hs.env.2), hmade.lt_size⟩
    · obtain ⟨hbase, hlt⟩ := hs.ends _ _ (hagenda ▸ List.mem_cons_self)
      exact ⟨hbase, Nat.lt_of_lt_of_le hlt hle⟩
  · have pending : ∀ {closesCall}, .instr (.restore env closesCall) ∈ rest →
        base ≤ env.frame ∧ env.frame < s'.scopes.frames.size := by
      intro closesCall hmem
      obtain ⟨hbase, hlt⟩ := hs.ends env closesCall (hagenda ▸ List.mem_cons_of_mem _ hmem)
      exact ⟨hbase, Nat.lt_of_lt_of_le hlt hle⟩
    obtain ⟨before, behind, hs'⟩ := List.append_of_mem hmem
    have hcalm : ∀ k v, ¬State.Invokes { s with agenda := item :: rest } k v := not_invokes_cons hagenda hnone
    cases h.source hcalm hs' with
    | kept hkept => exact pending (hkept.subset List.mem_cons_self)
    | plain hvars hrestore => cases hrestore
    | ending hit henv =>
      cases hit
      obtain rfl | ⟨closesCall', hmem'⟩ := henv
      · exact ⟨hs.env.1, Nat.lt_of_lt_of_le hs.env.2 hle⟩
      · exact pending hmem'
    | scope hrestore hbefore hmade hcall => cases hrestore
    | trip hrestore hbefore hvars henv => cases hrestore

end

end Machine

end ExplicitControl
