import ExplicitControl.Proofs.InTree
import ExplicitControl.Proofs.Scheduled

/-!
# Variables get their values once

A declaration gives its value to the nearest variable of its name, constant or not, and whether it has a value
already.  Still no constant ever changes, and no variable gets its first value but by its own declaration: as long
as no continuation is invoked, every declaration that is still to be carried out has a variable of its own in the
frame where it will be, which has no value yet.
-/

namespace ExplicitControl

def Machine.Declares {σ : Type} (m : Machine σ) (frame : Nat) (id : NodeId) (name : Name) : Prop :=
  ∃ scope outer kind, m.Made frame scope outer ∧ (id, name, kind) ∈ m.setting.tree.declared scope

/-! ## 1. Every declaration has its variable -/

namespace Machine

open Agenda Place

variable {σ : Type} {m : Machine σ} {s s' : State} {scopes scopes' : Scopes} {env env' : Env} {a a' : Agenda}

/-- Every declaration of the pending work will be carried out in a frame that has a variable of its own for it,
which has no value yet, and is declared by no other of them. -/
structure Settled (m : Machine σ) (scopes : Scopes) (env : Env) (a : Agenda) : Prop where
  sound : Sound m.setting.tree scopes (.known env []) a
  owed : ∀ d ∈ owed m.setting.tree (.known env []) a, scopes.Lacks d.1 d.2.2 ∧ m.Declares d.1 d.2.1 d.2.2
  once : ((Agenda.owed m.setting.tree (.known env []) a).map fun d => (d.1, d.2.2)).Nodup

theorem Settled.less (h : Settled m scopes env a) (hsound : Sound m.setting.tree scopes' (.known env' []) a')
    (howed : (Agenda.owed m.setting.tree (.known env' []) a').Sublist (Agenda.owed m.setting.tree (.known env []) a))
    (hlacks : ∀ d ∈ Agenda.owed m.setting.tree (.known env' []) a', scopes.Lacks d.1 d.2.2 → scopes'.Lacks d.1 d.2.2) :
    Settled m scopes' env' a' := by
  refine ⟨hsound, fun d hd => ?_, h.once.sublist (howed.map _)⟩
  obtain ⟨hbefore, hdeclares⟩ := h.owed d (howed.subset hd)
  exact ⟨hlacks d hd hbefore, hdeclares⟩

/-- The same in other words, for work that owes the same over frames that have not changed. -/
theorem Settled.same (h : Settled m scopes env a)
    (hsame : Sound m.setting.tree scopes (.known env' []) a' ∧
      Agenda.owed m.setting.tree (.known env' []) a' = Agenda.owed m.setting.tree (.known env []) a) :
    Settled m scopes env' a' :=
  h.less hsame.1 (hsame.2 ▸ List.Sublist.refl _) fun _ _ h => h

/-- A scope has been entered, and what it declares is owed besides. -/
theorem Settled.entered {scope : NodeId} {outer : Env} {args : List Value} {f : Frame}
    (h : Settled m s.scopes s.env s.agenda) (hs : m.Reaches s) (hrun : advance m.setting s = .running s')
    (henters : s.Enters scope outer) (hmade : s.Makes f s') (hhead : f.head = m.setting.tree.slots scope args)
    (hnames : ((m.setting.tree.slots scope args).map Prod.fst).Nodup)
    (hsound : Sound m.setting.tree s.scopes (.known s'.env []) s'.agenda)
    (howed : ∃ b, Agenda.owed m.setting.tree (.known s'.env []) s'.agenda =
      ((m.setting.tree.declared scope).map fun d => (s'.env.frame, d.1, d.2.1)) ++ b ∧
        b.Sublist (Agenda.owed m.setting.tree (.known s.env []) s.agenda)) :
    Settled m s'.scopes s'.env s'.agenda := by
  obtain ⟨b, howed, hb⟩ := howed
  have hmade' := made_of_makes hs hrun henters hmade
  have hframe : s'.env.frame = s.scopes.frames.size := hmade.env
  refine ⟨(hsound.serves (fun _ _ => hmade.holds) (.refl _ _)).1, fun d hd => ?_, ?_⟩
  · rw [howed] at hd
    obtain hd | hd := List.mem_append.mp hd
    · obtain ⟨d, hdeclared, rfl⟩ := List.mem_map.mp hd
      refine ⟨⟨d.2.2.mutability, ?_⟩, ?_⟩
      · rw [hmade.own?, if_pos hframe, Frame.slot?, hhead]
        exact lookup_of_mem hnames (Tree.mem_slots_of_declared hdeclared args)
      · exact ⟨scope, outer, d.2.2, hframe ▸ hmade', hdeclared⟩
    · obtain ⟨hlacks, hdeclares⟩ := h.owed d (hb.subset hd)
      exact ⟨hmade.lacks hlacks, hdeclares⟩
  · rw [howed, List.map_append, List.map_map]
    refine List.nodup_append'.mpr ⟨?_, h.once.sublist (hb.map _), ?_⟩
    · -- The names of the new variables differ.
      have hdeclared : ((m.setting.tree.declared scope).map fun d => d.2.1).Nodup := by
        rw [Tree.slots, List.map_append, List.nodup_append', List.map_reverse, List.nodup_reverse, declaredSlots,
          List.map_map] at hnames
        exact hnames.1
      have hpairs : ((m.setting.tree.declared scope).map fun d => d.2.1).map (fun x => (s'.env.frame, x)) =
          (m.setting.tree.declared scope).map ((fun d => (d.1, d.2.2)) ∘ fun d => (s'.env.frame, d.1, d.2.1)) := by
        rw [List.map_map]
        rfl
      rw [← hpairs]
      exact hdeclared.map fun _ _ heq => congrArg Prod.snd heq
    · -- The other variables are in older frames.
      rintro pair hnew hold
      obtain ⟨d, -, rfl⟩ := List.mem_map.mp hnew
      obtain ⟨d', hd', heq⟩ := List.mem_map.mp hold
      obtain ⟨⟨mutability, hslot⟩, -⟩ := h.owed d' (hb.subset hd')
      have hlt := Scopes.lt_size_of_own? hslot
      have hsame : d'.1 = s'.env.frame := congrArg Prod.fst heq
      rw [hsame, hframe] at hlt
      exact Nat.lt_irrefl _ hlt

/-- Calls keep it so. -/
theorem Settled.call (ht : m.setting.tree.DeclaresInPlace) {rest : Agenda} {callee : Value} {args : List Value}
    {s₁ : State} (h : Settled m s.scopes s.env s.agenda) (hs : m.Reaches s)
    (hrun : advance m.setting s = .running s') (hcall : Call m.setting s₁ s' callee args)
    (hagenda : s₁.agenda = rest) (hscopes : s₁.scopes = s.scopes) (hnext : s₁.nextEnvId = s.nextEnvId)
    (henv : s₁.env = s.env)
    (hrest : Sound m.setting.tree s.scopes (.known s.env []) rest ∧
      Agenda.owed m.setting.tree (.known s.env []) rest = Agenda.owed m.setting.tree (.known s.env []) s.agenda)
    (happlies : ∀ f, callee.applied? args = some f → s.Applies f)
    (hnone : ∀ k, callee = .continuation k → 1 < args.length) : Settled m s'.scopes s'.env s'.agenda := by
  cases hcall with
  | @enter identity f fname params code frame name node receiver hclosure hkind harity hagenda' hstash hcalls
      hsnapshots hmade hnames =>
    subst hclosure
    have hslots := Tree.slots_of_function hkind args
    have hmade' : s.Makes ⟨name, m.setting.tree.slots f.node args, some f.env, some node, receiver⟩ s' := by
      rw [hslots]
      exact hmade.congr hscopes hnext
    obtain ⟨hsound, howed⟩ := sound_body ht hkind hrest.1 s'.env
    rw [henv, hagenda] at hagenda'
    rw [← hagenda'] at hsound howed
    refine h.entered hs hrun (.call (happlies f rfl)) hmade' rfl (by rw [hslots]; exact hnames) hsound
      ⟨Agenda.owed m.setting.tree (.known s.env []) rest, ?_, ?_⟩
    · rw [(Tree.declared_of_function hkind).1]
      exact howed
    · rw [hrest.2]
  | answer hagenda' hstash hstill =>
    rw [hstill.scopes, hstill.env, hagenda', hscopes, henv, hagenda]
    exact h.same hrest
  | invoke hcontinuation harity hkept hregisters hscopes' hsnapshots =>
    exact absurd (hnone _ hcontinuation) (Nat.not_lt.mpr harity)

/-! ### One step -/

section

variable {item : Item} {rest : Agenda}

/-- The frames have not changed, and no more is owed. -/
theorem Settled.still (h : Settled m s.scopes s.env s.agenda) (hstill : s.Still s')
    (hsound : Sound m.setting.tree s.scopes (.known s.env []) s'.agenda)
    (howed : (Agenda.owed m.setting.tree (.known s.env []) s'.agenda).Sublist
      (Agenda.owed m.setting.tree (.known s.env []) s.agenda)) : Settled m s'.scopes s'.env s'.agenda := by
  rw [hstill.scopes, hstill.env]
  exact h.less hsound howed fun _ _ h => h

/-- A scope of a node is entered. -/
theorem Settled.scope (ht : m.setting.tree.DeclaresInPlace) (h : Settled m s.scopes s.env s.agenda) (hs : m.Reaches s)
    (hrun : advance m.setting s = .running s') {id : NodeId} {kind : NodeKind} {name : String}
    (hagenda : s.agenda = .node id :: rest) (hkind : m.setting.tree.kind? id = some kind)
    (hopened : m.setting.tree.opened kind ≠ [])
    (hagenda' : s'.agenda = kindItems m.setting id kind ++ Agenda.opening s.env (kind.padding ++ rest))
    (hmade : s.Makes ⟨name, (declaredSlots (m.setting.tree.opened kind)).reverse, some s.env, none, none⟩ s')
    (hnames : ((m.setting.tree.opened kind).map fun d => d.2.1).Nodup) : Settled m s'.scopes s'.env s'.agenda := by
  obtain ⟨hdeclared, -⟩ := Tree.declared_of_opened hkind hopened
  have hslots := Tree.slots_of_opened hkind hopened
  obtain ⟨hsound, howed⟩ := sound_scope ht hkind hopened (hagenda ▸ h.sound) s'.env
  rw [← hagenda, ← hagenda', ← hdeclared] at howed
  rw [← hagenda'] at hsound
  refine h.entered hs hrun (.node hagenda) hmade hslots.symm ?_ hsound ⟨_, howed, List.Sublist.refl _⟩
  rw [hslots, List.map_reverse, List.nodup_reverse, declaredSlots, List.map_map]
  exact hnames

/-- Work has been dropped. -/
theorem Settled.dropped (h : Settled m s.scopes s.env s.agenda) (hstill : s.Still s') {a : Agenda}
    (hagenda : s.agenda = item :: rest) (hagenda' : s'.agenda = a)
    (hsound : Sound m.setting.tree s.scopes (.known s.env []) a ∧
      (Agenda.owed m.setting.tree (.known s.env []) a).Sublist
        (Agenda.owed m.setting.tree (.known s.env []) (item :: rest))) : Settled m s'.scopes s'.env s'.agenda := by
  subst hagenda'
  exact h.still hstill hsound.1 (hagenda ▸ hsound.2)

/-- The variable that is assigned to has a value already, so it is none for which one is owed. -/
theorem Settled.assigned (h : Settled m s.scopes s.env s.agenda) {name : Name} {node : NodeId} {frame : Nat}
    {slot : Slot} {v : Value} (hagenda : s.agenda = .instr (.assign name node) :: rest)
    (howner : s.scopes.owner? s.env name = some frame) (hslot : s.scopes.slot? s.env name = some slot)
    (hvalue : slot.value.isSome = true) (hagenda' : s'.agenda = rest) (henv : s'.env = s.env)
    (hscopes : s'.scopes = s.scopes.modifySlot frame name fun slot => { slot with value := some v }) :
    Settled m s'.scopes s'.env s'.agenda := by
  have hpending : Sound m.setting.tree s.scopes (.known s.env []) (.instr (.assign name node) :: rest) :=
    hagenda ▸ h.sound
  obtain ⟨hrest, howed⟩ := sound_behind rfl rfl hpending
  have hholds : s.scopes.Holds frame name := ⟨slot, (Scopes.slot?_eq_own? howner).symm.trans hslot, hvalue⟩
  rw [hscopes, henv, hagenda']
  obtain ⟨hsound, -⟩ := hrest.serves (fun _ _ => Scopes.holds_modifySlot) (.refl _ _)
  refine h.less hsound (by rw [howed, hagenda]) fun d _ hlacks => Scopes.lacks_modifySlot hlacks ?_ _
  rintro ⟨hframe, hname⟩
  exact hlacks.not_holds (hframe ▸ hname ▸ hholds)

/-- A declaration that is carried out has its variable in the current frame. -/
theorem Settled.own?_of_declare (h : Settled m s.scopes s.env s.agenda) {name : Name} {node : NodeId}
    (hagenda : s.agenda = .instr (.declare name node) :: rest) :
    s.scopes.Lacks s.env.frame name ∧ m.Declares s.env.frame node name := by
  refine h.owed (s.env.frame, node, name) ?_
  rw [hagenda]
  exact List.mem_cons_self

theorem Settled.declared (h : Settled m s.scopes s.env s.agenda) {name : Name} {node : NodeId} {frame : Nat}
    {v : Value} (hagenda : s.agenda = .instr (.declare name node) :: rest)
    (howner : s.scopes.owner? s.env name = some frame) (hagenda' : s'.agenda = rest) (henv : s'.env = s.env)
    (hscopes : s'.scopes = s.scopes.modifySlot frame name fun slot => { slot with value := some v }) :
    Settled m s'.scopes s'.env s'.agenda := by
  obtain ⟨⟨mutability, hslot⟩, -⟩ := h.own?_of_declare hagenda
  obtain rfl : frame = s.env.frame := Option.some.inj (howner.symm.trans (Scopes.owner?_of_own? hslot))
  have hpending : Sound m.setting.tree s.scopes (.known s.env []) (.instr (.declare name node) :: rest) :=
    hagenda ▸ h.sound
  have hgrow : ∀ f x, s.scopes.Holds f x → s'.scopes.Holds f x := fun f x hholds => by
    rw [hscopes]
    exact Scopes.holds_modifySlot hholds
  have hwritten : s'.scopes.Holds s.env.frame name := by
    refine ⟨⟨some v, mutability⟩, ?_, rfl⟩
    rw [hscopes, Scopes.own?_modifySlot, if_pos ⟨rfl, rfl⟩, hslot]
    rfl
  obtain ⟨hsound, howed⟩ := sound_declared hpending hgrow hwritten
  rw [← hagenda] at howed
  rw [henv, hagenda']
  refine h.less hsound (by rw [howed]; exact List.sublist_cons_self _ _) fun d hd hlacks => ?_
  rw [hscopes]
  refine Scopes.lacks_modifySlot hlacks ?_ _
  -- No other declaration owes a value to the variable.
  rintro ⟨hframe, hname⟩
  have honce := h.once
  rw [howed, List.map_cons, List.nodup_cons] at honce
  exact honce.1 (List.mem_map.mpr ⟨d, hd, Prod.ext hframe hname⟩)

/-- What is copied has its value. -/
theorem Settled.holds_of_freshTrip (h : Settled m s.scopes s.env s.agenda) {vars : List Name}
    (hagenda : s.agenda = .instr (.freshTrip vars) :: rest) : ∀ x ∈ vars, s.scopes.Holds s.env.frame x :=
  holds_of_copied (hagenda ▸ h.sound)

theorem Settled.copied (h : Settled m s.scopes s.env s.agenda) {vars : List Name}
    (hagenda : s.agenda = .instr (.freshTrip vars) :: rest) (hvars : vars ≠ []) (hagenda' : s'.agenda = rest)
    (hmade : s.Makes (((s.scopes.frame? s.env).getD default).copy vars) s') :
    Settled m s'.scopes s'.env s'.agenda := by
  have hpending : Sound m.setting.tree s.scopes (.known s.env []) (.instr (.freshTrip vars) :: rest) :=
    hagenda ▸ h.sound
  have hcopied : ∀ x ∈ vars, s'.scopes.Holds s'.env.frame x := fun x hx =>
    hmade.holds_copy hx (h.holds_of_freshTrip hagenda x hx)
  obtain ⟨hsound, howed⟩ := sound_copied hvars hpending (fun _ _ => hmade.holds) hcopied
  rw [hagenda']
  refine h.less hsound ?_ fun d _ => hmade.lacks
  rw [howed, hagenda]

/-- Every step that invokes no continuation keeps it so. -/
theorem Settled.move (ht : m.setting.tree.DeclaresInPlace) (hheads : m.setting.tree.HeadsDeclareVariables)
    (h : Settled m s.scopes s.env s.agenda) (hs : m.Reaches s) (hrun : advance m.setting s = .running s')
    (hagenda : s.agenda = item :: rest) (htidy : rest.Tidy)
    (hmove : Move m.setting { s with agenda := rest } s' item) (hnone : ∀ k v, ¬s.Invokes k v) :
    Settled m s'.scopes s'.env s'.agenda := by
  have hpending : Sound m.setting.tree s.scopes (.known s.env []) (item :: rest) := hagenda ▸ h.sound
  have still : State.Still { s with agenda := rest } s' → s.Still s' := fun hstill =>
    ⟨hstill.env, hstill.scopes, hstill.calls, hstill.snapshots, hstill.next⟩
  have same : ∀ {a : Agenda}, State.Still { s with agenda := rest } s' → s'.agenda = a →
      (Sound m.setting.tree s.scopes (.known s.env []) a ∧ Agenda.owed m.setting.tree (.known s.env []) a =
        Agenda.owed m.setting.tree (.known s.env []) (item :: rest)) → Settled m s'.scopes s'.env s'.agenda := by
    rintro a hstill rfl ⟨hsound, howed⟩
    exact h.still (still hstill) hsound (by rw [howed, hagenda])
  have hcalm : ∀ k v, ¬State.Invokes { s with agenda := item :: rest } k v := not_invokes_cons hagenda hnone
  -- Where no frame is made or written, the new work only has to owe the same, or less where work is dropped.
  cases hmove with
  | plain hkind hopened hgoes hagenda' hstill =>
    exact same hstill hagenda' (sound_node ht hheads hkind hopened hpending)
  | scope hkind hopened hagenda' hcalls hsnapshots hmade hnames =>
    exact h.scope ht hs hrun hagenda hkind hopened hagenda' ⟨hmade.handle, hmade.frames, hmade.next⟩ hnames
  | returned hkind hagenda' hstash hstill =>
    exact h.dropped (still hstill) hagenda hagenda' (sound_returned ht hkind htidy hpending)
  | instr hplain hoffered hagenda' hstill => exact same hstill hagenda' (sound_offers hplain hoffered hpending)
  | assign howner hslot hvalue hmutability hagenda' henv hcalls hsnapshots hscopes =>
    exact h.assigned hagenda howner hslot hvalue hagenda' henv hscopes
  | declare howner hagenda' henv hcalls hsnapshots hscopes => exact h.declared hagenda howner hagenda' henv hscopes
  | freshTrip hvars hagenda' hcalls hsnapshots hmade =>
    exact h.copied hagenda hvars hagenda' ⟨hmade.handle, hmade.frames, hmade.next⟩
  | restore hagenda' hstash henv hcalls hscopes hsnapshots =>
    obtain ⟨-, hrest⟩ := hpending
    rw [after_restore] at hrest
    rw [show s'.scopes = s.scopes from hscopes, henv, show s'.agenda = rest from hagenda']
    refine h.same ⟨hrest, ?_⟩
    rw [hagenda, Agenda.owed, after_restore]
    rfl
  | reset hagenda' hstash hstill => exact h.dropped (still hstill) hagenda hagenda' (sound_reset htidy hpending)
  | reached htarget hsearch hagenda' hstash hstill =>
    exact h.dropped (still hstill) hagenda hagenda' (sound_reached htarget hsearch hpending)
  | stopped htarget hsearch hagenda' hstash hstill =>
    exact h.dropped (still hstill) hagenda hagenda' (sound_stopped htarget hsearch hpending)
  | call hoperands houtcome =>
    obtain ⟨hrest, howed⟩ := sound_behind rfl rfl hpending
    exact h.call ht hs hrun houtcome rfl rfl rfl rfl ⟨hrest, hagenda ▸ howed⟩
      (fun f hf => ⟨_, _, _, _, _, _, hagenda, hoperands, hf⟩) fun k => one_lt_of_not_invokes hoperands hcalm
  | @callCc callee receiver stash node hoperands houtcome =>
    obtain ⟨hrest, howed⟩ := sound_behind rfl rfl hpending
    refine h.call ht hs hrun houtcome rfl rfl rfl rfl ⟨hrest, hagenda ▸ howed⟩ (fun f hf => ?_)
      fun k hk => absurd hk (ne_continuation_of_not_invokes hoperands hcalm k)
    refine ⟨[callee], .callCc, receiver, node, rest, stash, hagenda, hoperands, ?_⟩
    cases callee with
    | closure identity g => exact hf
    | _ => cases hf
  | callCcTwice hoperands houtcome => exact absurd (invokes_of_callCcTwice hoperands) (hcalm _ _)

end

/-! ## 2. What happens to a variable -/

end Machine

/-- A variable stays: it keeps its value if it is constant, and some value in any case. -/
structure Slot.Settles (slot slot' : Slot) : Prop where
  mutability : slot'.mutability = slot.mutability
  value : slot.value.isSome = true → slot'.value.isSome = true
  fixed : slot.mutability = .fixed → slot.value.isSome = true → slot'.value = slot.value

theorem Slot.Settles.refl (slot : Slot) : slot.Settles slot :=
  ⟨rfl, fun h => h, fun _ _ => rfl⟩

theorem Slot.Settles.trans {slot slot' slot'' : Slot} (h : slot.Settles slot') (h' : slot'.Settles slot'') :
    slot.Settles slot'' :=
  ⟨h'.mutability.trans h.mutability, fun hvalue => h'.value (h.value hvalue), fun hfixed hvalue =>
    (h'.fixed (h.mutability.trans hfixed) (h.value hvalue)).trans (h.fixed hfixed hvalue)⟩

/-- How a variable comes to be when the next step makes a frame: it is declared by the scope that is entered, and
has no value yet; it is a parameter of the function that is called; or it is copied for a trip through a loop. -/
inductive State.Bears (t : Tree) (s : State) (name : Name) : Slot → Prop where
  | declared {scope id : NodeId} {outer : Env} {kind : DeclKind} (henters : s.Enters scope outer)
      (hdeclared : (id, name, kind) ∈ t.declared scope) (hother : name ∉ t.parameters scope) :
      Bears t s name ⟨none, kind.mutability⟩
  | parameter {scope : NodeId} {outer : Env} {v : Value} (henters : s.Enters scope outer)
      (hparameter : name ∈ t.parameters scope) : Bears t s name ⟨some v, .assignable⟩
  | copied {vars : List Name} {rest : Agenda} {slot : Slot} (hnext : s.agenda = .instr (.freshTrip vars) :: rest)
      (hname : name ∈ vars) (hslot : s.scopes.own? s.env.frame name = some slot)
      (hvalue : slot.value.isSome = true) : Bears t s name slot

namespace Machine

section

variable {frame : Nat} {name : Name} {slot slot' : Slot}

/-- A variable gets its first value from its declaration, in the frame that declares it. -/
theorem own?_of_change (h : Settled m s.scopes s.env s.agenda) (hchange : Change m.setting s s')
    (hslot : s.scopes.own? frame name = some slot) :
    ∃ slot', s'.scopes.own? frame name = some slot' ∧ slot.Settles slot' ∧
      (slot.value = none → slot'.value.isSome = true → ∃ id rest,
        s.agenda = .instr (.declare name id) :: rest ∧ s.env.frame = frame ∧ m.Declares frame id name) := by
  have same : s'.scopes.own? frame name = some slot →
      ∃ slot', s'.scopes.own? frame name = some slot' ∧ slot.Settles slot' ∧
        (slot.value = none → slot'.value.isSome = true → ∃ id rest,
          s.agenda = .instr (.declare name id) :: rest ∧ s.env.frame = frame ∧ m.Declares frame id name) :=
    fun hsame => ⟨slot, hsame, .refl slot, fun hnone hsome => by rw [hnone] at hsome; cases hsome⟩
  cases hchange with
  | still hscopes => exact same (hscopes ▸ hslot)
  | entered henters harity hmade hnames => exact same (hmade.own?_of_some hslot)
  | copied hnext hmade => exact same (hmade.own?_of_some hslot)
  | @assigned name' node rest frame' slot₀ v hnext howner hslot₀ hvalue hmutability hscopes =>
    by_cases hwritten : frame = frame' ∧ name = name'
    · obtain ⟨rfl, rfl⟩ := hwritten
      obtain rfl : slot₀ = slot :=
        Option.some.inj ((hslot₀.symm.trans (Scopes.slot?_eq_own? howner)).trans hslot)
      refine ⟨{ slot₀ with value := some v }, ?_, ⟨rfl, fun _ => rfl, fun hfixed => ?_⟩, fun hnone => ?_⟩
      · rw [hscopes, Scopes.own?_modifySlot, if_pos ⟨rfl, rfl⟩, hslot]
        rfl
      · rw [hmutability] at hfixed
        cases hfixed
      · rw [hnone] at hvalue
        cases hvalue
    · exact same (by rw [hscopes, Scopes.own?_modifySlot, if_neg hwritten, hslot])
  | @declared name' node rest frame' v hnext howner hscopes =>
    obtain ⟨⟨mutability, hlacks⟩, hdeclares⟩ := h.own?_of_declare hnext
    obtain rfl : frame' = s.env.frame := Option.some.inj (howner.symm.trans (Scopes.owner?_of_own? hlacks))
    by_cases hwritten : frame = s.env.frame ∧ name = name'
    · obtain ⟨rfl, rfl⟩ := hwritten
      obtain rfl : ⟨none, mutability⟩ = slot := Option.some.inj (hlacks.symm.trans hslot)
      refine ⟨⟨some v, mutability⟩, ?_, ⟨rfl, fun _ => rfl, fun _ hvalue => (by cases hvalue)⟩,
        fun _ _ => ⟨node, rest, hnext, rfl, hdeclares⟩⟩
      rw [hscopes, Scopes.own?_modifySlot, if_pos ⟨rfl, rfl⟩, hslot]
      rfl
    · exact same (by rw [hscopes, Scopes.own?_modifySlot, if_neg hwritten, hslot])

/-- A variable comes to be in one of these ways. -/
theorem bears_of_change (h : Settled m s.scopes s.env s.agenda) (hchange : Change m.setting s s')
    (hnone : s.scopes.own? frame name = none) (hslot : s'.scopes.own? frame name = some slot) :
    s.Bears m.setting.tree name slot := by
  have written : ∀ {frame' : Nat} {name' : Name} {g : Slot → Slot},
      s'.scopes = s.scopes.modifySlot frame' name' g → s.Bears m.setting.tree name slot := by
    intro frame' name' g hscopes
    rw [hscopes, Scopes.own?_modifySlot, hnone] at hslot
    split at hslot <;> cases hslot
  have made : ∀ {f : Frame}, s.Makes f s' → f.slot? name = some slot := by
    intro f hmade
    rw [hmade.own?] at hslot
    split at hslot
    · exact hslot
    · rw [hnone] at hslot
      cases hslot
  cases hchange with
  | still hscopes =>
    rw [hscopes, hnone] at hslot
    cases hslot
  | entered henters harity hmade hnames =>
    obtain ⟨⟨id, name', kind⟩, hdeclared, heq⟩ | ⟨v, hparameter, heq⟩ :=
      Tree.mem_slots (Frame.mem_head_of_slot? (made hmade))
    · cases heq
      exact .declared henters hdeclared (Tree.not_mem_parameters harity hnames hdeclared)
    · obtain rfl : slot = _ := heq
      exact .parameter henters hparameter
  | @copied vars rest hnext hmade =>
    obtain ⟨hname, hslot'⟩ := Frame.slot?_copy (made hmade)
    obtain ⟨slot₀, hslot₀, hvalue⟩ := h.holds_of_freshTrip hnext name hname
    obtain ⟨f, hf, hfound⟩ := Option.bind_eq_some_iff.mp hslot₀
    rw [Scopes.frame?, hf] at hslot'
    obtain rfl : slot₀ = slot := Option.some.inj (hfound.symm.trans hslot')
    exact .copied hnext hname hslot₀ hvalue
  | assigned hnext howner hslot' hvalue hmutability hscopes => exact written hscopes
  | declared hnext howner hscopes => exact written hscopes

end

/-- What every program finds are constants that have their values. -/
theorem own?_build (t : Tree) (config : Config) (hosts : List EmbeddedFunction) (output : Output) (clock : Nat → Nat)
    (rule : PauseRule σ) (memory : σ) {frame : Nat} {name : Name} {slot : Slot}
    (hslot : (build t config hosts output clock rule memory).state.scopes.own? frame name = some slot) :
    slot.value.isSome = true ∧ slot.mutability = .fixed := by
  suffices hall : ∀ (env : Env) (entries : List (String × Value)) (names : NameTable) (scopes : Scopes),
      (∀ f ∈ scopes.frames, ∀ entry ∈ f.head, entry.2.value.isSome = true ∧ entry.2.mutability = .fixed) →
      ∀ f ∈ (install env entries names scopes).2.frames, ∀ entry ∈ f.head,
        entry.2.value.isSome = true ∧ entry.2.mutability = .fixed by
    obtain ⟨f, hf, hslot⟩ := Option.bind_eq_some_iff.mp hslot
    refine hall _ _ _ _ (fun g hg => ?_) f (Array.mem_of_getElem? hf) _ (Frame.mem_head_of_slot? hslot)
    obtain hg | rfl := Array.mem_push.mp hg
    · exact absurd hg (Array.not_mem_empty _)
    · exact fun entry h => absurd h List.not_mem_nil
  intro env entries
  induction entries with
  | nil => exact fun _ _ h => h
  | cons entry rest ih =>
    intro names scopes hscopes
    refine ih _ _ fun f hf => ?_
    obtain ⟨i, hi⟩ := Array.mem_iff_getElem?.mp hf
    rw [Scopes.insert, Array.getElem?_modify] at hi
    split at hi
    · obtain ⟨old, hold, rfl⟩ := Option.map_eq_some_iff.mp hi
      exact List.forall_mem_cons.mpr ⟨⟨rfl, rfl⟩, hscopes old (Array.mem_of_getElem? hold)⟩
    · exact hscopes f (Array.mem_of_getElem? hi)

/-- The machine comes from `s` to `s'` in `n` items, and invokes no continuation. -/
structure Calm (p : Setting) (n : Nat) (s s' : State) : Prop where
  run : travel p n s = .running s'
  inside : ∀ j < n, ∀ r, travel p j s = .running r → ∀ k v, ¬r.Invokes k v

theorem Calm.cases {p : Setting} {n : Nat} (h : Calm p (n + 1) s s') :
    ∃ s₁, (∀ k v, ¬s.Invokes k v) ∧ advance p s = .running s₁ ∧ Calm p n s₁ s' := by
  obtain ⟨hrun, hinside⟩ := h
  rw [travel_succ] at hrun
  cases ha : advance p s with
  | running s₁ =>
    rw [ha] at hrun
    refine ⟨s₁, hinside 0 (Nat.succ_pos n) s rfl, rfl, hrun, fun j hj r hr => ?_⟩
    exact hinside (j + 1) (Nat.succ_lt_succ hj) r (by rw [travel_succ, ha]; exact hr)
  | finished v s₁ => rw [ha] at hrun; cases hrun
  | failed e s₁ => rw [ha] at hrun; cases hrun

theorem calm_of_isCalm {p : Setting} {n : Nat} {s : State} (hcalm : ∀ j < n, (travel p j s).state.isCalm = true)
    (hrun : (travel p n s).isRunning = true) : Calm p n s (travel p n s).state := by
  refine ⟨Progress.eq_running hrun, fun j hj r hr => ?_⟩
  have h := hcalm j hj
  rw [hr] at h
  exact (State.not_invokes_of_isCalm h).2

section

variable (t : Tree) (config : Config) (hosts : List EmbeddedFunction) (output : Output)
  (clock : Nat → Nat) (rule : PauseRule σ) (memory : σ)

theorem settled_build :
    Settled (build t config hosts output clock rule memory) (build t config hosts output clock rule memory).state.scopes
      (build t config hosts output clock rule memory).state.env
      (build t config hosts output clock rule memory).state.agenda := by
  obtain ⟨body, hroot⟩ := t.kind?_root
  have hdue : (Item.node t.root).due t = none :=
    Item.due_of_not_isDeclaration fun kind h => by cases hroot.symm.trans h; rfl
  have howed : ∀ place, Agenda.owed t place [.node t.root] = [] := by
    intro place
    unfold Agenda.owed Agenda.owed
    cases place with
    | known env names => rw [Place.owes, hdue]; rfl
    | copied vars => rfl
  have hnothing : Agenda.owed (build t config hosts output clock rule memory).setting.tree
      (.known (build t config hosts output clock rule memory).state.env [])
      (build t config hosts output clock rule memory).state.agenda = [] := howed _
  refine ⟨⟨allows_plain rfl (orderly_node t.root).discreet _ _ _, trivial⟩, ?_, ?_⟩
  · rw [hnothing]
    exact List.forall_mem_nil _
  · rw [hnothing]
    exact List.nodup_nil

variable {t config hosts output clock rule memory}

theorem settled_calm (ht : t.DeclaresInPlace) (hheads : t.HeadsDeclareVariables) {n : Nat}
    (hs : (build t config hosts output clock rule memory).Reaches s)
    (h : Settled (build t config hosts output clock rule memory) s.scopes s.env s.agenda)
    (hcalm : Calm (build t config hosts output clock rule memory).setting n s s') :
    Settled (build t config hosts output clock rule memory) s'.scopes s'.env s'.agenda ∧
      ∀ frame name slot, s.scopes.own? frame name = some slot →
        ∃ slot', s'.scopes.own? frame name = some slot' ∧ slot.Settles slot' := by
  induction n generalizing s with
  | zero =>
    cases hcalm.run
    exact ⟨h, fun _ _ slot hslot => ⟨slot, hslot, .refl slot⟩⟩
  | succ n ih =>
    obtain ⟨s₁, hnone, hrun, hcalm⟩ := hcalm.cases
    cases hagenda : s.agenda with
    | nil => rw [advance_nil _ hagenda] at hrun; cases hrun
    | cons item rest =>
      have hmove := move_of_advance hagenda hrun
      have htidy : Agenda.Tidy rest := hs.tidy.agenda.suffix (hagenda ▸ List.suffix_cons item rest)
      obtain ⟨hsettled, hlater⟩ := ih (hs.advance hrun) (h.move ht hheads hs hrun hagenda htidy hmove hnone) hcalm
      refine ⟨hsettled, fun frame name slot hslot => ?_⟩
      obtain ⟨slot₁, hslot₁, hsettles, -⟩ := own?_of_change h (hmove.change hagenda) hslot
      obtain ⟨slot', hslot', hsettles'⟩ := hlater frame name slot₁ hslot₁
      exact ⟨slot', hslot', hsettles.trans hsettles'⟩

variable (t config hosts output clock rule memory)

/-- What happens to variables as long as no continuation is invoked.  All that a program finds are constants with
values.  A step makes variables in new frames only: what a scope declares, without values; parameters and copies,
with values.  No variable is lost, none loses its value, and one gets its first value by its own declaration, in the
frame that has been made for the scope of the declaration.  A constant keeps the value that it has once got. -/
theorem values_come_once (ht : t.DeclaresInPlace) (hheads : t.HeadsDeclareVariables) :
    let m := build t config hosts output clock rule memory
    (∀ frame name slot, m.state.scopes.own? frame name = some slot →
      slot.value.isSome = true ∧ slot.mutability = .fixed) ∧
    (∀ n s s', Calm m.setting n m.state s → (∀ k v, ¬s.Invokes k v) → advance m.setting s = .running s' →
      (∀ frame name slot, s.scopes.own? frame name = none → s'.scopes.own? frame name = some slot →
        s.Bears t name slot) ∧
      ∀ frame name slot, s.scopes.own? frame name = some slot →
        ∃ slot', s'.scopes.own? frame name = some slot' ∧ slot.Settles slot' ∧
          (slot.value = none → slot'.value.isSome = true → ∃ id rest,
            s.agenda = .instr (.declare name id) :: rest ∧ s.env.frame = frame ∧ m.Declares frame id name)) ∧
    ∀ n k s s', Calm m.setting n m.state s → Calm m.setting k s s' →
      ∀ frame name slot, s.scopes.own? frame name = some slot →
        ∃ slot', s'.scopes.own? frame name = some slot' ∧ slot.Settles slot' := by
  intro m
  have hstart : Settled m m.state.scopes m.state.env m.state.agenda :=
    settled_build t config hosts output clock rule memory
  refine ⟨fun _ _ _ => own?_build t config hosts output clock rule memory, fun n s s' hcalm hnone hrun => ?_,
    fun n k s s' hcalm hcalm' => ?_⟩
  · obtain ⟨hsettled, -⟩ := settled_calm ht hheads (reaches_start m) hstart hcalm
    cases hagenda : s.agenda with
    | nil => rw [advance_nil _ hagenda] at hrun; cases hrun
    | cons item rest =>
      rw [← hagenda]
      have hchange := (move_of_advance hagenda hrun).change hagenda
      exact ⟨fun _ _ _ => bears_of_change hsettled hchange, fun _ _ _ => own?_of_change hsettled hchange⟩
  · obtain ⟨hsettled, -⟩ := settled_calm ht hheads (reaches_start m) hstart hcalm
    exact (settled_calm ht hheads ((reaches_start m).travel hcalm.run) hsettled hcalm').2

end

end Machine

def Tree.binding : Tree where
  names := ⟨#["", "x"]⟩
  nodes := #[⟨.literal (.bool true), .dummy⟩, ⟨.declaration .constKind ⟨1⟩ ⟨0⟩, .dummy⟩, ⟨.program [⟨1⟩], .dummy⟩]
  root := ⟨2⟩
  accepted := by decide

namespace Machine

/-- The constant has no value in front of its declaration, and has one behind it. -/
theorem values_come_once_sample :
    let m := build .binding .standard [] default (fun _ => 0) .never ()
    (Tree.binding.DeclaresInPlace ∧ Tree.binding.HeadsDeclareVariables) ∧ ∃ s s' slot slot',
      Calm m.setting 3 m.state s ∧ advance m.setting s = .running s' ∧ s.scopes.own? 1 ⟨1⟩ = some slot ∧
        slot.value = none ∧ s'.scopes.own? 1 ⟨1⟩ = some slot' ∧ slot.Settles slot' ∧ m.Declares 1 ⟨1⟩ ⟨1⟩ := by
  intro m
  have hplaced : Tree.binding.DeclaresInPlace ∧ Tree.binding.HeadsDeclareVariables := ⟨by decide, by decide⟩
  have hcalm : Calm m.setting 3 m.state (travel m.setting 3 m.state).state :=
    calm_of_isCalm (by decide +kernel) (by decide +kernel)
  have hnext : (travel m.setting 3 m.state).state.isCalm = true := by decide +kernel
  have hrun : advance m.setting (travel m.setting 3 m.state).state =
      .running (advance m.setting (travel m.setting 3 m.state).state).state := Progress.eq_running (by decide +kernel)
  have hbefore : (((travel m.setting 3 m.state).state.scopes.own? 1 ⟨1⟩).any fun slot => slot.value.isNone) = true := by
    decide +kernel
  have hafter : (((advance m.setting (travel m.setting 3 m.state).state).state.scopes.own? 1 ⟨1⟩).all fun slot =>
      slot.value.isSome) = true := by decide +kernel
  obtain ⟨slot, hslot, hnone⟩ := (Option.any_eq_true _ _).mp hbefore
  have hstep := (values_come_once .binding .standard [] default (fun _ => 0) .never () hplaced.1 hplaced.2).2.1 3 _ _
    hcalm (State.not_invokes_of_isCalm hnext).2 hrun
  obtain ⟨slot', hslot', hsettles, hfirst⟩ := hstep.2 1 ⟨1⟩ slot hslot
  have hsome : slot'.value.isSome = true := by
    rw [hslot'] at hafter
    exact hafter
  obtain ⟨id, rest, hagenda, -, hdeclares⟩ := hfirst (Option.isNone_iff_eq_none.mp hnone) hsome
  have hid : ((travel m.setting 3 m.state).state.agenda.head?.any fun item =>
      item.due Tree.binding == some (⟨1⟩, ⟨1⟩)) =
      true := by decide +kernel
  rw [hagenda] at hid
  have hid : (id, (⟨1⟩ : Name)) = (⟨1⟩, ⟨1⟩) := by simpa [Item.due] using hid
  obtain rfl : id = ⟨1⟩ := congrArg Prod.fst hid
  exact ⟨hplaced, _, _, slot, slot', hcalm, hrun, hslot, Option.isNone_iff_eq_none.mp hnone, hslot',
    hsettles, hdeclares⟩

end Machine

end ExplicitControl
