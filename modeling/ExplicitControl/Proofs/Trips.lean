import ExplicitControl.Proofs.Scheduled

/-!
# What a trip copies has its value

A trip through a `for` copies the variable of the loop, which its head has declared by then.  This holds of the work of
captured continuations as of the pending work: invoking one brings its work back over frames that have at least the
values that they had.
-/

namespace ExplicitControl

structure State.Founded (t : Tree) (s : State) : Prop where
  now : s.agenda.Sound t s.scopes (.known s.env [])
  kept : ∀ k ∈ s.snapshots, k.agenda.Sound t s.scopes (.known k.env [])

namespace Machine

open Agenda Place

variable {p : Setting} {s s' : State} {item : Item} {rest : Agenda}

/-- A variable that has a value has one behind the step too. -/
theorem Change.holds (h : Change p s s') {frame : Nat} {name : Name} (hholds : s.scopes.Holds frame name) :
    s'.scopes.Holds frame name := by
  cases h with
  | still hscopes => exact hscopes ▸ hholds
  | entered henters harity hmade hnames => exact hmade.holds hholds
  | copied hnext hmade => exact hmade.holds hholds
  | assigned hnext howner hslot hvalue hmutability hscopes => exact hscopes ▸ Scopes.holds_modifySlot hholds
  | declared hnext howner hscopes => exact hscopes ▸ Scopes.holds_modifySlot hholds

theorem sound_captured {t : Tree} {scopes : Scopes} (hnow : s.agenda.Sound t scopes (.known s.env []))
    (hkept : ∀ k ∈ s.snapshots, k.agenda.Sound t scopes (.known k.env [])) :
    ∀ k ∈ s.captured.snapshots, k.agenda.Sound t scopes (.known k.env []) := by
  intro k hk
  obtain hk | rfl := Array.mem_push.mp hk
  · exact hkept k hk
  · exact hnow

/-- Calls keep it so. -/
theorem Call.founded (ht : p.tree.DeclaresInPlace) {args : List Value} {callee : Value} {s₁ : State}
    (h : Call p s₁ s' callee args) (hgrow : ∀ f x, s₁.scopes.Holds f x → s'.scopes.Holds f x)
    (hnow : s₁.agenda.Sound p.tree s₁.scopes (.known s₁.env []))
    (hkept : ∀ k ∈ s₁.snapshots, k.agenda.Sound p.tree s₁.scopes (.known k.env [])) : s'.Founded p.tree := by
  have later : ∀ {a : Agenda} {env : Env}, a.Sound p.tree s₁.scopes (.known env []) →
      a.Sound p.tree s'.scopes (.known env []) := fun h => (h.serves hgrow (.refl _ _)).1
  cases h with
  | enter hclosure hkind harity hagenda hstash hcalls hsnapshots hmade hnames =>
    refine ⟨hagenda ▸ later (sound_body ht hkind hnow s'.env).1, fun k hk => later (hkept k (hsnapshots ▸ hk))⟩
  | answer hagenda hstash hstill =>
    rw [← hstill.env] at hnow
    exact ⟨hagenda ▸ later hnow, fun k hk => later (hkept k (hstill.snapshots ▸ hk))⟩
  | @invoke k kept hcontinuation harity hfound hregisters hscopes hsnapshots =>
    refine ⟨?_, fun k hk => later (hkept k (hsnapshots ▸ hk))⟩
    rw [show s'.env = kept.env from congrArg Snapshot.env hregisters,
      show s'.agenda = kept.agenda from congrArg Snapshot.agenda hregisters]
    exact later (hkept kept (Array.mem_of_getElem? hfound))

/-- Each step keeps it so, if what is declared next has its variable in the current frame. -/
theorem Move.founded (ht : p.tree.DeclaresInPlace) (hheads : p.tree.HeadsDeclareVariables)
    (hmove : Move p { s with agenda := rest } s' item) (hagenda : s.agenda = item :: rest) (htidy : rest.Tidy)
    (hown : ∀ name node, item = .instr (.declare name node) → ∃ slot, s.scopes.own? s.env.frame name = some slot)
    (h : s.Founded p.tree) : s'.Founded p.tree := by
  have hpending : Sound p.tree s.scopes (.known s.env []) (item :: rest) := hagenda ▸ h.now
  have hgrow : ∀ f x, s.scopes.Holds f x → s'.scopes.Holds f x := fun _ _ => (hmove.change hagenda).holds
  have later : ∀ {a : Agenda} {env : Env}, a.Sound p.tree s.scopes (.known env []) →
      a.Sound p.tree s'.scopes (.known env []) := fun h => (h.serves hgrow (.refl _ _)).1
  have hkept : s'.snapshots = s.snapshots → ∀ k ∈ s'.snapshots, k.agenda.Sound p.tree s'.scopes (.known k.env []) :=
    fun hsnapshots k hk => later (h.kept k (hsnapshots ▸ hk))
  have stays : ∀ {a : Agenda}, s'.env = s.env → s'.snapshots = s.snapshots →
      Sound p.tree s.scopes (.known s.env []) a → s'.agenda = a → s'.Founded p.tree := by
    rintro a henv hsnapshots ha rfl
    rw [← henv] at ha
    exact ⟨later ha, hkept hsnapshots⟩
  cases hmove with
  | plain hkind hopened hgoes hagenda' hstill =>
    exact stays hstill.env hstill.snapshots (sound_node ht hheads hkind hopened hpending).1 hagenda'
  | scope hkind hopened hagenda' hcalls hsnapshots hmade hnames =>
    exact ⟨hagenda' ▸ later (sound_scope ht hkind hopened hpending s'.env).1, hkept hsnapshots⟩
  | returned hkind hagenda' hstash hstill =>
    exact stays hstill.env hstill.snapshots (sound_returned ht hkind htidy hpending).1 hagenda'
  | instr hplain hoffered hagenda' hstill =>
    exact stays hstill.env hstill.snapshots (sound_offers hplain hoffered hpending).1 hagenda'
  | assign howner hslot hvalue hmutability hagenda' henv hcalls hsnapshots hscopes =>
    exact stays henv hsnapshots (sound_behind rfl rfl hpending).1 hagenda'
  | @declare name node frame v _ howner hagenda' henv hcalls hsnapshots hscopes =>
    -- The variable is one of the current frame, so it is not written in an outer one.
    obtain ⟨slot, hslot⟩ := hown name node rfl
    obtain rfl : frame = s.env.frame := Option.some.inj (howner.symm.trans (Scopes.owner?_of_own? hslot))
    have hwritten : s'.scopes.Holds s.env.frame name := by
      refine ⟨{ slot with value := some v }, ?_, rfl⟩
      rw [hscopes, Scopes.own?_modifySlot, if_pos ⟨rfl, rfl⟩, hslot]
      rfl
    have hnow := (sound_declared hpending hgrow hwritten).1
    rw [← show s'.env = s.env from henv] at hnow
    exact ⟨hagenda' ▸ hnow, hkept hsnapshots⟩
  | freshTrip hvars hagenda' hcalls hsnapshots hmade =>
    have hmade : s.Makes _ s' := ⟨hmade.handle, hmade.frames, hmade.next⟩
    have hcopied := fun x hx => hmade.holds_copy hx (holds_of_copied hpending x hx)
    exact ⟨hagenda' ▸ (sound_copied hvars hpending hgrow hcopied).1, hkept hsnapshots⟩
  | restore hagenda' hstash henv hcalls hscopes hsnapshots =>
    obtain ⟨-, hrest⟩ := hpending
    rw [after_restore, ← henv] at hrest
    exact ⟨hagenda' ▸ later hrest, hkept hsnapshots⟩
  | reset hagenda' hstash hstill => exact stays hstill.env hstill.snapshots (sound_reset htidy hpending).1 hagenda'
  | reached htarget hsearch hagenda' hstash hstill =>
    exact stays hstill.env hstill.snapshots (sound_reached htarget hsearch hpending).1 hagenda'
  | stopped htarget hsearch hagenda' hstash hstill =>
    exact stays hstill.env hstill.snapshots (sound_stopped htarget hsearch hpending).1 hagenda'
  | call hoperands houtcome => exact houtcome.founded ht hgrow (sound_behind rfl rfl hpending).1 h.kept
  | callCc hoperands houtcome =>
    have hrest := (sound_behind rfl rfl hpending).1
    exact houtcome.founded ht hgrow hrest (sound_captured hrest h.kept)
  | callCcTwice hoperands houtcome =>
    have hrest := (sound_behind rfl rfl hpending).1
    exact houtcome.founded ht hgrow hrest (sound_captured hrest (sound_captured hrest h.kept))

end Machine

end ExplicitControl
