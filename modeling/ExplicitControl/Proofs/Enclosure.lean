import ExplicitControl.Proofs.Nesting

/-!
# Which scope a frame belongs to

A run makes each frame once: when a scope of the tree is entered, or as a copy for a trip through a loop.  So there is
one scope that the frame belongs to, and one environment that it is inside of.  An environment mirrors the scopes around
a node if the frames from it outward belong to them, innermost first; then a name is found where the tree says.
-/

namespace ExplicitControl

variable {σ : Type} {m : Machine σ} {s s' r r' : State} {frame source : Nat} {scope scope' : NodeId}
  {outer outer' : Env}

/-! ## 1. The step that makes a frame -/

theorem State.Applies.unique {f f' : Closure} (h : s.Applies f) (h' : s.Applies f') : f = f' := by
  obtain ⟨args, callee, receiver, node, rest, stash, hagenda, hstash, happlied⟩ := h
  obtain ⟨args', callee', receiver', node', rest', stash', hagenda', hstash', happlied'⟩ := h'
  have hlength : args.length = args'.length :=
    (Instr.apply.inj (Item.instr.inj (List.cons.inj (hagenda.symm.trans hagenda')).1)).1
  obtain ⟨hargs, hrest⟩ := List.append_inj (hstash.symm.trans hstash') (by simpa using hlength)
  obtain rfl := List.reverse_inj.mp hargs
  obtain rfl := (List.cons.inj hrest).1
  exact Option.some.inj (happlied.symm.trans happlied')

theorem State.Enters.unique (h : s.Enters scope outer) (h' : s.Enters scope' outer') :
    scope = scope' ∧ outer = outer' := by
  cases h with
  | node hagenda =>
    cases h' with
    | node hagenda' =>
      cases (hagenda.symm.trans hagenda')
      exact ⟨rfl, rfl⟩
    | call h' =>
      obtain ⟨args, callee, receiver, node, rest, stash, hagenda', -⟩ := h'
      cases (hagenda.symm.trans hagenda')
  | call h =>
    cases h' with
    | node hagenda' =>
      obtain ⟨args, callee, receiver, node, rest, stash, hagenda, -⟩ := h
      cases (hagenda.symm.trans hagenda')
    | call h' =>
      obtain rfl := h.unique h'
      exact ⟨rfl, rfl⟩

/-- A step that enters a scope copies no frame. -/
theorem State.Enters.agenda_ne (h : s.Enters scope outer) (vars : List Name) (rest : Agenda) :
    s.agenda ≠ .instr (.freshTrip vars) :: rest := by
  intro hagenda
  cases h with
  | node hagenda' => cases (hagenda.symm.trans hagenda')
  | call h =>
    obtain ⟨args, callee, receiver, node, rest', stash, hagenda', -⟩ := h
    cases (hagenda.symm.trans hagenda')

namespace Machine

structure Births (m : Machine σ) (frame : Nat) (s s' : State) : Prop where
  reached : m.Reaches s
  run : advance m.setting s = .running s'
  before : s.scopes.frames.size = frame
  after : s'.scopes.frames.size = frame + 1

theorem size_le_of_travel {p : Setting} {n : Nat} (h : travel p n s = .running s') :
    s.scopes.frames.size ≤ s'.scopes.frames.size := by
  induction n generalizing s with
  | zero =>
    cases h
    exact Nat.le_refl _
  | succ n ih =>
    rw [travel_succ] at h
    cases ha : advance p s with
    | running s₁ =>
      rw [ha] at h
      cases hagenda : s.agenda with
      | nil => rw [advance_nil p hagenda] at ha; cases ha
      | cons item rest => exact Nat.le_trans ((move_of_advance hagenda ha).change hagenda).size_le (ih h)
    | finished v s₁ => rw [ha] at h; cases h
    | failed e s₁ => rw [ha] at h; cases h

/-- No frame is made twice, since frames are never dropped. -/
theorem Births.unique (h : m.Births frame s s') (h' : m.Births frame r r') : s = r ∧ s' = r' := by
  obtain ⟨n, hn⟩ := reaches_iff.mp h.reached
  obtain ⟨k, hk⟩ := reaches_iff.mp h'.reached
  have apart : ∀ {n k : Nat} {s s' r r' : State}, m.Births frame s s' → m.Births frame r r' →
      travel m.setting n m.state = .running s → travel m.setting k m.state = .running r → ¬n < k := by
    intro n k s s' r r' h h' hn hk hlt
    obtain ⟨d, rfl⟩ := Nat.exists_eq_add_of_lt hlt
    have hnext : travel m.setting (n + 1) m.state = .running s' := (travelBy_add 1 hn).trans (travelBy_running 0 h.run)
    rw [Nat.add_right_comm] at hk
    have hbetween : travel m.setting d s' = .running r := (travelBy_add d hnext).symm.trans hk
    have hle := size_le_of_travel hbetween
    rw [h.after, h'.before] at hle
    exact Nat.not_succ_le_self _ hle
  obtain rfl : n = k := Nat.le_antisymm (Nat.le_of_not_lt (apart h' h hk hn)) (Nat.le_of_not_lt (apart h h' hn hk))
  obtain rfl := Progress.running.inj (hn.symm.trans hk)
  exact ⟨rfl, Progress.running.inj (h.run.symm.trans h'.run)⟩

def Copies (m : Machine σ) (frame source : Nat) : Prop :=
  ∃ s s' vars rest, m.Births frame s s' ∧ s.agenda = .instr (.freshTrip vars) :: rest ∧ s.env.frame = source

/-- The frame has been made for the scope, inside of the environment, or is a copy of one that has. -/
inductive Belongs (m : Machine σ) : Nat → NodeId → Env → Prop where
  | made {frame : Nat} {scope : NodeId} {outer : Env} (h : m.Made frame scope outer) : Belongs m frame scope outer
  | copied {frame source : Nat} {scope : NodeId} {outer : Env} (hcopies : m.Copies frame source)
      (h : Belongs m source scope outer) : Belongs m frame scope outer

theorem Made.not_copies (h : m.Made frame scope outer) : ¬m.Copies frame source := by
  rintro ⟨r, r', vars, rest, hbirth, hagenda, -⟩
  obtain ⟨hreached, hrun, henters, hbefore, hafter⟩ := h
  obtain ⟨rfl, -⟩ := hbirth.unique ⟨hreached, hrun, hbefore, hafter⟩
  exact henters.agenda_ne vars rest hagenda

theorem Copies.unique {source' : Nat} (h : m.Copies frame source) (h' : m.Copies frame source') : source = source' := by
  obtain ⟨s, s', vars, rest, hbirth, -, rfl⟩ := h
  obtain ⟨r, r', vars', rest', hbirth', -, rfl⟩ := h'
  obtain ⟨rfl, -⟩ := hbirth.unique hbirth'
  rfl

/-- A frame belongs to one scope, and is inside of one environment. -/
theorem Belongs.unique (h : m.Belongs frame scope outer) (h' : m.Belongs frame scope' outer') :
    scope = scope' ∧ outer = outer' := by
  induction h with
  | made hmade =>
    cases h' with
    | made hmade' =>
      obtain ⟨hreached, hrun, henters, hbefore, hafter⟩ := hmade
      obtain ⟨hreached', hrun', henters', hbefore', hafter'⟩ := hmade'
      have hsame := Births.unique ⟨hreached, hrun, hbefore, hafter⟩ ⟨hreached', hrun', hbefore', hafter'⟩
      exact henters.unique (hsame.1 ▸ henters')
    | copied hcopies h' => exact absurd hcopies hmade.not_copies
  | copied hcopies h ih =>
    cases h' with
    | made hmade' => exact absurd hcopies hmade'.not_copies
    | copied hcopies' h' => exact ih (hcopies.unique hcopies' ▸ h')

/-! ## 2. Environments that mirror scopes -/

/-- The frames from the environment outward belong to the scopes, innermost first, each inside of the next; the
outermost one is that of what every program finds, which belongs to no scope. -/
inductive Mirrors (m : Machine σ) : Env → List NodeId → Prop where
  | outermost {env : Env} (h : env.frame = m.setting.global.frame) : Mirrors m env []
  | scope {env outer : Env} {scope : NodeId} {scopes : List NodeId} (hbelongs : m.Belongs env.frame scope outer)
      (holder : outer.frame < env.frame) (houter : Mirrors m outer scopes) : Mirrors m env (scope :: scopes)

def global? (m : Machine σ) (name : Name) : Option Slot :=
  m.state.scopes.own? m.setting.global.frame name

/-- Each frame is inside of the environment that it was made in, and has the variables of its scope; the outermost one
is inside of none, and is as it was at the start. -/
structure Laid (m : Machine σ) (scopes : Scopes) : Prop where
  tail : ∀ frame scope outer, m.Belongs frame scope outer → frame < scopes.frames.size →
    scopes.frames[frame]?.map Frame.tail = some (some outer)
  binds : ∀ frame scope outer, m.Belongs frame scope outer → frame < scopes.frames.size →
    ∀ name, (scopes.own? frame name).isSome = true ↔ m.setting.tree.Binds scope name
  outermost : scopes.frames[m.setting.global.frame]?.map Frame.tail = some none
  found : ∀ name, scopes.own? m.setting.global.frame name = m.global? name

end Machine

namespace Scopes

variable {scopes : Scopes} {f : Frame} {name : Name}

/-- The search for a name looks into a frame, and then into those around it. -/
theorem findUpTo_succ (hf : scopes.frames[frame]? = some f) (fuel : Nat) :
    scopes.findUpTo (fun f => (f.slot? name).isSome) (fuel + 1) frame =
      if (scopes.own? frame name).isSome then some frame
      else f.tail.bind fun outer => scopes.findUpTo (fun f => (f.slot? name).isSome) fuel outer.frame := by
  have hown : scopes.own? frame name = f.slot? name := by rw [own?, hf]; rfl
  rw [findUpTo, hf, hown]
  dsimp only
  split
  · rfl
  · cases f.tail <;> rfl

end Scopes

namespace Machine

/-- A name is found in a frame of the innermost scope that has it, else among what every program finds. -/
theorem Mirrors.owner? {env : Env} {enclosing : List NodeId} {scopes : Scopes} (h : m.Mirrors env enclosing)
    (hlaid : m.Laid scopes) (hlt : env.frame < scopes.frames.size) (name : Name) :
    (∀ scope, m.setting.tree.binder? enclosing name = some scope →
      ∃ frame outer, m.Belongs frame scope outer ∧ scopes.owner? env name = some frame) ∧
    (m.setting.tree.binder? enclosing name = none →
      scopes.owner? env name = if (m.global? name).isSome then some m.setting.global.frame else none) := by
  suffices hfind : ∀ fuel, env.frame < fuel →
      (∀ scope, m.setting.tree.binder? enclosing name = some scope → ∃ frame outer, m.Belongs frame scope outer ∧
        scopes.findUpTo (fun f => (f.slot? name).isSome) fuel env.frame = some frame) ∧
      (m.setting.tree.binder? enclosing name = none →
        scopes.findUpTo (fun f => (f.slot? name).isSome) fuel env.frame =
          if (m.global? name).isSome then some m.setting.global.frame else none) from
    hfind _ (Nat.lt_succ_self _)
  -- On the scopes: the search goes one frame outward for each of them.
  induction h with
  | @outermost env henv =>
    rintro (_ | fuel) hfuel
    · exact absurd hfuel (Nat.not_lt_zero _)
    obtain ⟨f, hf, htail⟩ := Option.map_eq_some_iff.mp hlaid.outermost
    refine ⟨fun _ h => (by cases h), fun _ => ?_⟩
    rw [henv, Scopes.findUpTo_succ hf, htail, hlaid.found]
    rfl
  | @scope env outer scope enclosing hbelongs holder houter ih =>
    rintro (_ | fuel) hfuel
    · exact absurd hfuel (Nat.not_lt_zero _)
    obtain ⟨f, hf, htail⟩ := Option.map_eq_some_iff.mp (hlaid.tail _ _ _ hbelongs hlt)
    have hbinds := hlaid.binds _ _ _ hbelongs hlt name
    rw [Scopes.findUpTo_succ hf, htail, Option.bind_some]
    by_cases hhere : m.setting.tree.Binds scope name
    · have hbinder : m.setting.tree.binder? (scope :: enclosing) name = some scope :=
        List.find?_cons_of_pos (decide_eq_true hhere)
      rw [if_pos (hbinds.mpr hhere), hbinder]
      refine ⟨fun scope' h => ?_, fun h => (by cases h)⟩
      obtain rfl := Option.some.inj h
      exact ⟨_, _, hbelongs, rfl⟩
    · have hbinder : m.setting.tree.binder? (scope :: enclosing) name = m.setting.tree.binder? enclosing name :=
        List.find?_cons_of_neg (by simpa using hhere)
      rw [if_neg fun h => hhere (hbinds.mp h), hbinder]
      exact ih (Nat.lt_trans holder hlt) fuel (Nat.lt_of_lt_of_le holder (Nat.le_of_lt_succ hfuel))

end Machine

end ExplicitControl
