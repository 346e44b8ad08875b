import ExplicitControl.Proofs.Balance
import ExplicitControl.Proofs.Bindings
import ExplicitControl.Proofs.Installation
import ExplicitControl.Proofs.Layout

/-!
# Scoping is static

Which variable a name means follows from where the name stands.  Whenever a run reads a variable or assigns to one, the
frames around it are those of the scopes around the node, and the name is found in a frame of the innermost scope that
has it.
-/

namespace ExplicitControl

/-! ## 1. Uses of names -/

namespace Scopes

variable {s : Scopes} {env : Env} {frame found : Nat} {name : Name}

theorem exists_of_findUpTo {p : Frame → Bool} {fuel : Nat} (h : s.findUpTo p fuel frame = some found) :
    ∃ f, s.frames[found]? = some f ∧ p f = true := by
  induction fuel generalizing frame with
  | zero => cases h
  | succ fuel ih =>
    unfold findUpTo at h
    split at h
    · cases h
    next f hf =>
      split at h
      next hp =>
        cases h
        exact ⟨f, hf, hp⟩
      next =>
        split at h
        · exact ih h
        · cases h

theorem exists_own?_of_owner? (h : s.owner? env name = some frame) : ∃ slot, s.own? frame name = some slot := by
  obtain ⟨f, hf, hfound⟩ := exists_of_findUpTo h
  obtain ⟨slot, hslot⟩ := Option.isSome_iff_exists.mp hfound
  exact ⟨slot, by rw [own?, hf]; exact hslot⟩

theorem lt_size_of_tail {tail : Option Env} (h : s.frames[frame]?.map Frame.tail = some tail) :
    frame < s.frames.size := by
  obtain ⟨f, hf, -⟩ := Option.map_eq_some_iff.mp h
  exact (Array.getElem?_eq_some_iff.mp hf).1

end Scopes

/-- The next item uses the name at the node: it reads the variable, or assigns to it. -/
inductive State.Uses (t : Tree) (s : State) (id : NodeId) (name : Name) : Prop where
  | read {rest : Agenda} (hagenda : s.agenda = .node id :: rest) (hkind : t.kind? id = some (.identifier name))
  | written {rest : Agenda} (hagenda : s.agenda = .instr (.assign name id) :: rest)

/-- What a step does that uses the frame's variable of that name: it reads its value, or gives it another. -/
inductive State.Accesses (s s' : State) (frame : Nat) (name : Name) : Prop where
  | read {slot : Slot} {v : Value} (hslot : s.scopes.own? frame name = some slot) (hvalue : slot.value = some v)
      (hstash : s'.stash = v :: s.stash) (hscopes : s'.scopes = s.scopes)
  | written {slot : Slot} {v : Value} {rest : Stash} (hslot : s.scopes.own? frame name = some slot)
      (hvalue : slot.value.isSome = true) (hstash : s.stash = v :: rest) (hkept : s'.stash = s.stash)
      (hscopes : s'.scopes = s.scopes.modifySlot frame name fun slot => { slot with value := some v })

inductive State.Refuses (p : Setting) (s : State) (name : Name) : Fault → Prop where
  | undefined (howner : s.scopes.owner? s.env name = none) : Refuses p s name (.undefinedVariable (p.nameText name))
  | uninitialized {frame : Nat} (howner : s.scopes.owner? s.env name = some frame)
    (hlacks : s.scopes.Lacks frame name) :
      Refuses p s name (.uninitializedAccess (p.nameText name))
  | constant {frame : Nat} (howner : s.scopes.owner? s.env name = some frame) (hholds : s.scopes.Holds frame name) :
      Refuses p s name (.constAssignment (p.nameText name))

theorem State.Accesses.holds {s s' : State} {frame : Nat} {name : Name} (h : s.Accesses s' frame name) :
    s.scopes.Holds frame name := by
  cases h with
  | read hslot hvalue hstash hscopes => exact ⟨_, hslot, hvalue ▸ rfl⟩
  | written hslot hvalue hstash hkept hscopes => exact ⟨_, hslot, hvalue⟩

namespace Machine

def Raises (p : Setting) (s : State) (fault : Fault) : Prop :=
  ∃ e s', advance p s = .failed e s' ∧ e.fault = fault

section

variable {p : Setting} {s : State} {name : Name} {id : NodeId} {rest : Agenda}

theorem ensures_read (hkind : p.tree.kind? id = some (.identifier name)) (rest : Agenda) :
    Ensures (execute p (.node id)) { s with agenda := rest }
      (fun _ s' => ∃ frame, s.scopes.owner? s.env name = some frame ∧ s.Accesses s' frame name)
      fun e _ => e.fault.isResource = true ∨ s.Refuses p name e.fault := by
  unfold execute
  rw [ensures_bind]
  refine ensures_tick (fun steps readings => ?_) fun _ _ _ => .inl rfl
  dsimp only
  rw [ensures_bind, ensures_modify]
  unfold evalNode
  rw [ensures_bind, ensures_kindOf hkind]
  unfold evalKind evalIdentifier
  rw [ensures_bind, ensures_get, ensures_bind, ensures_get]
  unfold Scopes.lookup
  cases howner : s.scopes.owner? s.env name with
  | none =>
    have hslot : s.scopes.slot? s.env name = none := by rw [Scopes.slot?, howner]; rfl
    simp only [hslot]
    exact .inr (.undefined howner)
  | some frame =>
    obtain ⟨⟨value, mutability⟩, hown⟩ := Scopes.exists_own?_of_owner? howner
    simp only [Scopes.slot?_eq_own? howner, hown]
    cases value with
    | none => exact .inr (.uninitialized howner ⟨mutability, hown⟩)
    | some v => exact ⟨frame, rfl, .read hown rfl rfl rfl⟩

theorem ensures_written {v : Value} {stash : Stash} (hstash : s.stash = v :: stash) (rest : Agenda) :
    Ensures (execute p (.instr (.assign name id))) { s with agenda := rest }
      (fun _ s' => ∃ frame, s.scopes.owner? s.env name = some frame ∧ s.Accesses s' frame name)
      fun e _ => e.fault.isResource = true ∨ s.Refuses p name e.fault := by
  unfold execute
  rw [ensures_bind]
  refine ensures_tick (fun steps readings => ?_) fun _ _ _ => .inl rfl
  dsimp only
  unfold execInstr
  rw [ensures_bind, ensures_peek]
  simp only [hstash]
  rw [ensures_bind, ensures_get, ensures_onName]
  unfold Scopes.assign
  cases howner : s.scopes.owner? s.env name with
  | none =>
    exact .inr (.undefined howner)
  | some frame =>
    obtain ⟨slot, hown⟩ := Scopes.exists_own?_of_owner? howner
    simp only [Scopes.slot?_eq_own? howner, hown]
    obtain ⟨value, mutability⟩ := slot
    cases value with
    | none => exact .inr (.uninitialized howner ⟨mutability, hown⟩)
    | some w =>
      cases mutability with
      | fixed => exact .inr (.constant howner ⟨_, hown, rfl⟩)
      | assignable => exact ⟨frame, rfl, .written hown rfl hstash hstash.symm rfl⟩

/-- What comes of the use of a name. -/
theorem advance_use (huse : s.Uses p.tree id name) (hcounts : s.Counts p.tree) :
    (advance p s).isLimited = true ∨
      (∃ s' frame, advance p s = .running s' ∧ s.scopes.owner? s.env name = some frame ∧ s.Accesses s' frame name) ∨
      ∃ fault, s.Refuses p name fault ∧ Raises p s fault := by
  have hitem : ∃ item rest, s.agenda = item :: rest ∧ Ensures (execute p item) { s with agenda := rest }
      (fun _ s' => ∃ frame, s.scopes.owner? s.env name = some frame ∧ s.Accesses s' frame name)
      fun e _ => e.fault.isResource = true ∨ s.Refuses p name e.fault := by
    cases huse with
    | read hagenda hkind => exact ⟨_, _, hagenda, ensures_read hkind _⟩
    | written hagenda =>
      have hnow := hcounts.now
      rw [hagenda] at hnow
      obtain ⟨n, hlength, -⟩ := Agenda.Expects.behind hnow
      obtain ⟨v, stash, hstash⟩ := List.exists_cons_of_length_eq_add_one hlength
      exact ⟨_, _, hagenda, ensures_written hstash _⟩
  obtain ⟨item, rest, hagenda, hensures⟩ := hitem
  cases hx : execute p item { s with agenda := rest } with
  | ok _ s' =>
    obtain ⟨frame, howner, haccesses⟩ := (ensures_of_ok hx).mp hensures
    exact .inr (.inl ⟨s', frame, advanceBy_ok hagenda hx, howner, haccesses⟩)
  | error e s' =>
    have hfailed : advance p s = .failed (locateError p s' e) s' := advanceBy_error hagenda hx
    obtain hlimit | hrefuses := (ensures_of_error hx).mp hensures
    · exact .inl (by rw [hfailed, Progress.isLimited, locateError_fault]; exact hlimit)
    · exact .inr (.inr ⟨e.fault, hrefuses, _, s', hfailed, locateError_fault p s' e⟩)

theorem Raises.unique {fault fault' : Fault} (h : Raises p s fault) (h' : Raises p s fault') : fault = fault' := by
  obtain ⟨e, s', hfailed, rfl⟩ := h
  obtain ⟨e', s'', hfailed', rfl⟩ := h'
  cases hfailed.symm.trans hfailed'
  rfl

theorem Raises.not_running {fault : Fault} {s' : State} (h : Raises p s fault) : advance p s ≠ .running s' := by
  obtain ⟨e, s'', hfailed, -⟩ := h
  rw [hfailed]
  exact Progress.noConfusion

theorem Raises.isLimited {fault : Fault} (h : Raises p s fault) : (advance p s).isLimited = fault.isResource := by
  obtain ⟨e, s', hfailed, rfl⟩ := h
  rw [hfailed]
  rfl

/-- A name is undefined just if no frame has it, unless a limit comes first. -/
theorem raises_undefined_iff (huse : s.Uses p.tree id name) (hcounts : s.Counts p.tree) :
    Raises p s (.undefinedVariable (p.nameText name)) ↔
      (advance p s).isLimited = false ∧ s.scopes.owner? s.env name = none := by
  constructor
  · intro hraises
    refine ⟨hraises.isLimited, ?_⟩
    obtain hlimit | ⟨s', frame, hrun, -⟩ | ⟨fault, hrefuses, hraises'⟩ := advance_use huse hcounts
    · cases hlimit.symm.trans hraises.isLimited
    · exact absurd hrun hraises.not_running
    · obtain rfl := hraises.unique hraises'
      cases hrefuses with
      | undefined howner => exact howner
  · rintro ⟨hlimit, howner⟩
    obtain hlimit' | ⟨s', frame, -, howner', -⟩ | ⟨fault, hrefuses, hraises⟩ := advance_use huse hcounts
    · cases hlimit.symm.trans hlimit'
    · cases howner.symm.trans howner'
    · cases hrefuses with
      | undefined _ => exact hraises
      | uninitialized howner' _ | constant howner' _ => cases howner.symm.trans howner'

/-- A name has no value just if the variable that it means has none, unless a limit comes first. -/
theorem raises_uninitialized_iff (huse : s.Uses p.tree id name) (hcounts : s.Counts p.tree) :
    Raises p s (.uninitializedAccess (p.nameText name)) ↔
      (advance p s).isLimited = false ∧ ∃ frame, s.scopes.owner? s.env name = some frame ∧
        s.scopes.Lacks frame name := by
  constructor
  · intro hraises
    refine ⟨hraises.isLimited, ?_⟩
    obtain hlimit | ⟨s', frame, hrun, -⟩ | ⟨fault, hrefuses, hraises'⟩ := advance_use huse hcounts
    · cases hlimit.symm.trans hraises.isLimited
    · exact absurd hrun hraises.not_running
    · obtain rfl := hraises.unique hraises'
      cases hrefuses with
      | uninitialized howner hlacks => exact ⟨_, howner, hlacks⟩
  · rintro ⟨hlimit, frame, howner, hlacks⟩
    obtain hlimit' | ⟨s', frame', -, howner', haccesses⟩ | ⟨fault, hrefuses, hraises⟩ := advance_use huse hcounts
    · cases hlimit.symm.trans hlimit'
    · cases howner.symm.trans howner'
      exact absurd haccesses.holds hlacks.not_holds
    · cases hrefuses with
      | undefined howner' => cases howner.symm.trans howner'
      | uninitialized _ _ => exact hraises
      | constant howner' hholds =>
        cases howner.symm.trans howner'
        exact absurd hholds hlacks.not_holds

end

/-! ## 2. The start -/

/-- What every program finds is put into frames that are there. -/
theorem tail_install (env : Env) (entries : List (String × Value)) (names : NameTable) (scopes : Scopes) (i : Nat) :
    (install env entries names scopes).2.frames[i]?.map Frame.tail = scopes.frames[i]?.map Frame.tail := by
  induction entries generalizing names scopes with
  | nil => rfl
  | cons entry rest ih =>
    refine (ih _ _).trans ?_
    rw [Scopes.insert, Array.getElem?_modify]
    split
    · rw [Option.map_map]
      rfl
    · rfl

variable {σ : Type} {t : Tree} {config : Config} {hosts : List EmbeddedFunction} {output : Output}
  {clock : Nat → Nat} {rule : PauseRule σ} {memory : σ} {s : State}

theorem tail_build : (build t config hosts output clock rule memory).state.scopes.frames[
    (build t config hosts output clock rule memory).setting.global.frame]?.map Frame.tail = some none :=
  tail_install _ _ _ _ _

theorem starts_build : (build t config hosts output clock rule memory).Starts :=
  ⟨Scopes.lt_size_of_tail tail_build, fun _ _ => own?_build t config hosts output clock rule memory⟩

/-- No frame belongs to a scope yet, and the root is in none. -/
theorem scoped_build :
    (build t config hosts output clock rule memory).state.Scoped (build t config hosts output clock rule memory) := by
  have hwithin : (build t config hosts output clock rule memory).Within
      (build t config hosts output clock rule memory).state.scopes.frames.size
      (build t config hosts output clock rule memory).state.env [] := ⟨starts_build.outermost, .outermost rfl⟩
  refine ⟨⟨⟨[], hwithin, .cons (Item.nested_node .root) rfl .nil⟩, fun _ h => absurd h (Array.not_mem_empty _), ?_⟩,
    ⟨?_, ?_, tail_build, fun _ => rfl⟩, ⟨?_, fun _ h => absurd h (Array.not_mem_empty _)⟩⟩
  · rw [build_eq_buildWith]
    exact all_buildWith t config hosts output clock rule memory (fun _ => closedOver_of_isInert) (globals_inert hosts)
  · exact fun frame scope outer hbelongs hlt => absurd hbelongs.size_le (Nat.not_le_of_lt hlt)
  · exact fun frame scope outer hbelongs hlt => absurd hbelongs.size_le (Nat.not_le_of_lt hlt)
  · exact (settled_build t config hosts output clock rule memory).sound

/-! ## 3. Runs -/

theorem Reaches.scoped (hplace : t.DeclaresInPlace) (hheads : t.HeadsDeclareVariables) (hhosts : ∀ f ∈ hosts, f.Honest)
    (hs : (build t config hosts output clock rule memory).Reaches s) :
    s.Scoped (build t config hosts output clock rule memory) := by
  refine hs.induct scoped_build fun s s' item rest hs hscoped hagenda hrun _ => ?_
  have hkeeps : ∀ size, (build t config hosts output clock rule memory).setting.Keeps
      ((build t config hosts output clock rule memory).ClosedOver size) := fun size =>
    keeps_buildWith t config hosts output clock rule memory fun f hf =>
      hhosts f hf _ (fun _ => closedOver_of_isInert) fun _ => trivial
  have htidy : rest.Tidy := hs.tidy.agenda.suffix (hagenda ▸ List.suffix_cons item rest)
  exact scoped_advance hplace hheads hkeeps starts_build hs hrun hagenda htidy hscoped

/-- A run of one more step is a run, and then one step. -/
theorem exists_last_step {p : Setting} {n : Nat} {s s' : State} (h : travel p (n + 1) s = .running s') :
    ∃ r, travel p n s = .running r ∧ advance p r = .running s' := by
  have hended : ∀ r, travel p n s = r → (∀ t, r ≠ .running t) → False := fun r hr hnot =>
    hnot s' ((travelBy_ended 1 hr hnot).symm.trans h)
  cases hr : travel p n s with
  | running r =>
    have hlast : travel p 1 r = .running s' := (travelBy_add 1 hr).symm.trans h
    rw [travel_succ] at hlast
    cases ha : advance p r with
    | running r' =>
      rw [ha] at hlast
      cases hlast
      exact ⟨r, rfl, ha⟩
    | finished v r' => rw [ha] at hlast; cases hlast
    | failed e r' => rw [ha] at hlast; cases hlast
  | finished v r => exact (hended _ hr fun _ h => Progress.noConfusion h).elim
  | failed e r => exact (hended _ hr fun _ h => Progress.noConfusion h).elim

theorem accounts_travel (hplace : t.DeclaresInPlace) (hheads : t.HeadsDeclareVariables)
    (hhosts : ∀ f ∈ hosts, f.Honest) {n : Nat}
    (hn : travel (build t config hosts output clock rule memory).setting n
      (build t config hosts output clock rule memory).state = .running s) (frame : Nat) (name : Name) :
    (build t config hosts output clock rule memory).Accounts n s.scopes frame name := by
  induction n generalizing s frame name with
  | zero =>
    cases hn
    cases hslot : (build t config hosts output clock rule memory).state.scopes.own? frame name with
    | none => exact accounts_of_none hslot
    | some slot =>
      have hlt := Scopes.lt_size_of_own? hslot
      refine ⟨fun _ _ _ h => absurd h.size_le (Nat.not_le_of_lt hlt),
        fun _ _ _ h => absurd h.size_le (Nat.not_le_of_lt hlt), fun source hcopies _ => ?_⟩
      obtain ⟨r, r', vars, rest, hbirth, -, -⟩ := hcopies
      exact absurd (hbirth.before ▸ hbirth.reached.size_le) (Nat.not_le_of_lt hlt)
  | succ n ih =>
    obtain ⟨r, hr, hrun⟩ := exists_last_step hn
    cases hagenda : r.agenda with
    | nil => rw [advance_nil _ hagenda] at hrun; cases hrun
    | cons item rest =>
      exact accounts_advance hr hrun hagenda (fun q hq => hq.scoped hplace hheads hhosts) (ih hr) frame name

/-! ## 4. Where names lead -/

/-- What comes of the use of a name in some scopes, which is next after `n` items. -/
structure Resolves (m : Machine σ) (n : Nat) (s : State) (name : Name) (scopes : List NodeId) : Prop where
  /-- The frames from the current one outward are those of the scopes, and of what every program finds. -/
  mirrors : m.Mirrors s.env scopes
  /-- The name means a variable of a frame of the innermost scope that has it. -/
  bound : ∀ scope, m.setting.tree.binder? scopes name = some scope →
    ∃ frame outer, m.Belongs frame scope outer ∧ s.scopes.owner? s.env name = some frame
  /-- If there is no such scope, it means what every program finds under this name. -/
  free : m.setting.tree.binder? scopes name = none →
    s.scopes.owner? s.env name = if (m.global? name).isSome then some m.setting.global.frame else none
  /-- A use that succeeds is one of this variable. -/
  accesses : ∀ s', advance m.setting s = .running s' →
    ∃ frame, s.scopes.owner? s.env name = some frame ∧ s.Accesses s' frame name
  /-- The name is undefined just if there is no such scope, and no program finds it. -/
  undefined : Raises m.setting s (.undefinedVariable (m.setting.nameText name)) ↔
    (advance m.setting s).isLimited = false ∧ m.setting.tree.binder? scopes name = none ∧ m.global? name = none
  /-- It has no value just if it is declared by this scope, and the declaration has not been carried out in this frame,
  nor in that of the loop that it is a copy of. -/
  uninitialized : Raises m.setting s (.uninitializedAccess (m.setting.nameText name)) ↔
    (advance m.setting s).isLimited = false ∧ ∃ scope frame outer, m.setting.tree.binder? scopes name = some scope ∧
      m.Belongs frame scope outer ∧ s.scopes.owner? s.env name = some frame ∧ name ∉ m.setting.tree.parameters scope ∧
      ∀ id kind, (id, name, kind) ∈ m.setting.tree.declared scope → ¬m.CarriedOut n id frame

section

variable {m : Machine σ} {n : Nat} {name : Name} {id : NodeId} {scopes : List NodeId}

/-- What is used belongs to the scopes that the work stands in. -/
theorem scoped_of_use {C : Env → List NodeId → Prop} (huse : s.Uses m.setting.tree id name)
    (h : s.agenda.Nested m.setting.tree C scopes) : m.setting.tree.Scoped id scopes := by
  cases huse with
  | read hagenda hkind =>
    rw [hagenda] at h
    exact (h.tail rfl).1.evaluated id (List.mem_singleton_self id)
  | written hagenda =>
    rw [hagenda] at h
    exact ((h.tail rfl).1.assigns name id rfl).1

/-- No frame has the name if no scope around has it, and no program finds it. -/
theorem Mirrors.owner?_eq_none_iff (hmirrors : m.Mirrors s.env scopes) (hlaid : m.Laid s.scopes)
    (hlt : s.env.frame < s.scopes.frames.size) (name : Name) :
    s.scopes.owner? s.env name = none ↔ m.setting.tree.binder? scopes name = none ∧ m.global? name = none := by
  obtain ⟨hbound, hfree⟩ := hmirrors.owner? hlaid hlt name
  cases hbinder : m.setting.tree.binder? scopes name with
  | some scope =>
    obtain ⟨frame, outer, -, howner⟩ := hbound scope hbinder
    simp [howner]
  | none =>
    rw [hfree hbinder]
    cases m.global? name <;> simp

/-- The variable that a name means has no value if it is one of a scope around, and has not been declared. -/
theorem exists_lacks_iff (hm : m.Starts) (hscoped : s.Scoped m)
    (haccounts : ∀ frame name, m.Accounts n s.scopes frame name) (hmirrors : m.Mirrors s.env scopes) :
    (∃ frame, s.scopes.owner? s.env name = some frame ∧ s.scopes.Lacks frame name) ↔
      ∃ scope frame outer, m.setting.tree.binder? scopes name = some scope ∧ m.Belongs frame scope outer ∧
        s.scopes.owner? s.env name = some frame ∧ name ∉ m.setting.tree.parameters scope ∧
        ∀ id kind, (id, name, kind) ∈ m.setting.tree.declared scope → ¬m.CarriedOut n id frame := by
  obtain ⟨hbound, hfree⟩ := hmirrors.owner? hscoped.laid hscoped.surrounded.lt_size name
  constructor
  · rintro ⟨frame, howner, hlacks⟩
    cases hbinder : m.setting.tree.binder? scopes name with
    | some scope =>
      obtain ⟨frame', outer, hbelongs, howner'⟩ := hbound scope hbinder
      cases howner.symm.trans howner'
      exact ⟨scope, frame, outer, rfl, hbelongs, howner, (haccounts frame name).lacks hlacks scope outer hbelongs⟩
    | none =>
      -- What every program finds has its value.
      rw [hfree hbinder] at howner
      split at howner
      · cases howner
        obtain ⟨mutability, hslot⟩ := hlacks
        rw [hscoped.laid.found] at hslot
        cases (hm.fixed name _ hslot).1
      · cases howner
  · rintro ⟨scope, frame, outer, -, hbelongs, howner, hparameter, hnone⟩
    refine ⟨frame, howner, ?_⟩
    obtain ⟨slot, hslot⟩ := Scopes.exists_own?_of_owner? howner
    refine (Scopes.lacks_or_holds hslot).resolve_right fun hholds => ?_
    obtain hparameter' | ⟨id, kind, hdeclared, hcarried⟩ := (haccounts frame name).holds hholds scope outer hbelongs
    · exact hparameter hparameter'
    · exact hnone id kind hdeclared hcarried

theorem resolves_use (hm : m.Starts) (hscoped : s.Scoped m) (hcounts : s.Counts m.setting.tree)
    (haccounts : ∀ frame name, m.Accounts n s.scopes frame name) (huse : s.Uses m.setting.tree id name)
    (hmirrors : m.Mirrors s.env scopes) : m.Resolves n s name scopes := by
  have hlt := hscoped.surrounded.lt_size
  obtain ⟨hbound, hfree⟩ := hmirrors.owner? hscoped.laid hlt name
  refine ⟨hmirrors, hbound, hfree, fun s' hrun => ?_, ?_, ?_⟩
  · obtain hlimit | ⟨s'', frame, hrun', howner, haccesses⟩ | ⟨fault, -, hraises⟩ := advance_use huse hcounts
    · rw [hrun] at hlimit
      cases hlimit
    · cases hrun.symm.trans hrun'
      exact ⟨frame, howner, haccesses⟩
    · exact absurd hrun hraises.not_running
  · exact (raises_undefined_iff huse hcounts).trans
      (and_congr_right' (hmirrors.owner?_eq_none_iff hscoped.laid hlt name))
  · exact (raises_uninitialized_iff huse hcounts).trans
      (and_congr_right' (exists_lacks_iff hm hscoped haccounts hmirrors))

end

variable (t config hosts output clock rule memory)

/-- **Scoping is static.**  In a well-placed tree, where declarations stand in lists of statements or are variables
in the head of a `for`, programs stand at the root only, and no node has two parents, let a run come to the use of
a name.  Then there is one list of scopes around the node, and these are the scopes that the name is looked up in,
whatever calls, jumps, tail calls and continuations have been before. -/
theorem scoping_is_static (hplaced : t.WellPlaced) (hplace : t.DeclaresInPlace) (hheads : t.HeadsDeclareVariables)
    (hprograms : t.ProgramsOutside) (hshares : t.SharesNothing) (hhosts : ∀ f ∈ hosts, f.Honest) :
    let m := build t config hosts output clock rule memory
    ∀ (n : Nat) (s : State) (id : NodeId) (name : Name), travel m.setting n m.state = .running s → s.Uses t id name →
      (∃ scopes, t.Scoped id scopes) ∧ ∀ scopes, t.Scoped id scopes → m.Resolves n s name scopes := by
  intro m n s id name hn huse
  have hs : m.Reaches s := reaches_iff.mpr ⟨n, hn⟩
  have hscoped : s.Scoped m := hs.scoped hplace hheads hhosts
  obtain ⟨scopes, ⟨-, hmirrors⟩, hnested⟩ := hscoped.surrounded.now
  have haround : t.Scoped id scopes := scoped_of_use (m := m) huse hnested
  refine ⟨⟨scopes, haround⟩, fun scopes' h => ?_⟩
  obtain rfl := h.unique hshares hprograms haround
  exact resolves_use starts_build hscoped (hs.counts hplaced) (accounts_travel hplace hheads hhosts hn) huse hmirrors

end Machine

/-- The program `const x = true; { x; const x = true; }`. -/
def Tree.shadowing : Tree where
  names := ⟨#["", "x"]⟩
  nodes := #[⟨.literal (.bool true), .dummy⟩, ⟨.declaration .constKind ⟨1⟩ ⟨0⟩, .dummy⟩, ⟨.identifier ⟨1⟩, .dummy⟩,
    ⟨.expressionStatement ⟨2⟩, .dummy⟩, ⟨.literal (.bool true), .dummy⟩, ⟨.declaration .constKind ⟨1⟩ ⟨4⟩, .dummy⟩,
    ⟨.block [⟨3⟩, ⟨5⟩], .dummy⟩, ⟨.program [⟨1⟩, ⟨6⟩], .dummy⟩]
  root := ⟨7⟩
  accepted := by decide

namespace Machine

/-- In the block, the name means the constant of the block, which has no value yet, while the one outside has. -/
theorem scoping_is_static_shadowing :
    let m := build .shadowing .standard [] default (fun _ => 0) .never ()
    (Tree.shadowing.WellPlaced ∧ Tree.shadowing.DeclaresInPlace ∧ Tree.shadowing.HeadsDeclareVariables ∧
      Tree.shadowing.ProgramsOutside ∧ Tree.shadowing.SharesNothing) ∧
    ∃ s, travel m.setting 7 m.state = .running s ∧ s.Uses .shadowing ⟨2⟩ ⟨1⟩ ∧ m.Resolves 7 s ⟨1⟩ [⟨6⟩, ⟨7⟩] ∧
      s.scopes.Holds 1 ⟨1⟩ ∧ Raises m.setting s (.uninitializedAccess (m.setting.nameText ⟨1⟩)) ∧ ∃ frame outer,
        m.Belongs frame ⟨6⟩ outer ∧ s.scopes.owner? s.env ⟨1⟩ = some frame ∧ ¬m.CarriedOut 7 ⟨5⟩ frame := by
  intro m
  have hwell : Tree.shadowing.WellPlaced ∧ Tree.shadowing.DeclaresInPlace ∧ Tree.shadowing.HeadsDeclareVariables ∧
      Tree.shadowing.ProgramsOutside ∧ Tree.shadowing.SharesNothing := by decide
  obtain ⟨hplaced, hplace, hheads, hprograms, hshares⟩ := hwell
  have hscopes : Tree.shadowing.Scoped ⟨2⟩ [⟨6⟩, ⟨7⟩] := by
    have hblock : Tree.shadowing.Scoped ⟨6⟩ [⟨7⟩] := .child .root ⟨_, rfl, by decide⟩
    have hstatement : Tree.shadowing.Scoped ⟨3⟩ [⟨6⟩, ⟨7⟩] := .child hblock ⟨_, rfl, by decide⟩
    exact .child hstatement ⟨_, rfl, by decide⟩
  obtain ⟨s, hrun, hnode, howner, hinner, houter, hunlimited⟩ : ∃ s, travel m.setting 7 m.state = .running s ∧
      s.agenda.head?.bind Item.node? = some ⟨2⟩ ∧ s.scopes.owner? s.env ⟨1⟩ = some 2 ∧
      (s.scopes.own? 2 ⟨1⟩).any (fun slot => slot.value.isNone) = true ∧
      (s.scopes.own? 1 ⟨1⟩).any (fun slot => slot.value.isSome) = true ∧ (advance m.setting s).isLimited = false :=
    ⟨_, Progress.eq_running (by decide +kernel), by decide +kernel, by decide +kernel, by decide +kernel,
      by decide +kernel, by decide +kernel⟩
  obtain ⟨rest, hagenda⟩ := State.exists_agenda hnode
  have huse : s.Uses .shadowing ⟨2⟩ ⟨1⟩ := .read hagenda rfl
  obtain ⟨slot, hslot, hvalue⟩ := (Option.any_eq_true _ _).mp houter
  have hlacks : s.scopes.Lacks 2 ⟨1⟩ := by
    obtain ⟨⟨value, mutability⟩, hslot, hnone⟩ := (Option.any_eq_true _ _).mp hinner
    obtain rfl : value = none := Option.isNone_iff_eq_none.mp hnone
    exact ⟨mutability, hslot⟩
  have hs : m.Reaches s := reaches_iff.mpr ⟨7, hrun⟩
  have hraises : Raises m.setting s (.uninitializedAccess (m.setting.nameText ⟨1⟩)) :=
    (raises_uninitialized_iff (p := m.setting) huse (hs.counts hplaced)).mpr ⟨hunlimited, 2, howner, hlacks⟩
  have hresolves := (scoping_is_static .shadowing .standard [] default (fun _ => 0) .never () hplaced hplace hheads
    hprograms hshares (fun _ h => absurd h List.not_mem_nil) 7 s ⟨2⟩ ⟨1⟩ hrun huse).2 _ hscopes
  obtain ⟨-, scope, frame, outer, hbinder, hbelongs, howner, -, hnone⟩ := hresolves.uninitialized.mp hraises
  have hscope : Tree.shadowing.binder? [⟨6⟩, ⟨7⟩] ⟨1⟩ = some ⟨6⟩ := by decide
  obtain rfl : scope = ⟨6⟩ := Option.some.inj (hbinder.symm.trans hscope)
  exact ⟨⟨hplaced, hplace, hheads, hprograms, hshares⟩, s, hrun, huse, hresolves, ⟨slot, hslot, hvalue⟩, hraises, frame,
    outer, hbelongs, howner, hnone ⟨5⟩ .constKind (by decide)⟩

end Machine

/-- The program `for (function f() {}; false;) {} f; const f = true;`. -/
def Tree.headed : Tree where
  names := ⟨#["", "f"]⟩
  nodes := #[⟨.function (some ⟨1⟩) [] (.block []), .dummy⟩, ⟨.functionDeclaration ⟨1⟩ ⟨0⟩, .dummy⟩,
    ⟨.literal (.bool false), .dummy⟩, ⟨.block [], .dummy⟩, ⟨.forLoop (some ⟨1⟩) (some ⟨2⟩) none ⟨3⟩, .dummy⟩,
    ⟨.identifier ⟨1⟩, .dummy⟩, ⟨.expressionStatement ⟨5⟩, .dummy⟩, ⟨.literal (.bool true), .dummy⟩,
    ⟨.declaration .constKind ⟨1⟩ ⟨7⟩, .dummy⟩, ⟨.program [⟨4⟩, ⟨6⟩, ⟨8⟩], .dummy⟩]
  root := ⟨9⟩
  accepted := by decide

namespace Machine

/-- A function that is declared in the head of a `for` gets no frame there.  It gives its value to a constant of the
program, which can be read then, although its own declaration has not been carried out. -/
theorem head_function_fills_outer :
    let m := build .headed .standard [] default (fun _ => 0) .never ()
    (Tree.headed.WellPlaced ∧ Tree.headed.DeclaresInPlace ∧ Tree.headed.ProgramsOutside ∧ Tree.headed.SharesNothing) ∧
    ∃ s frame outer, travel m.setting 13 m.state = .running s ∧ s.Uses .headed ⟨5⟩ ⟨1⟩ ∧
      Tree.headed.Scoped ⟨5⟩ [⟨9⟩] ∧ Tree.headed.binder? [⟨9⟩] ⟨1⟩ = some ⟨9⟩ ∧ m.Belongs frame ⟨9⟩ outer ∧
      s.scopes.owner? s.env ⟨1⟩ = some frame ∧ ⟨1⟩ ∉ Tree.headed.parameters ⟨9⟩ ∧
      (∀ id kind, (id, ⟨1⟩, kind) ∈ Tree.headed.declared ⟨9⟩ → ¬m.CarriedOut 13 id frame) ∧
      (advance m.setting s).isRunning = true := by
  intro m
  have hrun : travel m.setting 13 m.state = .running (travel m.setting 13 m.state).state :=
    Progress.eq_running (by decide +kernel)
  have hnode : (travel m.setting 13 m.state).state.agenda.head?.bind Item.node? = some ⟨5⟩ := by decide +kernel
  obtain ⟨rest, hagenda⟩ := State.exists_agenda hnode
  have hscopes : Tree.headed.Scoped ⟨5⟩ [⟨9⟩] := by
    have hstatement : Tree.headed.Scoped ⟨6⟩ [⟨9⟩] := .child .root ⟨_, rfl, by decide⟩
    exact .child hstatement ⟨_, rfl, by decide⟩
  have hbelongs : m.Belongs 1 ⟨9⟩ m.state.env :=
    .made ⟨reaches_start m, Progress.eq_running (by decide +kernel), .node rfl, by decide +kernel, by decide +kernel⟩
  have hnever : ∀ j < 13, (travel m.setting j m.state).state.agenda.head?.all
      (fun item => (item.due .headed).map Prod.fst != some ⟨8⟩) = true := by decide +kernel
  have hnone : ∀ frame, ¬m.CarriedOut 13 ⟨8⟩ frame := by
    intro frame h
    induction h with
    | @here j r name rest hj hr hnext =>
      have hitem := hnever j hj
      rw [hr, Progress.state, hnext] at hitem
      cases hitem
    | copied hcopies h ih => exact ih
  refine ⟨by decide, _, 1, m.state.env, hrun, .read hagenda rfl, hscopes, by decide, hbelongs,
    by decide +kernel, by decide, fun id kind hdeclared => ?_, by decide +kernel⟩
  have hids : ∀ d ∈ Tree.headed.declared ⟨9⟩, d.1 = ⟨8⟩ := by decide
  obtain rfl : id = ⟨8⟩ := hids _ hdeclared
  exact hnone 1

end Machine

end ExplicitControl
