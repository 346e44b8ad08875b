import ExplicitControl.Proofs.Surroundings
import ExplicitControl.Proofs.Trips

/-!
# What frames hold

A frame has the variables of its scope from the moment that it is made, and stays inside of the same environment.
One of its variables has no value just as long as its declaration has not been carried out, in this frame or in the
frame of the loop that it is a copy of.  Each step keeps both, whatever calls, jumps and continuations there are.
-/

namespace ExplicitControl

/-! ## 1. Declarations -/

namespace Tree

variable {t : Tree} {d : NodeId × Name × DeclKind} {id scope scope' : NodeId} {name name' : Name}
  {kind kind' : DeclKind}

theorem eq_of_declaration? (h : t.declaration? id = some d) : d.1 = id := by
  unfold declaration? at h
  split at h
  · cases h; rfl
  · cases h; rfl
  · cases h

/-- What a scope declares are declarations. -/
theorem declaration?_of_mem (h : d ∈ t.declared scope) : t.declaration? d.1 = some d := by
  have listed : ∀ {body : List NodeId}, d ∈ t.declarations body → t.declaration? d.1 = some d := by
    intro body h
    rw [declarations_eq] at h
    obtain ⟨id, -, hd⟩ := List.mem_filterMap.mp h
    rw [eq_of_declaration? hd]
    exact hd
  unfold declared at h
  split at h
  next name params code hkind =>
    cases code with
    | block body => exact listed h
    | expression expr => exact absurd h List.not_mem_nil
  next kind _ hkind =>
    cases kind with
    | program body => exact listed h
    | block body => exact listed h
    | forLoop init test update body =>
      obtain ⟨id, -, hd⟩ := List.mem_filterMap.mp h
      split at hd
      next kind name value hid =>
        cases hd
        rw [declaration?, hid]
      next => cases hd
    | _ => exact absurd h List.not_mem_nil
  next => exact absurd h List.not_mem_nil

/-- A declaration declares one name. -/
theorem declared_inj (h : (id, name, kind) ∈ t.declared scope) (h' : (id, name', kind') ∈ t.declared scope') :
    name = name' := by
  have hfirst : t.declaration? id = some (id, name, kind) := declaration?_of_mem h
  have hsecond : t.declaration? id = some (id, name', kind') := declaration?_of_mem h'
  cases hfirst.symm.trans hsecond
  rfl

/-- The variables of a new frame are those of its scope. -/
theorem isSome_slots {args : List Value} {f : Frame} (harity : (t.parameters scope).length = args.length)
    (hhead : f.head = t.slots scope args) (name : Name) : (f.slot? name).isSome = true ↔ t.Binds scope name := by
  rw [Option.isSome_iff_ne_none, Ne, Frame.slot?_eq_none, not_not, hhead, map_fst_slots harity, List.mem_append,
    List.mem_reverse, List.mem_reverse]
  exact or_comm

end Tree

namespace Scopes

variable {s : Scopes} {frame : Nat} {name : Name} {g : Slot → Slot}

theorem tail_modifySlot (s : Scopes) (frame : Nat) (name : Name) (g : Slot → Slot) (i : Nat) :
    (s.modifySlot frame name g).frames[i]?.map Frame.tail = s.frames[i]?.map Frame.tail := by
  rw [modifySlot, Array.getElem?_modify]
  split
  · rw [Option.map_map]
    rfl
  · rfl

theorem size_modifySlot (s : Scopes) (frame : Nat) (name : Name) (g : Slot → Slot) :
    (s.modifySlot frame name g).frames.size = s.frames.size :=
  Array.size_modify

theorem isSome_own?_modifySlot (s : Scopes) (frame frame' : Nat) (name name' : Name) (g : Slot → Slot) :
    ((s.modifySlot frame name g).own? frame' name').isSome = (s.own? frame' name').isSome := by
  rw [own?_modifySlot]
  split
  · exact Option.isSome_map
  · rfl

theorem own?_eq_none (h : s.frames.size ≤ frame) (name : Name) : s.own? frame name = none := by
  rw [own?, Array.getElem?_eq_none h]
  rfl

theorem lacks_or_holds {slot : Slot} (h : s.own? frame name = some slot) : s.Lacks frame name ∨ s.Holds frame name := by
  obtain ⟨value, mutability⟩ := slot
  cases value with
  | none => exact .inl ⟨mutability, h⟩
  | some v => exact .inr ⟨_, h, rfl⟩

end Scopes

namespace Machine

variable {σ : Type} {m : Machine σ} {s s' : State} {item : Item} {rest : Agenda} {n frame : Nat} {name : Name}
  {id : NodeId}

/-! ## 2. The variables of frames -/

structure Starts (m : Machine σ) : Prop where
  outermost : m.setting.global.frame < m.state.scopes.frames.size
  fixed : ∀ name slot, m.global? name = some slot → slot.value.isSome = true ∧ slot.mutability = .fixed

theorem Reaches.size_le (hs : m.Reaches s) : m.state.scopes.frames.size ≤ s.scopes.frames.size := by
  obtain ⟨n, hn⟩ := reaches_iff.mp hs
  exact size_le_of_travel hn

/-- The frames of the start belong to no scope. -/
theorem Belongs.size_le {scope : NodeId} {outer : Env} (h : m.Belongs frame scope outer) :
    m.state.scopes.frames.size ≤ frame := by
  cases h with
  | made h =>
    obtain ⟨hreached, hrun, henters, hbefore, hafter⟩ := h
    exact hbefore ▸ hreached.size_le
  | copied hcopies h =>
    obtain ⟨s, s', vars, rest, hbirth, -, -⟩ := hcopies
    exact hbirth.before ▸ hbirth.reached.size_le

theorem Starts.ne_of_belongs (hm : m.Starts) {scope : NodeId} {outer : Env} (h : m.Belongs frame scope outer) :
    frame ≠ m.setting.global.frame :=
  Nat.ne_of_gt (Nat.lt_of_lt_of_le hm.outermost h.size_le)

/-- A frame is made as its scope asks for. -/
theorem Laid.makes (h : m.Laid s.scopes) (houtermost : m.setting.global.frame < s.scopes.frames.size) {f : Frame}
    (hmade : s.Makes f s') (htail : ∀ scope outer, m.Belongs s.scopes.frames.size scope outer → f.tail = some outer)
    (hbinds : ∀ scope outer, m.Belongs s.scopes.frames.size scope outer →
      ∀ name, (f.slot? name).isSome = true ↔ m.setting.tree.Binds scope name) : m.Laid s'.scopes := by
  have hframes : ∀ i, s'.scopes.frames[i]? = if i = s.scopes.frames.size then some f else s.scopes.frames[i]? :=
    fun i => by
    rw [hmade.frames, Array.getElem?_push]
  have hsize : s'.scopes.frames.size = s.scopes.frames.size + 1 := by rw [hmade.frames, Array.size_push]
  refine ⟨fun frame scope outer hbelongs hlt => ?_, fun frame scope outer hbelongs hlt name => ?_, ?_, fun name => ?_⟩
  · rw [hframes]
    by_cases hnew : frame = s.scopes.frames.size
    · subst hnew
      rw [if_pos rfl, Option.map_some, htail scope outer hbelongs]
    · rw [if_neg hnew]
      exact h.tail frame scope outer hbelongs (by omega)
  · rw [hmade.own?]
    by_cases hnew : frame = s.scopes.frames.size
    · subst hnew
      rw [if_pos rfl]
      exact hbinds scope outer hbelongs name
    · rw [if_neg hnew]
      exact h.binds frame scope outer hbelongs (by omega) name
  · rw [hframes, if_neg (Nat.ne_of_lt houtermost)]
    exact h.outermost
  · rw [hmade.own?, if_neg (Nat.ne_of_lt houtermost)]
    exact h.found name

/-- Writing a value changes neither the variables of a frame nor what is around it. -/
theorem Laid.writes {scopes : Scopes} (h : m.Laid scopes) (hother : frame ≠ m.setting.global.frame) (name : Name)
    (g : Slot → Slot) : m.Laid (scopes.modifySlot frame name g) := by
  refine ⟨fun frame' scope outer hbelongs hlt => ?_, fun frame' scope outer hbelongs hlt name' => ?_, ?_,
    fun name' => ?_⟩
  · rw [Scopes.tail_modifySlot]
    exact h.tail frame' scope outer hbelongs (by rwa [Scopes.size_modifySlot] at hlt)
  · rw [Scopes.isSome_own?_modifySlot]
    exact h.binds frame' scope outer hbelongs (by rwa [Scopes.size_modifySlot] at hlt) name'
  · rw [Scopes.tail_modifySlot]
    exact h.outermost
  · rw [Scopes.own?_modifySlot, if_neg fun hsame => hother hsame.1.symm]
    exact h.found name'

end Machine

/-- Everything is in its scope: work and frames, and what is copied has its value. -/
structure State.Scoped {σ : Type} (m : Machine σ) (s : State) : Prop where
  surrounded : s.Surrounded m
  laid : m.Laid s.scopes
  founded : s.Founded m.setting.tree

section

variable {σ : Type} {m : Machine σ} {s s' : State} {rest : Agenda} {name : Name} {id : NodeId} {vars : List Name}

theorem State.Surrounded.lt_size (h : s.Surrounded m) : s.env.frame < s.scopes.frames.size := by
  obtain ⟨scopes, hwithin, -⟩ := h.now
  exact hwithin.1

/-- A declaration is carried out in a frame of the scope that it belongs to. -/
theorem State.Surrounded.declares (h : s.Surrounded m) (hagenda : s.agenda = .instr (.declare name id) :: rest) :
    ∃ scope outer kind, m.Belongs s.env.frame scope outer ∧ (id, name, kind) ∈ m.setting.tree.declared scope := by
  obtain ⟨scopes, ⟨-, hmirrors⟩, hnested⟩ := h.now
  rw [hagenda] at hnested
  obtain ⟨scope, outer, kind, rfl, hdeclared⟩ := (hnested.tail rfl).1.declares name id rfl
  cases hmirrors with
  | scope hbelongs holder houter => exact ⟨scope, _, kind, hbelongs, hdeclared⟩

theorem State.Scoped.own?_of_declare (h : s.Scoped m) (hagenda : s.agenda = .instr (.declare name id) :: rest) :
    ∃ slot, s.scopes.own? s.env.frame name = some slot := by
  obtain ⟨scope, outer, kind, hbelongs, hdeclared⟩ := h.surrounded.declares hagenda
  have hbinds := h.laid.binds _ _ _ hbelongs h.surrounded.lt_size name
  exact Option.isSome_iff_exists.mp (hbinds.mpr (.inr (List.mem_map.mpr ⟨_, hdeclared, rfl⟩)))

/-- A trip copies the variable of its loop in a frame of this loop. -/
theorem State.Surrounded.copies (h : s.Surrounded m) (hvars : vars ≠ [])
    (hagenda : s.agenda = .instr (.freshTrip vars) :: rest) :
    ∃ scope outer, m.Belongs s.env.frame scope outer ∧ m.setting.tree.parameters scope = [] ∧
      vars = (m.setting.tree.declared scope).map fun d => d.2.1 := by
  obtain ⟨scopes, ⟨-, hmirrors⟩, hnested⟩ := h.now
  rw [hagenda] at hnested
  obtain ⟨scope, outer, rfl, hparams, hdeclared⟩ := (hnested.tail rfl).1.copies hvars
  cases hmirrors with
  | scope hbelongs holder houter => exact ⟨scope, _, hbelongs, hparams, hdeclared⟩

end

namespace Machine

variable {σ : Type} {m : Machine σ} {s s' : State} {item : Item} {rest : Agenda} {n frame : Nat} {name : Name}
  {id : NodeId} {vars : List Name}

theorem Move.vars_ne_nil {p : Setting} {f : Frame} (h : Move p { s with agenda := rest } s' (.instr (.freshTrip vars)))
    (hmade : s.Makes f s') : vars ≠ [] := by
  cases h with
  | instr hplain hoffered hagenda hstill =>
    have hsame : s'.scopes.frames.size = s.scopes.frames.size :=
      congrArg (fun scopes => scopes.frames.size) hstill.scopes
    rw [hmade.frames, Array.size_push] at hsame
    exact absurd hsame (Nat.succ_ne_self _)
  | freshTrip hvars hagenda hcalls hsnapshots hmade => exact hvars
  | reached htarget hsearch hagenda hstash hstill => cases htarget
  | stopped htarget hsearch hagenda hstash hstill => cases htarget

theorem copies_of_makes (hs : m.Reaches s) (hrun : advance m.setting s = .running s')
    (hagenda : s.agenda = .instr (.freshTrip vars) :: rest) {f : Frame} (hmade : s.Makes f s') :
    m.Copies s.scopes.frames.size s.env.frame :=
  ⟨s, s', vars, rest, ⟨hs, hrun, rfl, by rw [hmade.frames, Array.size_push]⟩, hagenda, rfl⟩

/-- A copy has the variables of the loop. -/
theorem isSome_copy {scope : NodeId} {outer : Env} (hlaid : m.Laid s.scopes) (hlt : s.env.frame < s.scopes.frames.size)
    (hbelongs : m.Belongs s.env.frame scope outer) (hparams : m.setting.tree.parameters scope = [])
    (hvars : vars = (m.setting.tree.declared scope).map fun d => d.2.1) (name : Name) :
    ((((s.scopes.frame? s.env).getD default).copy vars).slot? name).isSome = true ↔
      m.setting.tree.Binds scope name := by
  have hbinds := hlaid.binds _ _ _ hbelongs hlt name
  have hdeclared : m.setting.tree.Binds scope name ↔ name ∈ vars := by
    rw [Tree.Binds, hparams, hvars]
    exact or_iff_right List.not_mem_nil
  rw [Option.isSome_iff_exists]
  constructor
  · rintro ⟨slot, hslot⟩
    exact hdeclared.mpr (Frame.slot?_copy hslot).1
  · intro h
    obtain ⟨slot, hslot⟩ := Option.isSome_iff_exists.mp (hbinds.mpr h)
    obtain ⟨f, hf, hslot⟩ := Option.bind_eq_some_iff.mp hslot
    refine ⟨slot, ?_⟩
    rw [Scopes.frame?, hf]
    exact Frame.slot?_copy_of_mem (hdeclared.mp h) hslot

/-- Every step leaves frames as their scopes ask for. -/
theorem laid_advance (hm : m.Starts) (hs : m.Reaches s) (hrun : advance m.setting s = .running s')
    (hagenda : s.agenda = item :: rest) (h : s.Scoped m) : m.Laid s'.scopes := by
  have hmove := move_of_advance hagenda hrun
  have houtermost := Nat.lt_of_lt_of_le hm.outermost hs.size_le
  cases hmove.change hagenda with
  | still hscopes => exact hscopes ▸ h.laid
  | entered henters harity hmade hnames =>
    have hmade' := made_of_makes hs hrun henters hmade
    refine h.laid.makes houtermost hmade (fun scope outer hbelongs => ?_) fun scope outer hbelongs => ?_
    · obtain ⟨rfl, rfl⟩ := hbelongs.unique (.made hmade')
      rfl
    · obtain ⟨rfl, rfl⟩ := hbelongs.unique (.made hmade')
      exact Tree.isSome_slots harity rfl
  | @copied vars rest' hnext hmade =>
    obtain ⟨rfl, -⟩ := List.cons.inj (hagenda.symm.trans hnext)
    obtain ⟨scope, outer, hbelongs, hparams, hvars⟩ := h.surrounded.copies (hmove.vars_ne_nil hmade) hnext
    have hcopy : m.Belongs s.scopes.frames.size scope outer := .copied (copies_of_makes hs hrun hnext hmade) hbelongs
    refine h.laid.makes houtermost hmade (fun scope' outer' hbelongs' => ?_) fun scope' outer' hbelongs' => ?_
    · obtain ⟨rfl, rfl⟩ := hbelongs'.unique hcopy
      obtain ⟨f, hf, htail⟩ := Option.map_eq_some_iff.mp (h.laid.tail _ _ _ hbelongs h.surrounded.lt_size)
      rw [Scopes.frame?, hf]
      exact htail
    · obtain ⟨rfl, rfl⟩ := hbelongs'.unique hcopy
      exact isSome_copy h.laid h.surrounded.lt_size hbelongs hparams hvars
  | @assigned name node rest' frame slot v hnext howner hslot hvalue hmutability hscopes =>
    rw [hscopes]
    refine h.laid.writes ?_ _ _
    -- What every program finds cannot be assigned to.
    rintro rfl
    rw [Scopes.slot?_eq_own? howner, h.laid.found] at hslot
    rw [(hm.fixed name slot hslot).2] at hmutability
    cases hmutability
  | @declared name node rest' frame v hnext howner hscopes =>
    obtain ⟨scope, outer, kind, hbelongs, -⟩ := h.surrounded.declares hnext
    obtain ⟨slot, hslot⟩ := h.own?_of_declare hnext
    obtain rfl : frame = s.env.frame := Option.some.inj (howner.symm.trans (Scopes.owner?_of_own? hslot))
    rw [hscopes]
    exact h.laid.writes (hm.ne_of_belongs hbelongs) _ _

theorem scoped_advance (hplace : m.setting.tree.DeclaresInPlace) (hheads : m.setting.tree.HeadsDeclareVariables)
    (hkeeps : ∀ size, m.setting.Keeps (m.ClosedOver size)) (hm : m.Starts) (hs : m.Reaches s)
    (hrun : advance m.setting s = .running s') (hagenda : s.agenda = item :: rest) (htidy : rest.Tidy)
    (h : s.Scoped m) : s'.Scoped m := by
  refine ⟨surrounded_advance hplace hheads hkeeps hs hrun hagenda htidy h.surrounded,
    laid_advance hm hs hrun hagenda h, ?_⟩
  refine (move_of_advance hagenda hrun).founded hplace hheads hagenda htidy ?_ h.founded
  rintro name node rfl
  exact h.own?_of_declare hagenda

/-! ## 3. Their values -/

/-- The declaration is among the first `n` items that are carried out, in the frame or in that of the loop that it is a
copy of. -/
inductive CarriedOut (m : Machine σ) (n : Nat) (id : NodeId) : Nat → Prop where
  | here {j : Nat} {r : State} {name : Name} {rest : Agenda} (hj : j < n) (hr : travel m.setting j m.state = .running r)
      (hnext : r.agenda = .instr (.declare name id) :: rest) : CarriedOut m n id r.env.frame
  | copied {frame source : Nat} (hcopies : m.Copies frame source) (h : CarriedOut m n id source) :
    CarriedOut m n id frame

/-- A variable of the frame has no value just as long as its declaration has not been carried out. -/
structure Accounts (m : Machine σ) (n : Nat) (scopes : Scopes) (frame : Nat) (name : Name) : Prop where
  lacks : scopes.Lacks frame name → ∀ scope outer, m.Belongs frame scope outer →
    name ∉ m.setting.tree.parameters scope ∧
    ∀ id kind, (id, name, kind) ∈ m.setting.tree.declared scope → ¬m.CarriedOut n id frame
  holds : scopes.Holds frame name → ∀ scope outer, m.Belongs frame scope outer →
    name ∈ m.setting.tree.parameters scope ∨
    ∃ id kind, (id, name, kind) ∈ m.setting.tree.declared scope ∧ m.CarriedOut n id frame
  copies : ∀ source, m.Copies frame source → ¬scopes.Lacks frame name

theorem CarriedOut.mono {k : Nat} (hle : n ≤ k) (h : m.CarriedOut n id frame) : m.CarriedOut k id frame := by
  induction h with
  | here hj hr hnext => exact .here (Nat.lt_of_lt_of_le hj hle) hr hnext
  | copied hcopies h ih => exact .copied hcopies ih

/-- What is new about a declaration at the next step, if anything is, is that it is carried out now. -/
theorem CarriedOut.before (hn : travel m.setting n m.state = .running s) (h : m.CarriedOut (n + 1) id frame)
    (hcopies : ∀ source, ¬m.Copies frame source) :
    m.CarriedOut n id frame ∨ ∃ name rest, s.agenda = .instr (.declare name id) :: rest ∧ s.env.frame = frame := by
  cases h with
  | @here j r name rest hj hr hnext =>
    obtain hlt | rfl := Nat.lt_succ_iff_lt_or_eq.mp hj
    · exact .inl (.here hlt hr hnext)
    · cases hn.symm.trans hr
      exact .inr ⟨name, rest, hnext, rfl⟩
  | copied h _ => exact absurd h (hcopies _)

theorem accounts_of_none {scopes : Scopes} (h : scopes.own? frame name = none) : m.Accounts n scopes frame name := by
  have hlacks : ¬scopes.Lacks frame name := by
    rintro ⟨mutability, hslot⟩
    cases h.symm.trans hslot
  refine ⟨fun h => absurd h hlacks, ?_, fun _ _ => hlacks⟩
  rintro ⟨slot, hslot, -⟩
  cases h.symm.trans hslot

/-- Where a frame has been before, a variable that has no value has had none. -/
theorem Change.lacks {p : Setting} (h : Change p s s') (hlt : frame < s.scopes.frames.size)
    (hlacks : s'.scopes.Lacks frame name) : s.scopes.Lacks frame name := by
  have made : ∀ {f : Frame}, s.Makes f s' → s.scopes.Lacks frame name := by
    rintro f hmade
    obtain ⟨mutability, hslot⟩ := hlacks
    rw [hmade.own?, if_neg (Nat.ne_of_lt hlt)] at hslot
    exact ⟨mutability, hslot⟩
  have written : ∀ {frame' : Nat} {name' : Name} {v : Value},
      s'.scopes = s.scopes.modifySlot frame' name' (fun slot => { slot with value := some v }) →
      s.scopes.Lacks frame name := by
    rintro frame' name' v hscopes
    obtain ⟨mutability, hslot⟩ := hlacks
    rw [hscopes, Scopes.own?_modifySlot] at hslot
    split at hslot
    · obtain ⟨slot, -, heq⟩ := Option.map_eq_some_iff.mp hslot
      cases heq
    · exact ⟨mutability, hslot⟩
  cases h with
  | still hscopes => exact hscopes ▸ hlacks
  | entered henters harity hmade hnames => exact made hmade
  | copied hnext hmade => exact made hmade
  | assigned hnext howner hslot hvalue hmutability hscopes => exact written hscopes
  | declared hnext howner hscopes => exact written hscopes

/-- Where a frame has been before, a variable that has a value has had one, or it is declared now. -/
theorem Change.held {p : Setting} (h : Change p s s') (hlt : frame < s.scopes.frames.size)
    (hholds : s'.scopes.Holds frame name) : s.scopes.Holds frame name ∨
      ∃ id rest, s.agenda = .instr (.declare name id) :: rest ∧ s.scopes.owner? s.env name = some frame := by
  obtain ⟨slot, hslot, hvalue⟩ := hholds
  have made : ∀ {f : Frame}, s.Makes f s' → s.scopes.Holds frame name := by
    rintro f hmade
    rw [hmade.own?, if_neg (Nat.ne_of_lt hlt)] at hslot
    exact ⟨slot, hslot, hvalue⟩
  cases h with
  | still hscopes => exact .inl ⟨slot, hscopes ▸ hslot, hvalue⟩
  | entered henters harity hmade hnames => exact .inl (made hmade)
  | copied hnext hmade => exact .inl (made hmade)
  | assigned hnext howner hslot' hvalue' hmutability hscopes =>
    rw [hscopes, Scopes.own?_modifySlot] at hslot
    split at hslot
    next hsame =>
      obtain ⟨rfl, rfl⟩ := hsame
      exact .inl ⟨_, (Scopes.slot?_eq_own? howner).symm.trans hslot', hvalue'⟩
    next => exact .inl ⟨slot, hslot, hvalue⟩
  | declared hnext howner hscopes =>
    rw [hscopes, Scopes.own?_modifySlot] at hslot
    split at hslot
    next hsame =>
      obtain ⟨rfl, rfl⟩ := hsame
      exact .inr ⟨_, _, hnext, howner⟩
    next => exact .inl ⟨slot, hslot, hvalue⟩

section

variable (hrun : advance m.setting s = .running s') (hagenda : s.agenda = item :: rest) (h : s.Scoped m)
include hrun hagenda h

/-- A variable that is declared has its value. -/
theorem holds_of_declare (hnext : item = .instr (.declare name id)) : s'.scopes.Holds s.env.frame name := by
  subst hnext
  obtain ⟨slot, hslot⟩ := h.own?_of_declare hagenda
  cases move_of_advance hagenda hrun with
  | @declare _ _ frame v _ howner hagenda' henv hcalls hsnapshots hscopes =>
    obtain rfl : frame = s.env.frame := Option.some.inj (howner.symm.trans (Scopes.owner?_of_own? hslot))
    refine ⟨{ slot with value := some v }, ?_, rfl⟩
    rw [hscopes, Scopes.own?_modifySlot, if_pos ⟨rfl, rfl⟩, hslot]
    rfl
  | instr hplain hoffered hagenda' hstill => cases hplain
  | reached htarget hsearch hagenda' hstash hstill => cases htarget
  | stopped htarget hsearch hagenda' hstash hstill => cases htarget

/-- The account of a frame that has been there before. -/
theorem Accounts.kept (hn : travel m.setting n m.state = .running s) (hlt : frame < s.scopes.frames.size)
    (hbefore : m.Accounts n s.scopes frame name) :
    m.Accounts (n + 1) s'.scopes frame name := by
  have hchange := (move_of_advance hagenda hrun).change hagenda
  refine ⟨fun hlacks scope outer hbelongs => ?_, fun hholds scope outer hbelongs => ?_, fun source hcopies hlacks => ?_⟩
  · have hlacked := hchange.lacks hlt hlacks
    obtain ⟨hparams, hnone⟩ := hbefore.lacks hlacked scope outer hbelongs
    refine ⟨hparams, fun id kind hdeclared hcarried => ?_⟩
    obtain hcarried | ⟨name', rest', hnext, rfl⟩ := hcarried.before hn fun source hcopies =>
      hbefore.copies source hcopies hlacked
    · exact hnone id kind hdeclared hcarried
    · -- It is carried out now; but then the variable has a value.
      obtain ⟨scope', outer', kind', hbelongs', hdeclared'⟩ := h.surrounded.declares hnext
      obtain rfl := Tree.declared_inj hdeclared hdeclared'
      obtain ⟨rfl, rfl⟩ := List.cons.inj (hagenda.symm.trans hnext)
      exact hlacks.not_holds (holds_of_declare hrun hagenda h rfl)
  · obtain hheld | ⟨id, rest', hnext, howner⟩ := hchange.held hlt hholds
    · refine (hbefore.holds hheld scope outer hbelongs).imp_right ?_
      rintro ⟨id, kind, hdeclared, hcarried⟩
      exact ⟨id, kind, hdeclared, hcarried.mono (Nat.le_succ n)⟩
    · obtain ⟨slot, hslot⟩ := h.own?_of_declare hnext
      obtain rfl : frame = s.env.frame := Option.some.inj (howner.symm.trans (Scopes.owner?_of_own? hslot))
      obtain ⟨scope', outer', kind, hbelongs', hdeclared⟩ := h.surrounded.declares hnext
      obtain ⟨rfl, -⟩ := hbelongs.unique hbelongs'
      exact .inr ⟨id, kind, hdeclared, .here (Nat.lt_succ_self n) hn hnext⟩
  · exact hbefore.copies source hcopies (hchange.lacks hlt hlacks)

end

/-- No declaration has been carried out in a frame that has just been made for a scope. -/
theorem not_carriedOut_of_made (hn : travel m.setting n m.state = .running s)
    (hall : ∀ r, m.Reaches r → r.env.frame < r.scopes.frames.size) {scope : NodeId} {outer : Env}
    (hmade : m.Made s.scopes.frames.size scope outer) : ¬m.CarriedOut (n + 1) id s.scopes.frames.size := by
  suffices hnone : ∀ frame, m.CarriedOut (n + 1) id frame → frame ≠ s.scopes.frames.size from fun h => hnone _ h rfl
  rintro frame h heq
  cases h with
  | @here j r name rest hj hr hnext =>
    obtain ⟨d, rfl⟩ := Nat.exists_eq_add_of_le (Nat.le_of_lt_succ hj)
    have hbetween : travel m.setting d r = .running s := (travelBy_add d hr).symm.trans hn
    have hlt := Nat.lt_of_lt_of_le (hall r (reaches_iff.mpr ⟨j, hr⟩)) (size_le_of_travel hbetween)
    exact Nat.ne_of_lt hlt heq
  | copied hcopies h =>
    subst heq
    exact hmade.not_copies hcopies

/-- The account of a frame that has just been made for a scope. -/
theorem accounts_entered (hn : travel m.setting n m.state = .running s)
    (hall : ∀ r, m.Reaches r → r.env.frame < r.scopes.frames.size) {scope : NodeId} {outer : Env} {args : List Value}
    {f : Frame} (hmade : s.Makes f s') (hframe : m.Made s.scopes.frames.size scope outer)
    (hhead : f.head = m.setting.tree.slots scope args)
    (harity : (m.setting.tree.parameters scope).length = args.length)
    (hnames : ((m.setting.tree.slots scope args).map Prod.fst).Nodup) (name : Name) :
    m.Accounts (n + 1) s'.scopes s.scopes.frames.size name := by
  have read : ∀ {slot : Slot}, s'.scopes.own? s.scopes.frames.size name = some slot →
      (name, slot) ∈ m.setting.tree.slots scope args := by
    intro slot hslot
    rw [hmade.own?, if_pos rfl] at hslot
    exact hhead ▸ Frame.mem_head_of_slot? hslot
  refine ⟨?_, ?_, fun source hcopies => absurd hcopies hframe.not_copies⟩
  · rintro ⟨mutability, hslot⟩ scope' outer' hbelongs
    obtain ⟨rfl, -⟩ := hbelongs.unique (.made hframe)
    refine ⟨?_, fun id kind _ => not_carriedOut_of_made hn hall hframe⟩
    obtain ⟨d, hdeclared, heq⟩ | ⟨v, -, heq⟩ := Tree.mem_slots (read hslot)
    · cases heq
      exact Tree.not_mem_parameters harity hnames hdeclared
    · cases heq
  · rintro ⟨slot, hslot, hvalue⟩ scope' outer' hbelongs
    obtain ⟨rfl, -⟩ := hbelongs.unique (.made hframe)
    obtain ⟨d, hdeclared, heq⟩ | ⟨v, hparameter, heq⟩ := Tree.mem_slots (read hslot)
    · cases heq
      cases hvalue
    · exact .inl hparameter

/-- The account of a copy. -/
theorem accounts_copied (hs : m.Reaches s) (hrun : advance m.setting s = .running s')
    (hagenda : s.agenda = .instr (.freshTrip vars) :: rest)
    (hmade : s.Makes (((s.scopes.frame? s.env).getD default).copy vars) s') (h : s.Scoped m)
    (hbefore : m.Accounts n s.scopes s.env.frame name) : m.Accounts (n + 1) s'.scopes s.scopes.frames.size name := by
  have hcopies := copies_of_makes hs hrun hagenda hmade
  have hnow := h.founded.now
  rw [hagenda] at hnow
  have read : ∀ {slot : Slot}, s'.scopes.own? s.scopes.frames.size name = some slot →
      name ∈ vars ∧ s.scopes.own? s.env.frame name = some slot := by
    intro slot hslot
    rw [hmade.own?, if_pos rfl] at hslot
    obtain ⟨hname, hslot⟩ := Frame.slot?_copy hslot
    obtain ⟨slot', hslot', -⟩ := holds_of_copied hnow name hname
    obtain ⟨f, hf, -⟩ := Option.bind_eq_some_iff.mp hslot'
    rw [Scopes.frame?, hf] at hslot
    exact ⟨hname, by rw [Scopes.own?, hf]; exact hslot⟩
  have hvalues : ¬s'.scopes.Lacks s.scopes.frames.size name := by
    rintro ⟨mutability, hslot⟩
    obtain ⟨hname, hslot⟩ := read hslot
    exact Scopes.Lacks.not_holds ⟨mutability, hslot⟩ (holds_of_copied hnow name hname)
  refine ⟨fun hlacks => absurd hlacks hvalues, ?_, fun _ _ => hvalues⟩
  rintro ⟨slot, hslot, hvalue⟩ scope outer hbelongs
  have hsource : ∃ scope' outer', m.Belongs s.env.frame scope' outer' := by
    cases hbelongs with
    | made hframe => exact absurd hcopies hframe.not_copies
    | copied hcopies' h => exact ⟨scope, outer, hcopies.unique hcopies' ▸ h⟩
  obtain ⟨scope', outer', hsource⟩ := hsource
  obtain ⟨rfl, -⟩ := hbelongs.unique (.copied hcopies hsource)
  refine (hbefore.holds ⟨slot, (read hslot).2, hvalue⟩ scope outer' hsource).imp_right ?_
  rintro ⟨id, kind, hdeclared, hcarried⟩
  exact ⟨id, kind, hdeclared, .copied hcopies (hcarried.mono (Nat.le_succ n))⟩

/-- Each step keeps the accounts of all variables. -/
theorem accounts_advance (hn : travel m.setting n m.state = .running s) (hrun : advance m.setting s = .running s')
    (hagenda : s.agenda = item :: rest) (hall : ∀ r, m.Reaches r → r.Scoped m)
    (hbefore : ∀ frame name, m.Accounts n s.scopes frame name) (frame : Nat) (name : Name) :
    m.Accounts (n + 1) s'.scopes frame name := by
  have hs : m.Reaches s := reaches_iff.mpr ⟨n, hn⟩
  by_cases hlt : frame < s.scopes.frames.size
  · exact Accounts.kept hrun hagenda (hall s hs) hn hlt (hbefore frame name)
  have hnone : s.scopes.own? frame name = none := Scopes.own?_eq_none (Nat.le_of_not_lt hlt) name
  have made : ∀ {f : Frame}, s.Makes f s' → m.Accounts (n + 1) s'.scopes s.scopes.frames.size name →
      m.Accounts (n + 1) s'.scopes frame name := by
    intro f hmade hnew
    by_cases hframe : frame = s.scopes.frames.size
    · exact hframe ▸ hnew
    · exact accounts_of_none (by rw [hmade.own?, if_neg hframe, hnone])
  have written : ∀ {frame' : Nat} {name' : Name} {g : Slot → Slot}, s'.scopes = s.scopes.modifySlot frame' name' g →
      m.Accounts (n + 1) s'.scopes frame name := by
    intro frame' name' g hscopes
    refine accounts_of_none (Option.not_isSome_iff_eq_none.mp (Bool.eq_false_iff.mp ?_))
    rw [hscopes, Scopes.isSome_own?_modifySlot, hnone]
    rfl
  cases (move_of_advance hagenda hrun).change hagenda with
  | still hscopes => exact accounts_of_none (hscopes ▸ hnone)
  | entered henters harity hmade hnames =>
    exact made hmade (accounts_entered hn (fun r hr => (hall r hr).surrounded.lt_size) hmade
      (made_of_makes hs hrun henters hmade) rfl harity hnames name)
  | copied hnext hmade => exact made hmade (accounts_copied hs hrun hnext hmade (hall s hs) (hbefore _ name))
  | assigned hnext howner hslot hvalue hmutability hscopes => exact written hscopes
  | declared hnext howner hscopes => exact written hscopes

end Machine

end ExplicitControl
