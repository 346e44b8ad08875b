import ExplicitControl.Proofs.TailCalls

/-!
# The variables of a frame

A frame gets all its variables when it is made: those that its scope declares, without values, and the parameters
of a call, with theirs; or it is the copy of a loop's frame, for one more trip.  From then on a step only writes
values, one at a time.  Here are the readings of a variable in each of these situations, and the one account of
what a step does to frames, which says for which scope of the tree a frame has been made.
-/

namespace ExplicitControl

/-! ## 1. Reading one variable -/

theorem Frame.slot?_modifySlot (f : Frame) (name name' : Name) (g : Slot → Slot) :
    (f.modifySlot name g).slot? name' = if name' = name then (f.slot? name').map g else f.slot? name' := by
  obtain ⟨label, head, tail, site, receiver⟩ := f
  show List.lookup name' (head.map fun entry => if entry.1 = name then (entry.1, g entry.2) else entry) =
    if name' = name then (List.lookup name' head).map g else List.lookup name' head
  induction head with
  | nil => simp
  | cons entry head ih =>
    obtain ⟨key, slot⟩ := entry
    by_cases hkey : name' = key
    · subst hkey
      by_cases hname : name' = name <;> simp [hname]
    · have hne : (name' == key) = false := beq_false_of_ne hkey
      by_cases hname : key = name
      · simp only [List.map_cons, hname, if_true, List.lookup_cons]
        rw [← hname, hne]
        simpa [hname] using ih
      · simp only [List.map_cons, if_neg hname, List.lookup_cons, hne]
        exact ih

/-- A name of distinct ones is looked up with what stands beside it. -/
theorem lookup_of_mem {α β : Type} [BEq α] [LawfulBEq α] {l : List (α × β)} {a : α} {b : β}
    (hnames : (l.map Prod.fst).Nodup) (h : (a, b) ∈ l) : l.lookup a = some b := by
  induction l with
  | nil => cases h
  | cons entry l ih =>
    obtain ⟨key, value⟩ := entry
    obtain ⟨hnew, hnames⟩ := List.nodup_cons.mp hnames
    obtain h | h := List.mem_cons.mp h
    · cases h
      exact List.lookup_cons_self
    · have hne : (a == key) = false := beq_false_of_ne fun heq => hnew (List.mem_map.mpr ⟨(a, b), h, heq⟩)
      rw [List.lookup_cons, hne]
      exact ih hnames h

namespace Scopes

def own? (s : Scopes) (frame : Nat) (name : Name) : Option Slot :=
  s.frames[frame]?.bind fun f => f.slot? name

variable {s : Scopes} {frame : Nat} {name : Name} {slot : Slot}

theorem own?_push (fs : Array Frame) (f : Frame) (frame : Nat) (name : Name) :
    own? ⟨fs.push f⟩ frame name = if frame = fs.size then f.slot? name else own? ⟨fs⟩ frame name := by
  unfold own?
  rw [Array.getElem?_push]
  split <;> rfl

theorem own?_modifySlot (s : Scopes) (frame frame' : Nat) (name name' : Name) (g : Slot → Slot) :
    (s.modifySlot frame name g).own? frame' name' =
      if frame' = frame ∧ name' = name then (s.own? frame' name').map g else s.own? frame' name' := by
  unfold own? modifySlot
  dsimp only
  rw [Array.getElem?_modify]
  by_cases hframe : frame = frame'
  · subst hframe
    cases hf : s.frames[frame]? with
    | none => simp
    | some f => simp [Frame.slot?_modifySlot]
  · rw [if_neg hframe, if_neg (fun h => hframe h.1.symm)]

theorem lt_size_of_own? (h : s.own? frame name = some slot) : frame < s.frames.size := by
  obtain ⟨f, hf, -⟩ := Option.bind_eq_some_iff.mp h
  exact (Array.getElem?_eq_some_iff.mp hf).1

/-- In the frame that declares it, a name means the variable of this frame. -/
theorem owner?_of_own? {env : Env} (h : s.own? env.frame name = some slot) : s.owner? env name = some env.frame := by
  obtain ⟨f, hf, hslot⟩ := Option.bind_eq_some_iff.mp h
  unfold owner? find? findUpTo
  rw [hf]
  dsimp only
  rw [if_pos (by rw [hslot]; rfl)]

/-- The variable that a name means is one of the frame that owns it. -/
theorem slot?_eq_own? {env : Env} (h : s.owner? env name = some frame) : s.slot? env name = s.own? frame name := by
  unfold slot? own?
  rw [h]
  rfl

def Lacks (s : Scopes) (frame : Nat) (name : Name) : Prop :=
  ∃ mutability, s.own? frame name = some ⟨none, mutability⟩

def Holds (s : Scopes) (frame : Nat) (name : Name) : Prop :=
  ∃ slot, s.own? frame name = some slot ∧ slot.value.isSome = true

theorem Lacks.not_holds (h : s.Lacks frame name) : ¬s.Holds frame name := by
  obtain ⟨mutability, hslot⟩ := h
  rintro ⟨slot, hslot', hvalue⟩
  cases hslot.symm.trans hslot'
  cases hvalue

end Scopes

/-! ## 2. The scopes of a tree -/

def Tree.declared (t : Tree) (scope : NodeId) : List (NodeId × Name × DeclKind) :=
  match t.kind? scope with
  | some (.function _ _ body) => t.bodyDeclarations body
  | some kind => t.opened kind
  | none => []

def Tree.parameters (t : Tree) (scope : NodeId) : List Name :=
  match t.kind? scope with
  | some (.function _ params _) => params
  | _ => []

def Tree.slots (t : Tree) (scope : NodeId) (args : List Value) : List (Name × Slot) :=
  (declaredSlots (t.declared scope)).reverse ++ (parameterSlots (t.parameters scope) args).reverse

variable {t : Tree} {scope : NodeId} {args : List Value}

/-- The head of a `for` declares one variable, if it declares any. -/
theorem Tree.exists_head {init : Option NodeId} (h : t.headDeclarations init ≠ []) :
    ∃ id kind name value, init = some id ∧ t.kind? id = some (.declaration kind name value) ∧
      t.headDeclarations init = [(id, name, kind)] := by
  cases init with
  | none => exact absurd rfl h
  | some id =>
    suffices hkind : ∃ kind name value, t.kind? id = some (.declaration kind name value) by
      obtain ⟨kind, name, value, hkind⟩ := hkind
      exact ⟨id, kind, name, value, rfl, hkind, by simp [headDeclarations, hkind]⟩
    by_contra hnone
    refine h (List.filterMap_eq_nil_iff.mpr fun c hc => ?_)
    obtain rfl := List.mem_singleton.mp hc
    split
    next kind name value hkind => exact absurd ⟨kind, name, value, hkind⟩ hnone
    next => rfl

theorem Tree.declared_of_opened {kind : NodeKind} (hkind : t.kind? scope = some kind) (hopened : t.opened kind ≠ []) :
    t.declared scope = t.opened kind ∧ t.parameters scope = [] := by
  unfold declared parameters
  rw [hkind]
  cases kind <;> first | exact ⟨rfl, rfl⟩ | exact absurd rfl hopened

theorem Tree.declared_of_function {name : Option Name} {params : List Name} {code : FunctionBody}
    (hkind : t.kind? scope = some (.function name params code)) :
    t.declared scope = t.bodyDeclarations code ∧ t.parameters scope = params := by
  unfold declared parameters
  rw [hkind]
  exact ⟨rfl, rfl⟩

theorem Tree.slots_of_opened {kind : NodeKind} (hkind : t.kind? scope = some kind) (hopened : t.opened kind ≠ []) :
    t.slots scope [] = (declaredSlots (t.opened kind)).reverse := by
  obtain ⟨hdeclared, hparams⟩ := declared_of_opened hkind hopened
  rw [slots, hdeclared, hparams]
  exact List.append_nil _

theorem Tree.slots_of_function {name : Option Name} {params : List Name} {code : FunctionBody}
    (hkind : t.kind? scope = some (.function name params code)) (args : List Value) :
    t.slots scope args = (declaredSlots (t.bodyDeclarations code)).reverse ++ (parameterSlots params args).reverse := by
  obtain ⟨hdeclared, hparams⟩ := declared_of_function hkind
  rw [slots, hdeclared, hparams]

theorem Tree.mem_slots {entry : Name × Slot} (h : entry ∈ t.slots scope args) :
    (∃ d ∈ t.declared scope, entry = (d.2.1, ⟨none, d.2.2.mutability⟩)) ∨
      ∃ v, entry.1 ∈ t.parameters scope ∧ entry.2 = ⟨some v, .assignable⟩ := by
  obtain h | h := List.mem_append.mp h
  · obtain ⟨d, hd, rfl⟩ := List.mem_map.mp (List.mem_reverse.mp h)
    exact .inl ⟨d, hd, rfl⟩
  · obtain ⟨pair, hpair, rfl⟩ := List.mem_map.mp (List.mem_reverse.mp h)
    exact .inr ⟨pair.2, (List.of_mem_zip hpair).1, rfl⟩

theorem Tree.mem_slots_of_declared {d : NodeId × Name × DeclKind} (h : d ∈ t.declared scope) (args : List Value) :
    (d.2.1, ⟨none, d.2.2.mutability⟩) ∈ t.slots scope args :=
  List.mem_append_left _ (List.mem_reverse.mpr (List.mem_map_of_mem h))

theorem Tree.map_fst_slots (harity : (t.parameters scope).length = args.length) :
    (t.slots scope args).map Prod.fst =
      ((t.declared scope).map fun d => d.2.1).reverse ++ (t.parameters scope).reverse := by
  rw [slots, List.map_append, List.map_reverse, List.map_reverse, declaredSlots, List.map_map, parameterSlots,
    List.map_map]
  refine congrArg _ (congrArg List.reverse ?_)
  exact List.map_fst_zip (Nat.le_of_eq harity)

theorem Tree.not_mem_parameters (harity : (t.parameters scope).length = args.length)
    (hnames : ((t.slots scope args).map Prod.fst).Nodup) {d : NodeId × Name × DeclKind} (h : d ∈ t.declared scope) :
    d.2.1 ∉ t.parameters scope := by
  rw [map_fst_slots harity, List.nodup_append'] at hnames
  exact fun hparameter => hnames.2.2 (List.mem_reverse.mpr (List.mem_map_of_mem h)) (List.mem_reverse.mpr hparameter)

namespace Frame

variable {f : Frame} {name : Name} {slot : Slot}

theorem mem_head_of_slot? (h : f.slot? name = some slot) : (name, slot) ∈ f.head := by
  obtain ⟨before, behind, heq, -⟩ := List.lookup_eq_some_iff.mp h
  rw [heq]
  exact List.mem_append_right _ List.mem_cons_self

/-- The copy of a frame has the variables that are copied. -/
theorem slot?_copy {vars : List Name} (h : (f.copy vars).slot? name = some slot) :
    name ∈ vars ∧ f.slot? name = some slot := by
  obtain ⟨name', hname', hslot⟩ := List.mem_filterMap.mp (mem_head_of_slot? h)
  obtain ⟨slot', hslot', heq⟩ := Option.map_eq_some_iff.mp hslot
  cases heq
  exact ⟨hname', hslot'⟩

theorem slot?_copy_of_mem {vars : List Name} (hname : name ∈ vars) (h : f.slot? name = some slot) :
    (f.copy vars).slot? name = some slot := by
  have hmem : (name, slot) ∈ (f.copy vars).head := List.mem_filterMap.mpr ⟨name, hname, by rw [h]; rfl⟩
  cases hslot : (f.copy vars).slot? name with
  | none => exact absurd (List.mem_map_of_mem hmem) (slot?_eq_none.mp hslot)
  | some slot' => exact (slot?_copy hslot).2.symm.trans h

end Frame

/-! ## 3. Reading behind a step -/

namespace State.Makes

variable {s s' : State} {f : Frame}

theorem own? (h : s.Makes f s') (frame : Nat) (name : Name) :
    s'.scopes.own? frame name = if frame = s.scopes.frames.size then f.slot? name else s.scopes.own? frame name := by
  have hscopes : s'.scopes = ⟨s.scopes.frames.push f⟩ := congrArg Scopes.mk h.frames
  rw [hscopes]
  exact Scopes.own?_push _ f frame name

theorem own?_of_some (h : s.Makes f s') {frame : Nat} {name : Name} {slot : Slot}
    (hslot : s.scopes.own? frame name = some slot) : s'.scopes.own? frame name = some slot := by
  rw [h.own?, if_neg (Nat.ne_of_lt (Scopes.lt_size_of_own? hslot)), hslot]

theorem holds (h : s.Makes f s') {frame : Nat} {name : Name} (hholds : s.scopes.Holds frame name) :
    s'.scopes.Holds frame name := by
  obtain ⟨slot, hslot, hvalue⟩ := hholds
  exact ⟨slot, h.own?_of_some hslot, hvalue⟩

/-- A copy of the current frame has the values that are copied. -/
theorem holds_copy {vars : List Name} {name : Name} (h : s.Makes (((s.scopes.frame? s.env).getD default).copy vars) s')
    (hname : name ∈ vars) (hholds : s.scopes.Holds s.env.frame name) : s'.scopes.Holds s'.env.frame name := by
  obtain ⟨slot, hslot, hvalue⟩ := hholds
  obtain ⟨f, hf, hslot⟩ := Option.bind_eq_some_iff.mp hslot
  refine ⟨slot, ?_, hvalue⟩
  rw [h.own?, if_pos h.env, Scopes.frame?, hf]
  exact Frame.slot?_copy_of_mem hname hslot

theorem lacks (h : s.Makes f s') {frame : Nat} {name : Name} (hlacks : s.scopes.Lacks frame name) :
    s'.scopes.Lacks frame name := by
  obtain ⟨mutability, hslot⟩ := hlacks
  exact ⟨mutability, h.own?_of_some hslot⟩

end State.Makes

namespace Scopes

variable {s : Scopes} {frame frame' : Nat} {name name' : Name} {v : Value}

/-- A value has been written. -/
theorem holds_modifySlot (h : s.Holds frame' name') :
    (s.modifySlot frame name fun slot => { slot with value := some v }).Holds frame' name' := by
  obtain ⟨slot, hslot, hvalue⟩ := h
  unfold Holds
  rw [own?_modifySlot, hslot]
  split
  · exact ⟨_, rfl, rfl⟩
  · exact ⟨_, rfl, hvalue⟩

theorem lacks_modifySlot (h : s.Lacks frame' name') (hother : ¬(frame' = frame ∧ name' = name)) (g : Slot → Slot) :
    (s.modifySlot frame name g).Lacks frame' name' := by
  obtain ⟨mutability, hslot⟩ := h
  exact ⟨mutability, by rw [own?_modifySlot, if_neg hother, hslot]⟩

end Scopes

/-! ## 4. Which scope a frame belongs to -/

/-- The next step enters a scope of the tree, which is inside of the environment: it evaluates the node, or
applies the function. -/
inductive State.Enters (s : State) : NodeId → Env → Prop where
  | node {id : NodeId} {rest : Agenda} (h : s.agenda = .node id :: rest) : s.Enters id s.env
  | call {f : Closure} (h : s.Applies f) : s.Enters f.node f.env

/-- The frame has been made when a scope of the tree was entered inside of the environment. -/
inductive Machine.Made {σ : Type} (m : Machine σ) (frame : Nat) (scope : NodeId) (outer : Env) : Prop where
  | intro {s s' : State} (hreached : m.Reaches s) (hrun : Machine.advance m.setting s = .running s')
      (henters : s.Enters scope outer) (hbefore : s.scopes.frames.size = frame)
      (hafter : s'.scopes.frames.size = frame + 1)

namespace Machine

variable {p : Setting} {s s' : State}

inductive Change (p : Setting) (s s' : State) : Prop where
  | still (hscopes : s'.scopes = s.scopes) (hnumber : s'.nextEnvId = s.nextEnvId)
  | entered {scope : NodeId} {outer : Env} {args : List Value} {name : String} {site : Option NodeId}
      {receiver : Option Value} (henters : s.Enters scope outer)
      (harity : (p.tree.parameters scope).length = args.length)
      (hmade : s.Makes ⟨name, p.tree.slots scope args, some outer, site, receiver⟩ s')
      (hnames : ((p.tree.slots scope args).map Prod.fst).Nodup)
  | copied {vars : List Name} {rest : Agenda} (hnext : s.agenda = .instr (.freshTrip vars) :: rest)
      (hmade : s.Makes (((s.scopes.frame? s.env).getD default).copy vars) s')
  | assigned {name : Name} {node : NodeId} {rest : Agenda} {frame : Nat} {slot : Slot} {v : Value}
      (hnext : s.agenda = .instr (.assign name node) :: rest) (howner : s.scopes.owner? s.env name = some frame)
      (hslot : s.scopes.slot? s.env name = some slot) (hvalue : slot.value.isSome = true)
      (hmutability : slot.mutability = .assignable)
      (hscopes : s'.scopes = s.scopes.modifySlot frame name fun slot => { slot with value := some v })
      (hnumber : s'.nextEnvId = s.nextEnvId)
  | declared {name : Name} {node : NodeId} {rest : Agenda} {frame : Nat} {v : Value}
      (hnext : s.agenda = .instr (.declare name node) :: rest) (howner : s.scopes.owner? s.env name = some frame)
      (hscopes : s'.scopes = s.scopes.modifySlot frame name fun slot => { slot with value := some v })
      (hnumber : s'.nextEnvId = s.nextEnvId)

theorem Call.change {args : List Value} {callee : Value} {s₁ : State} (h : Call p s₁ s' callee args)
    (hscopes : s₁.scopes = s.scopes) (hnext : s₁.nextEnvId = s.nextEnvId)
    (happlies : ∀ f, callee.applied? args = some f → s.Applies f) : Change p s s' := by
  cases h with
  | @enter identity f fname params code frame name node receiver hclosure hkind harity hagenda hstash hcalls
      hsnapshots hmade hnames =>
    subst hclosure
    have hslots := Tree.slots_of_function hkind args
    have hparams := (Tree.declared_of_function hkind).2
    have hmade' : s.Makes ⟨name, p.tree.slots f.node args, some f.env, some node, receiver⟩ s' := by
      rw [hslots]
      exact hmade.congr hscopes hnext
    exact .entered (.call (happlies f rfl)) (by rw [hparams]; exact harity) hmade' (by rw [hslots]; exact hnames)
  | answer hagenda hstash hstill => exact .still (hstill.scopes.trans hscopes) (hstill.next.trans hnext)
  | invoke hcontinuation harity hkept hregisters hscopes' hsnapshots hnext' =>
    exact .still (hscopes'.trans hscopes) (hnext'.trans hnext)

/-- The moves, as far as frames are concerned. -/
theorem Move.change {item : Item} {rest : Agenda} (hagenda : s.agenda = item :: rest)
    (h : Move p { s with agenda := rest } s' item) : Change p s s' := by
  cases h with
  | plain hkind hopened hgoes hagenda' hstill => exact .still hstill.scopes hstill.next
  | @scope id kind name hkind hopened hagenda' hcalls hsnapshots hmade hnames =>
    have hslots := Tree.slots_of_opened hkind hopened
    have hparams := (Tree.declared_of_opened hkind hopened).2
    have hmade' : s.Makes ⟨name, p.tree.slots id [], some s.env, none, none⟩ s' := by
      rw [hslots]
      exact ⟨hmade.handle, hmade.frames, hmade.next⟩
    refine .entered (.node hagenda) (by rw [hparams]; rfl) hmade' ?_
    rw [hslots, List.map_reverse, List.nodup_reverse, declaredSlots, List.map_map]
    exact hnames
  | returned hkind hagenda' hstash hstill => exact .still hstill.scopes hstill.next
  | instr hplain hoffered hagenda' hstill => exact .still hstill.scopes hstill.next
  | assign howner hslot hvalue hmutability hagenda' henv hcalls hsnapshots hscopes hnext =>
    exact .assigned hagenda howner hslot hvalue hmutability hscopes hnext
  | declare howner hagenda' henv hcalls hsnapshots hscopes hnext => exact .declared hagenda howner hscopes hnext
  | freshTrip hvars hagenda' hcalls hsnapshots hmade => exact .copied hagenda ⟨hmade.handle, hmade.frames, hmade.next⟩
  | restore hagenda' hstash henv hcalls hscopes hsnapshots hnext => exact .still hscopes hnext
  | reset hagenda' hstash hstill => exact .still hstill.scopes hstill.next
  | reached htarget hsearch hagenda' hstash hstill => exact .still hstill.scopes hstill.next
  | stopped htarget hsearch hagenda' hstash hstill => exact .still hstill.scopes hstill.next
  | call hoperands houtcome =>
    exact houtcome.change rfl rfl fun f hf => ⟨_, _, _, _, _, _, hagenda, hoperands, hf⟩
  | @callCc callee receiver stash node hoperands houtcome =>
    -- The function is applied to the continuation, by an application to the function.
    refine houtcome.change rfl rfl fun f hf => ⟨[callee], .callCc, receiver, node, rest, stash, hagenda, hoperands, ?_⟩
    cases callee with
    | closure identity g => exact hf
    | _ => cases hf
  | callCcTwice hoperands houtcome => exact houtcome.change rfl rfl fun f hf => by cases hf

theorem Change.size_le (h : Change p s s') : s.scopes.frames.size ≤ s'.scopes.frames.size := by
  have pushed : ∀ {f : Frame}, s.Makes f s' → s.scopes.frames.size ≤ s'.scopes.frames.size := by
    intro f hmade
    rw [hmade.frames, Array.size_push]
    exact Nat.le_succ _
  have written : ∀ {frame : Nat} {name : Name} {g : Slot → Slot}, s'.scopes = s.scopes.modifySlot frame name g →
      s.scopes.frames.size ≤ s'.scopes.frames.size := by
    intro frame name g h
    exact Nat.le_of_eq (by rw [h, Scopes.modifySlot, Array.size_modify])
  cases h with
  | still hscopes => exact Nat.le_of_eq (by rw [hscopes])
  | entered henters harity hmade hnames => exact pushed hmade
  | copied hnext hmade => exact pushed hmade
  | assigned hnext howner hslot hvalue hmutability hscopes => exact written hscopes
  | declared hnext howner hscopes => exact written hscopes

variable {σ : Type} {m : Machine σ} {frame : Nat} {scope : NodeId} {outer : Env}

/-- A frame that is made now belongs to the scope that is entered. -/
theorem made_of_makes (hs : m.Reaches s) (hrun : advance m.setting s = .running s') (henters : s.Enters scope outer)
    {f : Frame} (hmade : s.Makes f s') : m.Made s.scopes.frames.size scope outer :=
  .intro hs hrun henters rfl (by rw [hmade.frames, Array.size_push])

end Machine

end ExplicitControl
