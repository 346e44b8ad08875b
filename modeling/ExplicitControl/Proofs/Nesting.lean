import ExplicitControl.Proofs.Declarations
import ExplicitControl.Proofs.InTree
import ExplicitControl.Proofs.Slots

/-!
# The scopes around a node

Which scopes are around a node is a matter of the tree: a program, a block or the head of a `for` is one if it
declares something, and a function always is.  Here is what it means for pending work to stand in its scopes, with
the end of each scope going back to the scopes of the environment that it brings back, and that this is kept when
work is put in front or dropped.
-/

namespace ExplicitControl

/-! ## 1. Scopes of a tree -/

namespace Tree

def IsChild (t : Tree) (child parent : NodeId) : Prop :=
  ∃ kind, t.kind? parent = some kind ∧ child ∈ kind.children

def SharesNothing (t : Tree) : Prop :=
  (t.nodes.toList.map fun node => node.kind.children).Pairwise List.Disjoint

instance (t : Tree) : Decidable t.SharesNothing :=
  have : DecidableRel (List.Disjoint : List NodeId → List NodeId → Prop) := fun l l' =>
    decidable_of_iff (∀ id ∈ l, id ∉ l') ⟨fun h id hl hl' => h id hl hl', fun h _ hl hl' => h hl hl'⟩
  inferInstanceAs (Decidable (List.Pairwise _ _))

def ProgramsOutside (t : Tree) : Prop :=
  ∀ node ∈ t.nodes.toList, ∀ id ∈ node.kind.children, (t.kind? id).any NodeKind.isProgram = false

instance (t : Tree) : Decidable t.ProgramsOutside :=
  inferInstanceAs (Decidable (∀ node ∈ t.nodes.toList, _))

def isScope (t : Tree) (id : NodeId) : Bool :=
  match t.kind? id with
  | some (.function ..) => true
  | some kind => !(t.opened kind).isEmpty
  | none => false

/-- The scopes around the children of a node, when `scopes` are those around the node. -/
def within (t : Tree) (id : NodeId) (scopes : List NodeId) : List NodeId :=
  if t.isScope id then id :: scopes else scopes

inductive Scoped (t : Tree) : NodeId → List NodeId → Prop where
  | root : Scoped t t.root []
  | child {id child : NodeId} {scopes : List NodeId} (h : Scoped t id scopes) (hchild : t.IsChild child id) :
      Scoped t child (t.within id scopes)

def Binds (t : Tree) (scope : NodeId) (name : Name) : Prop :=
  name ∈ t.parameters scope ∨ name ∈ (t.declared scope).map fun d => d.2.1

instance (t : Tree) (scope : NodeId) (name : Name) : Decidable (t.Binds scope name) :=
  inferInstanceAs (Decidable (_ ∨ _))

def binder? (t : Tree) (scopes : List NodeId) (name : Name) : Option NodeId :=
  scopes.find? fun scope => decide (t.Binds scope name)

variable {t : Tree} {id child : NodeId} {kind : NodeKind} {scopes scopes' : List NodeId}

theorem SharesNothing.unique (ht : t.SharesNothing) {parent parent' : NodeId} (h : t.IsChild child parent)
    (h' : t.IsChild child parent') : parent = parent' := by
  obtain ⟨kind, hkind, hchild⟩ := h
  obtain ⟨kind', hkind', hchild'⟩ := h'
  obtain ⟨node, hnode, rfl⟩ := Option.map_eq_some_iff.mp hkind
  obtain ⟨node', hnode', rfl⟩ := Option.map_eq_some_iff.mp hkind'
  obtain ⟨hlt, hget⟩ := Array.getElem?_eq_some_iff.mp hnode
  obtain ⟨hlt', hget'⟩ := Array.getElem?_eq_some_iff.mp hnode'
  have hpairwise := List.pairwise_iff_getElem.mp (List.pairwise_map.mp ht)
  -- Two places of the list with a common child are one.
  have apart : ∀ {i j : Nat} (hi : i < t.nodes.size) (hj : j < t.nodes.size), child ∈ t.nodes[i].kind.children →
      child ∈ t.nodes[j].kind.children → ¬i < j := fun hi hj hc hc' hij =>
    hpairwise _ _ (by simpa using hi) (by simpa using hj) hij (by simpa using hc) (by simpa using hc')
  have hindex : parent.index.toNat = parent'.index.toNat := by
    have hc : child ∈ t.nodes[parent.index.toNat].kind.children := by rw [hget]; exact hchild
    have hc' : child ∈ t.nodes[parent'.index.toNat].kind.children := by rw [hget']; exact hchild'
    have hle := apart hlt' hlt hc' hc
    have hge := apart hlt hlt' hc hc'
    omega
  cases parent
  cases parent'
  exact congrArg NodeId.mk (UInt32.toNat_inj.mp hindex)

theorem ProgramsOutside.not_isChild_root (ht : t.ProgramsOutside) : ¬t.IsChild t.root id := by
  rintro ⟨kind, hkind, hchild⟩
  obtain ⟨node, hnode, rfl⟩ := exists_node hkind
  obtain ⟨body, hroot⟩ := t.kind?_root
  have h := ht node hnode t.root hchild
  rw [hroot] at h
  cases h

/-- A node has one list of scopes around it. -/
theorem Scoped.unique (hshares : t.SharesNothing) (hprograms : t.ProgramsOutside) (h : t.Scoped id scopes)
    (h' : t.Scoped id scopes') : scopes = scopes' := by
  induction h generalizing scopes' with
  | root =>
    cases h' with
    | root => rfl
    | child h hchild => exact absurd hchild hprograms.not_isChild_root
  | child h hchild ih =>
    cases h' with
    | root => exact absurd hchild hprograms.not_isChild_root
    | child h' hchild' =>
      obtain rfl := hshares.unique hchild hchild'
      rw [ih h']

theorem isScope_of_opened (hkind : t.kind? id = some kind) (hopened : t.opened kind ≠ []) : t.isScope id = true := by
  unfold isScope
  rw [hkind]
  cases kind <;> first | rfl | exact absurd rfl hopened | simpa using hopened

theorem isScope_of_function {name : Option Name} {params : List Name} {code : FunctionBody}
    (hkind : t.kind? id = some (.function name params code)) : t.isScope id = true := by
  unfold isScope
  rw [hkind]

theorem isScope_of_declared {d : NodeId × Name × DeclKind} (h : d ∈ t.declared id) : t.isScope id = true := by
  unfold declared at h
  split at h
  next hkind => exact isScope_of_function hkind
  next hkind => exact isScope_of_opened (by assumption) (List.ne_nil_of_mem h)
  next => exact absurd h List.not_mem_nil

theorem within_of_plain (hkind : t.kind? id = some kind) (hopened : t.opened kind = [])
    (hfunction : ∀ name params code, kind ≠ .function name params code) (scopes : List NodeId) :
    t.within id scopes = scopes := by
  have hplain : t.isScope id = false := by
    unfold isScope
    rw [hkind]
    cases kind with
    | function name params code => exact absurd rfl (hfunction name params code)
    | _ => simp only [hopened, List.isEmpty_nil, Bool.not_true]
  rw [within, hplain]
  rfl

theorem Scoped.within (h : t.Scoped id scopes) (hkind : t.kind? id = some kind) (hchild : child ∈ kind.children) :
    t.Scoped child (t.within id scopes) :=
  .child h ⟨kind, hkind, hchild⟩

/-- A child of a node without a scope of its own is in the same scopes. -/
theorem Scoped.same (h : t.Scoped id scopes) (hkind : t.kind? id = some kind) (hopened : t.opened kind = [])
    (hfunction : ∀ name params code, kind ≠ .function name params code) (hchild : child ∈ kind.children) :
    t.Scoped child scopes := by
  have hwithin := h.within hkind hchild
  rwa [within_of_plain hkind hopened hfunction] at hwithin

/-- A declaration is one of those that the innermost scope around it makes. -/
theorem Scoped.declared (hplace : t.DeclaresInPlace) (hheads : t.HeadsDeclareVariables) (h : t.Scoped id scopes)
    {d : NodeId × Name × DeclKind} (hd : t.declaration? id = some d) :
    ∃ scope outer, scopes = scope :: outer ∧ d ∈ t.declared scope := by
  have hdeclares : (t.kind? id).any NodeKind.isDeclaration = true := by
    unfold declaration? at hd
    split at hd
    next hkind => rw [hkind]; rfl
    next hkind => rw [hkind]; rfl
    next => cases hd
  cases h with
  | root =>
    obtain ⟨body, hroot⟩ := t.kind?_root
    rw [hroot] at hdeclares
    cases hdeclares
  | @child parent _ outer h hchild =>
    obtain ⟨kind, hkind, hchild⟩ := hchild
    -- What declares is a statement of a list, or the head of a loop, and in both cases the parent is a scope.
    have houter : id ∉ kind.inner := by
      intro hinner
      obtain ⟨node, hnode, rfl⟩ := exists_node hkind
      rw [hplace node hnode id hinner] at hdeclares
      cases hdeclares
    suffices hmem : d ∈ t.declared parent by
      refine ⟨parent, outer, ?_, hmem⟩
      rw [Tree.within, isScope_of_declared hmem]
      rfl
    have listed : ∀ {body : List NodeId}, id ∈ body → d ∈ t.declarations body := fun hbody => by
      rw [declarations_eq]
      exact List.mem_filterMap.mpr ⟨id, hbody, hd⟩
    unfold Tree.declared
    rw [hkind]
    cases kind with
    | program body => exact listed hchild
    | block body => exact listed hchild
    | function name params code =>
      cases code with
      | block body => exact listed hchild
      | expression expr => exact absurd hchild houter
    | forLoop init test update body =>
      have hinit : id ∈ init := by
        simp only [NodeKind.children, NodeKind.inner, List.mem_append, Option.mem_toList, List.mem_singleton]
          at hchild houter
        tauto
      have hvariable : ∃ kind name value, t.kind? id = some (.declaration kind name value) ∧ d = (id, name, kind) := by
        unfold declaration? at hd
        split at hd
        next kind name value hid => exact ⟨kind, name, value, hid, (Option.some.inj hd).symm⟩
        next name function hid => cases hheads.head hkind hinit hid
        next => cases hd
      obtain ⟨kind, name, value, hid, rfl⟩ := hvariable
      refine List.mem_filterMap.mpr ⟨id, Option.mem_toList.mpr hinit, ?_⟩
      rw [hid]
    | _ => exact absurd hchild houter

end Tree

/-! ## 2. Work in its scopes -/

def Item.evaluated : Item → List NodeId
  | .node id => [id]
  | .instr i => i.choices

/-- What an item is about belongs to the scopes that it stands in: the nodes that it evaluates, the variables that
it assigns to, declares and copies.  A value that it pushes belongs to none. -/
structure Item.Nested (t : Tree) (scopes : List NodeId) (item : Item) : Prop where
  evaluated : ∀ id ∈ item.evaluated, t.Scoped id scopes
  assigns : ∀ name id, item = .instr (.assign name id) →
    t.Scoped id scopes ∧ ∃ value, t.kind? id = some (.assignment name value)
  declares : ∀ name id, item = .instr (.declare name id) →
    ∃ scope outer kind, scopes = scope :: outer ∧ (id, name, kind) ∈ t.declared scope
  copies : item.vars ≠ [] → ∃ scope outer, scopes = scope :: outer ∧ t.parameters scope = [] ∧
    item.vars = (t.declared scope).map fun d => d.2.1
  pushes : ∀ v, item = .instr (.push v) → v.isInert = true

/-- Each item stands in its scopes; those of an environment are the ones that `C` says. -/
inductive Agenda.Nested (t : Tree) (C : Env → List NodeId → Prop) : List NodeId → Agenda → Prop where
  | nil {scopes : List NodeId} : Nested t C scopes []
  | restore {scopes scopes' : List NodeId} {env : Env} {closesCall : Bool} {rest : Agenda} (henv : C env scopes')
      (hrest : Nested t C scopes' rest) : Nested t C scopes (.instr (.restore env closesCall) :: rest)
  | cons {scopes : List NodeId} {item : Item} {rest : Agenda} (hitem : item.Nested t scopes)
      (hplain : item.isRestore = false) (hrest : Nested t C scopes rest) : Nested t C scopes (item :: rest)

variable {t : Tree} {scopes scopes' : List NodeId}

theorem Item.nested_node {id : NodeId} (h : t.Scoped id scopes) : (Item.node id).Nested t scopes :=
  ⟨List.forall_mem_singleton.mpr h, nofun, nofun, fun h => absurd rfl h, nofun⟩

/-- Instructions other than those that assign, declare, push or copy. -/
theorem Item.nested_instr {i : Instr} (hchoices : ∀ id ∈ i.choices, t.Scoped id scopes)
    (hassign : ∀ name id, i ≠ .assign name id) (hdeclare : ∀ name id, i ≠ .declare name id)
    (hpush : ∀ v, i ≠ .push v) (hvars : Item.vars (.instr i) = []) : (Item.instr i).Nested t scopes :=
  ⟨hchoices, fun name id h => absurd (Item.instr.inj h) (hassign name id),
    fun name id h => absurd (Item.instr.inj h) (hdeclare name id), fun h => absurd hvars h,
    fun v h => absurd (Item.instr.inj h) (hpush v)⟩

theorem Item.nested_simple {i : Instr} (h : i.isSimple = true) : (Item.instr i).Nested t scopes := by
  cases i with
  | push v => exact ⟨List.forall_mem_nil _, nofun, nofun, fun h => absurd rfl h, fun _ hv => by cases hv; exact h⟩
  | _ => first
    | cases h; done
    | exact nested_instr (List.forall_mem_nil _) (fun _ _ => nofun) (fun _ _ => nofun) (fun _ => nofun) rfl

theorem Item.not_isRestore_of_isSimple {i : Instr} (h : i.isSimple = true) : (Item.instr i).isRestore = false := by
  cases i <;> first | rfl | cases h

theorem Item.nested_marker (m : Marker) : (Item.instr (.marker m)).Nested t scopes :=
  nested_instr (List.forall_mem_nil _) (fun _ _ => nofun) (fun _ _ => nofun) (fun _ => nofun) rfl

theorem Item.nested_jump {i : Instr} {target : Marker} (h : i.target? = some target) :
    (Item.instr i).Nested t scopes := by
  cases i <;> first
    | cases h; done
    | exact nested_instr (List.forall_mem_nil _) (fun _ _ => nofun) (fun _ _ => nofun) (fun _ => nofun) rfl

theorem Item.nested_reset : (Item.instr .reset).Nested t scopes :=
  nested_instr (List.forall_mem_nil _) (fun _ _ => nofun) (fun _ _ => nofun) (fun _ => nofun) rfl

namespace Agenda

variable {C C' : Env → List NodeId → Prop} {a b : Agenda} {env : Env} {item : Item}

theorem Nested.mono (hC : ∀ env scopes, C env scopes → C' env scopes) (h : Nested t C scopes a) :
    Nested t C' scopes a := by
  induction h with
  | nil => exact .nil
  | restore henv hrest ih => exact .restore (hC _ _ henv) ih
  | cons hitem hplain hrest ih => exact .cons hitem hplain ih

theorem Nested.tail (h : Nested t C scopes (item :: a)) (hplain : item.isRestore = false) :
    item.Nested t scopes ∧ Nested t C scopes a := by
  cases h with
  | restore henv hrest => cases hplain
  | cons hitem hplain hrest => exact ⟨hitem, hrest⟩

theorem Nested.behind {closesCall : Bool} (h : Nested t C scopes (.instr (.restore env closesCall) :: a)) :
    ∃ scopes', C env scopes' ∧ Nested t C scopes' a := by
  cases h with
  | restore henv hrest => exact ⟨_, henv, hrest⟩
  | cons hitem hplain hrest => cases hplain

theorem Nested.append {items : List Item} (hitems : ∀ item ∈ items, item.Nested t scopes ∧ item.isRestore = false)
    (h : Nested t C scopes a) : Nested t C scopes (items ++ a) := by
  induction items with
  | nil => exact h
  | cons item items ih =>
    rw [List.forall_mem_cons] at hitems
    exact .cons hitems.1.1 hitems.1.2 (ih hitems.2)

/-- In front of the end of a scope it does not matter in which scopes the work stands. -/
theorem Nested.restart (h : Nested t C scopes a) (hends : a.endsScope = true) (scopes' : List NodeId) :
    Nested t C scopes' a := by
  cases h with
  | nil => cases hends
  | restore henv hrest => exact .restore henv hrest
  | cons hitem hplain hrest => exact absurd (hplain.symm.trans hends) Bool.false_ne_true

theorem Nested.opening (henv : C env scopes) (h : Nested t C scopes a) (inner : List NodeId) :
    Nested t C inner (a.opening env) := by
  unfold Agenda.opening
  split
  next hends => exact h.restart hends inner
  next => exact .restore henv h

theorem Nested.closing (henv : C env scopes) (h : Nested t C scopes a) (inner : List NodeId) :
    Nested t C inner (a.closing env) := by
  cases h with
  | nil => exact .restore henv .nil
  | restore henv' hrest => exact .restore henv' hrest
  | @cons _ item rest hitem hplain hrest =>
    obtain ⟨-, -, h⟩ | ⟨env', closesCall, rest', heq, -⟩ := Machine.closing_cases env (item :: rest)
    · rw [h]
      exact .restore henv (.cons hitem hplain hrest)
    · cases heq
      cases hplain

/-- What stands behind work that ends no scope stands in the same scopes. -/
theorem Nested.dropped {items : List Item} (hitems : ∀ item ∈ items, item.isRestore = false)
    (h : Nested t C scopes (items ++ a)) : Nested t C scopes a := by
  induction items with
  | nil => exact h
  | cons item items ih =>
    rw [List.forall_mem_cons] at hitems
    exact ih hitems.2 (h.tail hitems.1).2

/-- What stands behind the end of a scope stands in the scopes of the environment that comes back. -/
theorem Nested.suffix_restore {closesCall : Bool} {items : List Item}
    (h : Nested t C scopes (items ++ .instr (.restore env closesCall) :: a)) :
    ∃ scopes', C env scopes' ∧ Nested t C scopes' a := by
  induction items generalizing scopes with
  | nil => exact h.behind
  | cons item items ih =>
    cases h with
    | restore henv hrest => exact ih hrest
    | cons hitem hplain hrest => exact ih hrest

theorem Nested.unwindCall (htidy : a.Tidy) (h : Nested t C scopes a) (scopes' : List NodeId) :
    Nested t C scopes' (unwindCall a) := by
  obtain ⟨dropped, -, heq⟩ | ⟨-, hnil⟩ := unwindCall_cases a
  · -- Behind the marker the environment of the caller comes back.
    have hmarker : .instr (.marker .call) ∈ a := by
      rw [heq]
      exact List.mem_append_right _ List.mem_cons_self
    obtain ⟨env, rest, hends⟩ := endsCall_iff.mp (htidy.endsCall_unwindCall hmarker)
    rw [hends] at heq ⊢
    rw [List.append_cons] at heq
    rw [heq] at h
    obtain ⟨_, henv, hrest⟩ := h.suffix_restore
    exact .restore henv hrest
  · rw [hnil]
    exact .nil

end Agenda

/-! ## 3. What is scheduled -/

namespace Machine

variable {p : Setting} {id : NodeId} {kind : NodeKind} {item : Item}

/-- The items of a node stand in the scopes around its children. -/
theorem nested_kindItems (hplace : p.tree.DeclaresInPlace) (hheads : p.tree.HeadsDeclareVariables)
    (hid : p.tree.Scoped id scopes) (hkind : p.tree.kind? id = some kind) :
    ∀ item ∈ kindItems p id kind, item.Nested p.tree (p.tree.within id scopes) ∧ item.isRestore = false := by
  intro item hitem
  have hquiet := Item.not_isRestore_of_isQuiet (isQuiet_kindItems id kind item hitem)
  refine ⟨?_, hquiet⟩
  -- Nodes that open no scope and are no functions have their children where they are themselves.
  have plain : ∀ {kind'}, kind = kind' → p.tree.opened kind' = [] →
      (∀ name params code, kind' ≠ .function name params code) → p.tree.within id scopes = scopes := by
    rintro _ rfl hopened hfunction
    exact Tree.within_of_plain hkind hopened hfunction scopes
  have child : ∀ {c}, c ∈ kind.children → p.tree.Scoped c (p.tree.within id scopes) := hid.within hkind
  have copied : ∀ {init test update : Option NodeId} {body : NodeId}, kind = .forLoop init test update body →
      (p.tree.opened kind).map (fun d => d.2.1) ≠ [] → ∃ scope outer, p.tree.within id scopes = scope :: outer ∧
        p.tree.parameters scope = [] ∧
          (p.tree.opened kind).map (fun d => d.2.1) = (p.tree.declared scope).map fun d => d.2.1 := by
    intro _ _ _ _ _ hvars
    have hopened : p.tree.opened kind ≠ [] := fun h => hvars (by rw [h]; rfl)
    obtain ⟨hdeclared, hparams⟩ := Tree.declared_of_opened hkind hopened
    refine ⟨id, scopes, ?_, hparams, by rw [hdeclared]⟩
    rw [Tree.within, Tree.isScope_of_opened hkind hopened]
    rfl
  obtain hc | ⟨hcall, hcallee, hc⟩ | hi | _ | hassign | hdeclare | hbranch | hlogical | hwhile | hfor | hfor |
    _ | hjump :=
    part_of_mem item hitem
  · exact Item.nested_node (child hc)
  · -- The callee is in the scopes of the call, and its operands are too.
    subst hcall
    rw [plain rfl rfl fun _ _ _ => nofun]
    have hmember := hid.same hkind rfl (fun _ _ _ => nofun) List.mem_cons_self
    exact Item.nested_node (hmember.same hcallee rfl (fun _ _ _ => nofun) hc)
  · exact Item.nested_simple hi
  · exact Item.nested_instr (List.forall_mem_nil _) (fun _ _ => nofun) (fun _ _ => nofun) (fun _ => nofun) rfl
  · subst hassign
    rw [plain rfl rfl fun _ _ _ => nofun]
    refine ⟨List.forall_mem_nil _, fun _ _ h => ?_, nofun, fun h => absurd rfl h, nofun⟩
    cases h
    exact ⟨hid, _, hkind⟩
  · have hwithin : p.tree.within id scopes = scopes := by
      obtain ⟨k, init, h⟩ | ⟨f, h⟩ := hdeclare
      · exact plain h rfl fun _ _ _ => nofun
      · exact plain h rfl fun _ _ _ => nofun
    rw [hwithin]
    refine ⟨List.forall_mem_nil _, nofun, fun x _ h => ?_, fun h => absurd rfl h, nofun⟩
    obtain ⟨hx, rfl⟩ := Instr.declare.inj (Item.instr.inj h)
    obtain rfl := hx.symm
    obtain ⟨k, hd⟩ : ∃ k, p.tree.declaration? id = some (id, x, k) := by
      unfold Tree.declaration?
      rw [hkind]
      obtain ⟨k, init, rfl⟩ | ⟨f, rfl⟩ := hdeclare
      · exact ⟨k, rfl⟩
      · exact ⟨_, rfl⟩
    obtain ⟨scope, outer, hscopes, hdeclared⟩ := hid.declared hplace hheads hd
    exact ⟨scope, outer, k, hscopes, hdeclared⟩
  · refine Item.nested_instr (fun c hc => child ?_) (fun _ _ => nofun) (fun _ _ => nofun) (fun _ => nofun) rfl
    obtain rfl | ⟨e, rfl, rfl⟩ := hbranch
    · exact List.mem_cons_of_mem _ hc
    · exact List.mem_cons_of_mem _ hc
  · subst hlogical
    exact Item.nested_instr (List.forall_mem_singleton.mpr (child (List.mem_cons_of_mem _ List.mem_cons_self)))
      (fun _ _ => nofun) (fun _ _ => nofun) (fun _ => nofun) rfl
  · subst hwhile
    exact Item.nested_instr (fun c hc => child hc) (fun _ _ => nofun) (fun _ _ => nofun) (fun _ => nofun) rfl
  · exact ⟨List.forall_mem_nil _, nofun, nofun, copied hfor, nofun⟩
  · refine ⟨fun c hc => child ?_, nofun, nofun, copied hfor, nofun⟩
    subst hfor
    simp only [Item.evaluated, Instr.choices, NodeKind.children, List.mem_append] at hc ⊢
    tauto
  · exact Item.nested_marker _
  · exact Item.nested_jump hjump

/-- What a node puts in front evaluates children of the node, or of the callee of a method call. -/
theorem parent_of_part {item : Item} (h : Part p id kind item) {c : NodeId} (hc : c ∈ item.evaluated) :
    c ∈ kind.children ∨ ∃ callee args object property, kind = .call callee args ∧
      p.tree.kind? callee = some (.member object property) ∧ c ∈ NodeKind.children (.member object property) := by
  cases h with
  | child h => exact .inl (List.mem_singleton.mp hc ▸ h)
  | operand hkind hcallee h => exact .inr ⟨_, _, _, _, hkind, hcallee, List.mem_singleton.mp hc ▸ h⟩
  | branch h =>
    obtain rfl | ⟨e, rfl, rfl⟩ := h
    · exact .inl (List.mem_cons_of_mem _ hc)
    · exact .inl (List.mem_cons_of_mem _ hc)
  | logical h => exact .inl (h ▸ List.mem_cons_of_mem _ hc)
  | whileTest h => exact .inl (h ▸ hc)
  | forTest h =>
    subst h
    simp only [Item.evaluated, Instr.choices, NodeKind.children, List.mem_append] at hc ⊢
    tauto
  | simple h => cases ‹Instr› <;> first | cases h; done | exact absurd hc List.not_mem_nil
  | jump h => cases ‹Instr› <;> first | cases h; done | exact absurd hc List.not_mem_nil
  | _ => exact absurd hc List.not_mem_nil

theorem nested_padding (kind : NodeKind) (scopes : List NodeId) :
    ∀ item ∈ kind.padding, item.Nested p.tree scopes ∧ item.isRestore = false := by
  intro item hitem
  rw [eq_of_mem_padding hitem]
  exact ⟨Item.nested_simple rfl, rfl⟩

/-- The items of a body stand in the scope of the function. -/
theorem nested_bodyItems {name : Option Name} {params : List Name} {code : FunctionBody} (hid : p.tree.Scoped id scopes)
    (hkind : p.tree.kind? id = some (.function name params code)) :
    ∀ item ∈ bodyItems code, item.Nested p.tree (id :: scopes) ∧ item.isRestore = false := by
  intro item hitem
  have hwithin : p.tree.within id scopes = id :: scopes := by
    rw [Tree.within, Tree.isScope_of_function hkind]
    rfl
  obtain hc | hi | _ := bodyPart_of_mem item hitem
  · refine ⟨Item.nested_node ?_, rfl⟩
    have hscoped := hid.within hkind (by cases code <;> exact hc)
    rwa [hwithin] at hscoped
  · exact ⟨Item.nested_simple hi, Item.not_isRestore_of_isSimple hi⟩
  · exact ⟨Item.nested_marker _, rfl⟩

theorem nested_returnItem {argument : Option NodeId} (hid : p.tree.Scoped id scopes)
    (hkind : p.tree.kind? id = some (.returnStatement argument)) : (returnItem argument).Nested p.tree scopes := by
  cases argument with
  | none => exact Item.nested_simple rfl
  | some value => exact Item.nested_node (hid.same hkind rfl (fun _ _ _ => nofun) List.mem_cons_self)

/-- The items of an instruction stand where the instruction does. -/
theorem nested_offers {i : Instr} {items : List Item} (hi : (Item.instr i).Nested p.tree scopes)
    (hitems : items ∈ i.offers) :
    ∀ item ∈ items, item.Nested p.tree scopes ∧ item.isRestore = false := by
  intro item hitem
  refine ⟨?_, Item.not_isRestore_of_isQuiet (isQuiet_offers hitems item hitem)⟩
  obtain hc | hsimple | _ | _ | _ := offered_of_mem hitems hitem
  · exact Item.nested_node (hi.evaluated _ hc)
  · exact Item.nested_simple hsimple
  · exact Item.nested_marker _
  · exact ⟨List.forall_mem_nil _, nofun, nofun, hi.copies, nofun⟩
  · exact hi

end Machine

end ExplicitControl
