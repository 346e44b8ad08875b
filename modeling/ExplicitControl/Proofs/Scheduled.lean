import ExplicitControl.Proofs.Owed

/-!
# What is scheduled owes what is declared

The work that a node puts in front owes what the work in front of which it is put has owed, and besides, if the
node has a scope, a value for each of its declarations; likewise for calls.  Trips through a loop owe nothing, but
they need the values that they copy.
-/

namespace ExplicitControl

variable {t : Tree}

/-! ## 1. The items of the tree -/

theorem Item.due_of_not_isDeclaration {id : NodeId} (h : ∀ kind, t.kind? id = some kind → kind.isDeclaration = false) :
    (Item.node id).due t = none := by
  have hnone : t.declaration? id = none := by
    unfold Tree.declaration?
    cases hkind : t.kind? id with
    | none => rfl
    | some kind =>
      have := h kind hkind
      cases kind <;> first | rfl | cases this
  rw [due, hnone]
  rfl

namespace Machine

open Agenda Place

variable {p : Setting} {id child : NodeId} {kind : NodeKind} {i : Instr} {items : List Item}

theorem due_inner (ht : t.DeclaresInPlace) (hkind : t.kind? id = some kind) (hchild : child ∈ kind.inner) :
    (Item.node child).due t = none :=
  Item.due_of_not_isDeclaration fun _ h => ht.inner hkind hchild h

theorem discreet_of_choices (h : ∀ c ∈ i.choices, (Item.node c).due t = none) : (Item.instr i).Discreet t := by
  rintro i' hi items hitems next hnext
  cases hi
  cases offered_of_mem hitems hnext with
  | node hc => exact h _ hc
  | @simple i' hsimple => cases i' <;> first | rfl | cases hsimple
  | again htest => cases i <;> first | rfl | cases htest
  | _ => rfl

theorem orderly_node (id : NodeId) : (Item.node id).Orderly t :=
  ⟨rfl, rfl, fun _ h => by cases h⟩

theorem orderly_instr (hrestore : (Item.instr i).isRestore = false) (hvars : (Item.instr i).vars = [])
    (hchoices : i.choices = []) : (Item.instr i).Orderly t :=
  ⟨hrestore, hvars, discreet_of_choices fun c hc => by rw [hchoices] at hc; cases hc⟩

theorem orderly_simple (h : i.isSimple = true) : (Item.instr i).Orderly t := by
  cases i <;> first | exact orderly_instr rfl rfl rfl | cases h

theorem orderly_offers (hdiscreet : (Item.instr i).Discreet t) (hvars : (Item.instr i).vars = [])
    (hitems : items ∈ i.offers) : ∀ item ∈ items, item.Orderly t := by
  intro item hitem
  cases offered_of_mem hitems hitem with
  | node hc => exact orderly_node _
  | simple h => exact orderly_simple h
  | tripEnd => exact orderly_instr rfl rfl rfl
  | freshTrip => exact orderly_instr rfl hvars rfl
  | again htest => exact ⟨(by cases i <;> first | rfl | cases htest), hvars, hdiscreet⟩

theorem orderly_padding (kind : NodeKind) : ∀ item ∈ kind.padding, item.Orderly t := by
  intro item hitem
  rw [eq_of_mem_padding hitem]
  exact orderly_instr rfl rfl rfl

theorem dues_padding (frame : Nat) (kind : NodeKind) : dues t frame kind.padding = [] :=
  dues_eq_nil fun item hitem => by rw [eq_of_mem_padding hitem]; rfl

theorem orderly_bodyItems (code : FunctionBody) : ∀ item ∈ bodyItems code, item.Orderly t := by
  intro item hitem
  cases bodyPart_of_mem item hitem with
  | child hc => exact orderly_node _
  | simple h => exact orderly_simple h
  | marker => exact orderly_instr rfl rfl rfl

/-- A statement list owes what it declares. -/
theorem dues_ofStatements (frame : Nat) (body : List NodeId) :
    dues t frame (ofStatements body) = (t.declarations body).map fun d => (frame, d.1, d.2.1) := by
  rw [Tree.declarations_eq]
  have hnode : ∀ id, (Item.node id).due t = (t.declaration? id).map fun d => (d.1, d.2.1) := fun _ => rfl
  have hpop : (Item.instr .pop).due t = none := rfl
  have hpush : (Item.instr (.push .undefined)).due t = none := rfl
  unfold dues
  fun_induction ofStatements body with
  | case1 => rfl
  | case2 id => cases h : t.declaration? id <;> simp [hnode, h]
  | case3 id rest hne ih =>
    cases h : t.declaration? id <;> simp [hnode, hpop, h, ih]

theorem dues_bodyItems (ht : t.DeclaresInPlace) {name : Option Name} {params : List Name} {code : FunctionBody}
    (hkind : t.kind? id = some (.function name params code)) (frame : Nat) :
    dues t frame (bodyItems code) = (t.bodyDeclarations code).map fun d => (frame, d.1, d.2.1) := by
  cases code with
  | expression expr =>
    refine dues_eq_nil fun item hitem => ?_
    rw [List.mem_singleton.mp hitem]
    exact due_inner ht hkind List.mem_cons_self
  | block statements =>
    unfold bodyItems
    rw [dues, List.filterMap_append, List.map_append]
    exact (List.append_nil _).trans (dues_ofStatements frame statements)

section

variable (ht : t.DeclaresInPlace) (hheads : t.HeadsDeclareVariables)
include ht

theorem discreet_part (hkind : p.tree.kind? id = some kind) (htree : p.tree = t) {item : Item}
    (h : Part p id kind item) : item.Discreet t := by
  subst htree
  cases h with
  | child hc => exact fun _ h => by cases h
  | operand hkind hcallee hc => exact fun _ h => by cases h
  | simple h => exact (orderly_simple h).discreet
  | branch h =>
    refine discreet_of_choices fun c hc => due_inner ht hkind ?_
    obtain rfl | ⟨e, rfl, rfl⟩ := h
    · exact List.mem_cons_of_mem _ hc
    · exact List.mem_cons_of_mem _ hc
  | logical h =>
    subst h
    exact discreet_of_choices fun c hc => due_inner ht hkind (List.mem_cons_of_mem _ hc)
  | whileTest h =>
    subst h
    exact discreet_of_choices fun c hc => due_inner ht hkind hc
  | forTest h =>
    subst h
    exact discreet_of_choices fun c hc => due_inner ht hkind hc
  | @jump i target h =>
    refine discreet_of_choices fun c hc => ?_
    cases i <;> first | exact absurd hc List.not_mem_nil | cases h
  | _ => exact discreet_of_choices fun _ hc => by cases hc

/-- The items of a node without a scope. -/
theorem orderly_kindItems (hkind : p.tree.kind? id = some kind) (htree : p.tree = t) (hopened : t.opened kind = []) :
    ∀ item ∈ kindItems p id kind, item.Orderly t := by
  intro item hitem
  have hpart := part_of_mem item hitem
  have hdiscreet := discreet_part ht hkind htree hpart
  subst htree
  have hvars : ((p.tree.opened kind).map fun d => d.2.1) = [] := by rw [hopened]; rfl
  cases hpart with
  | simple h => exact orderly_simple h
  | freshTrip h => exact ⟨rfl, hvars, hdiscreet⟩
  | forTest h => exact ⟨rfl, hvars, hdiscreet⟩
  | @jump i target h =>
    exact ⟨(by cases i <;> first | rfl | cases h), (by cases i <;> first | rfl | cases h), hdiscreet⟩
  | _ => exact ⟨rfl, rfl, hdiscreet⟩

include hheads

/-- A node that is not a declaration itself, and has no scope, evaluates none directly. -/
theorem due_kindItems (hkind : p.tree.kind? id = some kind) (htree : p.tree = t) (hopened : t.opened kind = [])
    (hself : kind.isDeclaration = false) : ∀ item ∈ kindItems p id kind, item.due t = none := by
  intro item hitem
  have hpart := part_of_mem item hitem
  subst htree
  have statement : ∀ {body : List NodeId}, p.tree.declarations body = [] → ∀ c ∈ body,
    (Item.node c).due p.tree = none := by
    intro body hnone c hc
    rw [Tree.declarations_eq, List.filterMap_eq_nil_iff] at hnone
    rw [Item.due, hnone c hc]
    rfl
  cases hpart with
  | @child c hc =>
    cases kind with
    | program body => exact statement hopened c hc
    | block body => exact statement hopened c hc
    | function name params code => cases hitem
    | forLoop init test update body =>
      by_cases hinit : c ∈ init
      · -- The head declares no variable, nor a function.
        refine Item.due_of_not_isDeclaration fun kind hc => ?_
        have hfunction := hheads.head hkind hinit hc
        cases kind with
        | declaration k name e =>
          have hhead : p.tree.headDeclarations init = [] := hopened
          rw [Option.mem_def.mp hinit] at hhead
          simp [Tree.headDeclarations, hc] at hhead
        | functionDeclaration name f => cases hfunction
        | _ => rfl
      · refine due_inner ht hkind ?_
        simp only [NodeKind.children, List.mem_append, Option.mem_toList] at hc
        simp only [NodeKind.inner, List.mem_append, Option.mem_toList]
        obtain ((hc | hc) | hc) | hc := hc
        · exact absurd hc hinit
        · exact .inl (.inl hc)
        · exact .inl (.inr hc)
        · exact .inr hc
    | _ => exact due_inner ht hkind hc
  | operand hcall hcallee hc => exact due_inner ht hcallee hc
  | @simple i h => cases i <;> first | rfl | cases h
  | declare h => obtain ⟨k, init, rfl⟩ | ⟨f, rfl⟩ := h <;> cases hself
  | @jump i target h => cases i <;> first | rfl | cases h
  | _ => rfl

end

end Machine

/-! ## 2. Sound work stays sound -/

namespace Machine

open Agenda Place

variable {p : Setting} {t : Tree} {scopes : Scopes} {env : Env} {a : Agenda} {id : NodeId} {kind : NodeKind}

theorem sound_restore (h : Sound t scopes (.known env []) a) (closesCall : Bool) (place : Place) :
    Sound t scopes place (.instr (.restore env closesCall) :: a) ∧
      owed t place (.instr (.restore env closesCall) :: a) = owed t (.known env []) a := by
  have hdiscreet : (Item.instr (.restore env closesCall)).Discreet t := discreet_of_choices fun _ hc => by cases hc
  refine ⟨⟨⟨fun h => absurd rfl h, fun h => absurd rfl h, fun m vars h => (by cases h), hdiscreet⟩, ?_⟩, ?_⟩
  · rw [after_restore]
    exact h
  · rw [owed, after_restore]
    cases place <;> rfl

theorem sound_opening (h : Sound t scopes (.known env []) a) (place : Place) :
    Sound t scopes place (a.opening env) ∧ owed t place (a.opening env) = owed t (.known env []) a := by
  unfold Agenda.opening
  split
  next hends => exact h.restart hends place
  next => exact sound_restore h false place

theorem sound_closing (h : Sound t scopes (.known env []) a) (place : Place) :
    Sound t scopes place (a.closing env) ∧ owed t place (a.closing env) = owed t (.known env []) a := by
  obtain ⟨-, -, hclosing⟩ | ⟨env', closesCall, rest, rfl, -, hclosing⟩ := closing_cases env a
  · rw [hclosing]
    exact sound_restore h true place
  · rw [hclosing]
    obtain ⟨-, hrest⟩ := h
    rw [after_restore] at hrest
    obtain ⟨hsound, howed⟩ := sound_restore hrest true place
    refine ⟨hsound, howed.trans ?_⟩
    rw [owed, after_restore]
    rfl

theorem allows_plain {item : Item} (hvars : item.vars = []) (hdiscreet : item.Discreet t) (env : Env)
    (names : List Name)
    (rest : Agenda) : Allows t scopes (.known env names) item rest :=
  ⟨fun _ => ⟨env, names, rfl⟩, fun h => absurd hvars h, fun _ _ _ h => (by cases h), hdiscreet⟩

/-- Nodes and work on values keep the place that they find, where they owe nothing. -/
theorem undue_node (h : (Item.node id).due t = none) :
    (Item.node id).Orderly t ∧ (Item.node id).due t = none ∧ ∀ m, Item.node id ≠ .instr (.marker m) :=
  ⟨orderly_node id, h, fun _ h => by cases h⟩

theorem undue_simple {i : Instr} (h : i.isSimple = true) :
    (Item.instr i).Orderly t ∧ (Item.instr i).due t = none ∧ ∀ m, Item.instr i ≠ .instr (.marker m) := by
  refine ⟨orderly_simple h, (by cases i <;> first | rfl | cases h), fun m hm => ?_⟩
  cases Item.instr.inj hm
  cases h

theorem undue_loopTest {test : Option NodeId} (h : ∀ c ∈ test, (Item.node c).due t = none) :
    (loopTest test).Orderly t ∧ (loopTest test).due t = none ∧ ∀ m, loopTest test ≠ .instr (.marker m) := by
  cases test with
  | none => exact undue_simple rfl
  | some c => exact undue_node (h c rfl)

theorem undue_update {update : Option NodeId} (h : ∀ c ∈ update, (Item.node c).due t = none) :
    ∀ item ∈ (update.map fun id => [Item.node id, .instr .pop]).getD [],
      item.Orderly t ∧ item.due t = none ∧ ∀ m, item ≠ .instr (.marker m) := by
  cases update with
  | none => exact List.forall_mem_nil _
  | some c => exact List.forall_mem_cons.mpr ⟨undue_node (h c rfl), List.forall_mem_singleton.mpr (undue_simple rfl)⟩

/-- A loop over copies of a variable, which its head declares. -/
theorem sound_forItems {d body : NodeId} {test update : Option NodeId} {name : Name}
    (hhead : (Item.node d).due t = some (d, name))
    (hinner : ∀ c ∈ NodeKind.inner (.forLoop (some d) test update body), (Item.node c).due t = none)
    (h : Sound t scopes (.copied [name]) a) (hends : a.endsScope = true) (id : NodeId) (env : Env) :
    Sound t scopes (.known env []) (forItems id (some d) test update body [name] ++ a) ∧
      owed t (.known env []) (forItems id (some d) test update body [name] ++ a) =
        (env.frame, d, name) :: owed t (.copied [name]) a := by
  -- From the end: the end of the loop, the loop over copies, the copies of what the head has declared.
  have hend : Sound t scopes (.copied [name]) (.instr (.marker .loopEnd) :: a) :=
    ⟨⟨fun h => absurd rfl h, fun h => absurd rfl h, fun _ _ _ _ => hends,
      discreet_of_choices fun _ hc => by cases hc⟩, h⟩
  have hloop : Sound t scopes (.copied [name]) (.instr (.forTest test update body [name] id) ::
      .instr (.marker .loopEnd) :: a) :=
    ⟨⟨fun h => absurd rfl h, fun _ => rfl, fun _ _ h => (by cases h), discreet_of_choices hinner⟩, hend⟩
  have hfirst : ∀ item ∈ [Item.instr (.push .undefined), loopTest test],
      item.Orderly t ∧ item.due t = none ∧ ∀ m, item ≠ .instr (.marker m) := by
    refine List.forall_mem_cons.mpr ⟨undue_simple rfl, List.forall_mem_singleton.mpr (undue_loopTest fun c hc => ?_)⟩
    exact hinner c (by simp [NodeKind.inner, Option.mem_def.mp hc])
  obtain ⟨hstart, howed⟩ := hloop.keep hfirst
  have hcopy : Sound t scopes (.known env [name]) (.instr (.freshTrip [name]) ::
      ([Item.instr (.push .undefined), loopTest test] ++ .instr (.forTest test update body [name] id) ::
        .instr (.marker .loopEnd) :: a)) :=
    ⟨⟨fun h => absurd rfl h, fun _ x hx => .inl hx, fun _ _ h => (by cases h),
      discreet_of_choices fun _ hc => by cases hc⟩, hstart⟩
  have hafter : after t (.known env []) (.node d) = .known env [name] := by
    rw [after_plain rfl (fun _ h => (by cases h)) rfl, hhead]
    rfl
  refine ⟨⟨allows_plain rfl (orderly_node d).discreet env [] _, ?_⟩, ?_⟩
  · rw [hafter]
    exact ⟨allows_plain rfl (orderly_simple rfl).discreet env [name] _, hcopy⟩
  · show owes t (.known env []) (.node d) ++ owed t (after t (.known env []) (.node d)) _ = _
    rw [hafter, owes, hhead]
    exact congrArg _ howed

/-- A node without a scope leads to work that owes the same. -/
theorem sound_node (ht : p.tree.DeclaresInPlace) (hheads : p.tree.HeadsDeclareVariables)
    (hkind : p.tree.kind? id = some kind) (hopened : p.tree.opened kind = [])
    (h : Sound p.tree scopes (.known env []) (.node id :: a)) :
    Sound p.tree scopes (.known env []) (kindItems p id kind ++ (kind.padding ++ a)) ∧
      owed p.tree (.known env []) (kindItems p id kind ++ (kind.padding ++ a)) =
        owed p.tree (.known env []) (.node id :: a) := by
  obtain ⟨-, hrest⟩ := h
  by_cases hself : kind.isDeclaration = true
  · -- Then comes the value, and the declaration is still due.
    have declaration : ∀ name e, p.tree.declaration? id = some (id, name, e) → ∀ value, kind.inner = [value] →
        kindItems p id kind = [.node value, .instr (.declare name id)] → kind.padding = [] →
        Sound p.tree scopes (.known env []) (kindItems p id kind ++ (kind.padding ++ a)) ∧
          owed p.tree (.known env []) (kindItems p id kind ++ (kind.padding ++ a)) =
            owed p.tree (.known env []) (.node id :: a) := by
      intro name e hdeclares value hinner hitems hpadding
      have hdue : (Item.node id).due p.tree = some (id, name) := by rw [Item.due, hdeclares]; rfl
      have hvalue : (Item.node value).due p.tree = none := due_inner ht hkind (hinner ▸ List.mem_cons_self)
      have hbehind : Sound p.tree scopes (.known env [name]) a := by
        have h := hrest
        rw [after_plain rfl (fun _ h => (by cases h)) rfl, hdue] at h
        exact h
      have hdeclare : Sound p.tree scopes (.known env []) (.instr (.declare name id) :: a) :=
        ⟨allows_plain rfl (discreet_of_choices fun _ hc => by cases hc) env [] a, hbehind⟩
      obtain ⟨hsound, howed⟩ := hdeclare.put (List.forall_mem_singleton.mpr (orderly_node value)) []
      rw [hitems, hpadding]
      refine ⟨hsound, howed.trans ?_⟩
      rw [dues_eq_nil (List.forall_mem_singleton.mpr hvalue), owed, owed,
        after_plain rfl (fun _ h => (by cases h)) rfl, after_plain rfl (fun _ h => (by cases h)) rfl, owes, owes, hdue]
      rfl
    cases kind with
    | declaration k name init =>
      exact declaration name k (by rw [Tree.declaration?, hkind]) init rfl rfl rfl
    | functionDeclaration name f =>
      exact declaration name .constKind (by rw [Tree.declaration?, hkind]) f rfl rfl rfl
    | _ => cases hself
  · rw [Bool.not_eq_true] at hself
    have hdue : (Item.node id).due p.tree = none :=
      Item.due_of_not_isDeclaration fun kind' h => by cases hkind.symm.trans h; exact hself
    have hplain : after p.tree (.known env []) (.node id) = .known env [] := by
      rw [after_plain rfl (fun _ h => (by cases h)) rfl, hdue]
      rfl
    rw [hplain] at hrest
    obtain ⟨hpadded, howed⟩ := hrest.put (orderly_padding kind) []
    obtain ⟨hsound, howed'⟩ := hpadded.put (orderly_kindItems ht hkind rfl hopened) []
    refine ⟨hsound, ?_⟩
    rw [howed', dues_eq_nil (due_kindItems ht hheads hkind rfl hopened hself), howed, dues_padding, owed, hplain, owes,
      hdue]
    rfl

/-- A node with a scope leads to work that owes, besides, the values of what it declares. -/
theorem sound_scope (ht : p.tree.DeclaresInPlace) (hkind : p.tree.kind? id = some kind)
    (hopened : p.tree.opened kind ≠ [])
    (h : Sound p.tree scopes (.known env []) (.node id :: a)) (env' : Env) :
    Sound p.tree scopes (.known env' []) (kindItems p id kind ++ Agenda.opening env (kind.padding ++ a)) ∧
      owed p.tree (.known env' []) (kindItems p id kind ++ Agenda.opening env (kind.padding ++ a)) =
        ((p.tree.opened kind).map fun d => (env'.frame, d.1, d.2.1)) ++
          owed p.tree (.known env []) (.node id :: a) := by
  obtain ⟨-, hrest⟩ := h
  have hdue : (Item.node id).due p.tree = none := by
    refine Item.due_of_not_isDeclaration fun kind' h => ?_
    cases hkind.symm.trans h
    cases kind <;> first | rfl | exact absurd rfl hopened
  have hplain : after p.tree (.known env []) (.node id) = .known env [] := by
    rw [after_plain rfl (fun _ h => (by cases h)) rfl, hdue]
    rfl
  rw [hplain] at hrest
  have hbefore : owed p.tree (.known env []) (.node id :: a) = owed p.tree (.known env []) a := by
    rw [owed, hplain, owes, hdue]
    rfl
  obtain ⟨hpadded, howed⟩ := hrest.put (orderly_padding kind) []
  rw [dues_padding, List.nil_append] at howed
  have statements : ∀ body, Sound p.tree scopes (.known env' [])
      (ofStatements body ++ Agenda.opening env (kind.padding ++ a)) ∧
        owed p.tree (.known env' []) (ofStatements body ++ Agenda.opening env (kind.padding ++ a)) =
          ((p.tree.declarations body).map fun d => (env'.frame, d.1, d.2.1)) ++
            owed p.tree (.known env []) (.node id :: a) := by
    intro body
    obtain ⟨hopening, howed'⟩ := sound_opening hpadded (.known env' [])
    have horderly : ∀ item ∈ ofStatements body, item.Orderly p.tree :=
      forall_mem_ofStatements (fun c _ => orderly_node c) (orderly_simple rfl) (orderly_simple rfl)
    obtain ⟨hsound, howed''⟩ := hopening.put horderly []
    refine ⟨hsound, ?_⟩
    rw [howed'', howed', howed, dues_ofStatements, hbefore]
  cases kind with
  | program body => exact statements body
  | block body => exact statements body
  | forLoop init test update body =>
    obtain ⟨d, k, name, value, rfl, hd, hhead⟩ := Tree.exists_head hopened
    have hends : (Agenda.opening env ((NodeKind.forLoop (some d) test update body).padding ++ a)).endsScope = true := by
      unfold Agenda.opening
      split
      next h => exact h
      next => rfl
    have hdeclaration : (Item.node d).due p.tree = some (d, name) := by simp [Item.due, Tree.declaration?, hd]
    obtain ⟨hopening, howed'⟩ := sound_opening hpadded (.copied [name])
    obtain ⟨hsound, howed''⟩ := sound_forItems hdeclaration (fun c hc => due_inner ht hkind hc) hopening hends id env'
    rw [kindItems, Tree.opened, hhead]
    refine ⟨hsound, howed''.trans ?_⟩
    rw [howed', howed, hbefore]
    rfl
  | _ => exact absurd rfl hopened

/-- A call leads to work that owes, besides, the values of what the body declares. -/
theorem sound_body (ht : p.tree.DeclaresInPlace) {name : Option Name} {params : List Name} {code : FunctionBody}
    (hkind : p.tree.kind? id = some (.function name params code)) (h : Sound p.tree scopes (.known env []) a)
    (env' : Env) :
    Sound p.tree scopes (.known env' []) (bodyItems code ++ a.closing env) ∧
      owed p.tree (.known env' []) (bodyItems code ++ a.closing env) =
        ((p.tree.bodyDeclarations code).map fun d => (env'.frame, d.1, d.2.1)) ++ owed p.tree (.known env []) a := by
  obtain ⟨hclosing, howed⟩ := sound_closing h (.known env' [])
  obtain ⟨hsound, howed'⟩ := hclosing.put (orderly_bodyItems code) []
  refine ⟨hsound, ?_⟩
  rw [howed', howed, dues_bodyItems ht hkind]

/-- One more trip, for which there are values to copy. -/
theorem sound_trip {test update : Option NodeId} {body node : NodeId} {vars : List Name}
    (hdiscreet : (Item.instr (.forTest test update body vars node)).Discreet t)
    (hdues : ∀ item ∈ tripItems test update body vars node, item.due t = none)
    (hholds : ∀ x ∈ vars, scopes.Holds env.frame x) (h : Sound t scopes (.copied vars) a) (hvars : vars ≠ []) :
    Sound t scopes (.known env []) (tripItems test update body vars node ++ a) ∧
      owed t (.known env []) (tripItems test update body vars node ++ a) = owed t (.copied vars) a := by
  -- From the end: the loop over copies, the update and the test in front of it, the copies, the body.
  have htest : Sound t scopes (.copied vars) (.instr (.forTest test update body vars node) :: a) :=
    ⟨⟨fun h => absurd rfl h, fun _ => rfl, fun _ _ h => (by cases h), hdiscreet⟩, h⟩
  have hupdate : ∀ item ∈ (update.map fun id => [Item.node id, .instr .pop]).getD [] ++ [loopTest test],
      item.Orderly t ∧ item.due t = none ∧ ∀ m, item ≠ .instr (.marker m) := by
    refine List.forall_mem_append.mpr ⟨undue_update fun c hc => hdues _ ?_,
      List.forall_mem_singleton.mpr (undue_loopTest fun c hc => hdues _ ?_)⟩
    · simp [tripItems, Option.mem_def.mp hc]
    · simp [tripItems, loopTest, Option.mem_def.mp hc]
  obtain ⟨hrest, howed⟩ := htest.keep hupdate
  have hafter : after t (.known env []) (.instr (.freshTrip vars)) = .copied vars := if_neg hvars
  have hcopy : Sound t scopes (.known env []) (.instr (.freshTrip vars) ::
      ((update.map fun id => [Item.node id, .instr .pop]).getD [] ++ [loopTest test] ++
        .instr (.forTest test update body vars node) :: a)) := by
    refine ⟨⟨fun h => absurd rfl h, fun _ x hx => .inr (hholds x hx), fun _ _ h => (by cases h),
      discreet_of_choices fun _ hc => by cases hc⟩, ?_⟩
    rw [hafter]
    exact hrest
  have hbody : ∀ item ∈ [Item.instr .pop, .node body, .instr (.marker .tripEnd)], item.Orderly t := by
    simp only [List.forall_mem_cons]
    exact ⟨orderly_simple rfl, orderly_node body, orderly_instr rfl rfl rfl, List.forall_mem_nil _⟩
  obtain ⟨hsound, howed'⟩ := hcopy.put hbody []
  have hitems : tripItems test update body vars node ++ a = [Item.instr .pop, .node body, .instr (.marker .tripEnd)] ++
      .instr (.freshTrip vars) :: ((update.map fun id => [Item.node id, .instr .pop]).getD [] ++ [loopTest test] ++
        .instr (.forTest test update body vars node) :: a) := by
    simp [tripItems]
  rw [hitems]
  refine ⟨hsound, howed'.trans ?_⟩
  have hnone : dues t env.frame [Item.instr .pop, .node body, .instr (.marker .tripEnd)] = [] := by
    refine dues_eq_nil fun item hitem => hdues item ?_
    rw [tripItems, List.append_assoc]
    refine List.mem_append_left _ ?_
    simp only [List.mem_cons, List.not_mem_nil, or_false] at hitem ⊢
    tauto
  rw [hnone, List.nil_append, owed, hafter]
  exact howed

/-- A test leads to work that owes the same: to another trip, or to what is behind the loop. -/
theorem sound_offers {i : Instr} {items : List Item} (hi : isPlainInstr i = true) (hitems : items ∈ i.offers)
    (h : Sound t scopes (.known env []) (.instr i :: a)) :
    Sound t scopes (.known env []) (items ++ a) ∧
      owed t (.known env []) (items ++ a) = owed t (.known env []) (.instr i :: a) := by
  obtain ⟨hallows, hrest⟩ := h
  have hdue : (Item.instr i).due t = none := by cases i <;> first | rfl | cases hi
  have howes : owed t (.known env []) (.instr i :: a) = owed t (after t (.known env []) (.instr i)) a := by
    rw [owed, owes, hdue]
    rfl
  rw [howes]
  by_cases hvars : (Item.instr i).vars = []
  · have hsame : after t (.known env []) (.instr i) = .known env [] := by
      by_cases hmarker : ∃ m, i = .marker m
      · obtain ⟨m, rfl⟩ := hmarker
        rfl
      · have hrestore : (Item.instr i).isRestore = false := by cases i <;> first | rfl | cases hi
        rw [after_plain hrestore (fun m h => hmarker ⟨m, Item.instr.inj h⟩) hvars, hdue]
        rfl
    rw [hsame] at hrest ⊢
    obtain ⟨hsound, howed⟩ := hrest.put (orderly_offers hallows.discreet hvars hitems) []
    refine ⟨hsound, ?_⟩
    rw [howed, dues_eq_nil fun item hitem => hallows.discreet i rfl items hitems item hitem, List.nil_append]
  · -- Only the test of a loop with variables of its own is left.
    rw [after_of_vars hvars] at hrest ⊢
    have hcovers : ∀ x ∈ (Item.instr i).vars, scopes.Holds env.frame x := fun x hx =>
      (hallows.vars hvars x hx).resolve_left List.not_mem_nil
    cases i with
    | forTest test update body vars node =>
      obtain rfl | hitems := List.mem_cons.mp hitems
      · exact hrest.serves (fun _ _ h => h) (.settled hcovers)
      · rw [List.mem_singleton.mp hitems]
        have hdues := hallows.discreet _ rfl _ (List.mem_cons_of_mem _ (List.mem_singleton_self _))
        exact sound_trip hallows.discreet hdues hcovers hrest hvars
    | freshTrip vars => exact absurd (List.isEmpty_iff.mp hi) hvars
    | _ => exact absurd rfl hvars

theorem sound_behind {item : Item} (hafter : after t (.known env []) item = .known env [])
    (hdue : item.due t = none) (h : Sound t scopes (.known env []) (item :: a)) :
    Sound t scopes (.known env []) a ∧
      owed t (.known env []) a = owed t (.known env []) (item :: a) := by
  obtain ⟨-, hrest⟩ := h
  rw [hafter] at hrest
  refine ⟨hrest, ?_⟩
  rw [Agenda.owed, hafter, owes, hdue]
  rfl

theorem orderly_jump {i : Instr} {target : Marker} (h : i.target? = some target) :
    (Item.instr i).Orderly t := by
  cases i <;> first | exact orderly_instr rfl rfl rfl | cases h

theorem due_jump {i : Instr} {target : Marker} (h : i.target? = some target) :
    (Item.instr i).due t = none := by
  cases i <;> first | rfl | cases h

theorem sound_jump {i : Instr} {target : Marker} (htarget : i.target? = some target)
    (h : Sound t scopes (.known env []) (.instr i :: a)) :
    Sound t scopes (.known env []) a ∧
      owed t (.known env []) a = owed t (.known env []) (.instr i :: a) :=
  sound_behind (by cases i <;> first | rfl | cases htarget) (due_jump htarget) h

/-! ## 3. Work that is dropped -/

/-- The rest of a function is dropped, at once or when the value has been computed. -/
theorem sound_returned (ht : p.tree.DeclaresInPlace) {argument : Option NodeId}
    (hkind : p.tree.kind? id = some (.returnStatement argument)) (htidy : a.Tidy)
    (h : Sound p.tree scopes (.known env []) (.node id :: a)) :
    Sound p.tree scopes (.known env []) (if a.inTailPosition then returnItem argument :: unwindCall a
      else returnItem argument :: .instr .reset :: a) ∧
    (owed p.tree (.known env []) (if a.inTailPosition then returnItem argument :: unwindCall a
      else returnItem argument :: .instr .reset :: a)).Sublist (owed p.tree (.known env []) (.node id :: a)) := by
  have hdue : (Item.node id).due p.tree = none :=
    Item.due_of_not_isDeclaration fun kind' h => by cases hkind.symm.trans h; rfl
  have hafter : after p.tree (.known env []) (.node id) = .known env [] := by
    rw [after_plain rfl (fun _ h => (by cases h)) rfl, hdue]
    rfl
  obtain ⟨hrest, howed⟩ := sound_behind hafter hdue h
  have hvalue : ∀ item ∈ [returnItem argument], item.Orderly p.tree := by
    cases argument with
    | none => exact List.forall_mem_singleton.mpr (orderly_simple rfl)
    | some value => exact List.forall_mem_singleton.mpr (orderly_node value)
  have hvalueDue : dues p.tree env.frame [returnItem argument] = [] := by
    cases argument with
    | none => rfl
    | some value => exact dues_eq_nil (List.forall_mem_singleton.mpr (due_inner ht hkind List.mem_cons_self))
  have put : ∀ {b : Agenda}, Sound p.tree scopes (.known env []) b →
      (owed p.tree (.known env []) b).Sublist (owed p.tree (.known env []) a) →
      Sound p.tree scopes (.known env []) (returnItem argument :: b) ∧
        (owed p.tree (.known env []) (returnItem argument :: b)).Sublist
          (owed p.tree (.known env []) (.node id :: a)) := by
    intro b hb hsublist
    obtain ⟨hsound, howed'⟩ := hb.put hvalue []
    rw [hvalueDue, List.nil_append] at howed'
    refine ⟨hsound, ?_⟩
    rw [← howed]
    exact howed'.symm ▸ hsublist
  split
  · obtain ⟨hsound, hsuffix⟩ := hrest.unwindCall htidy (.known env [])
    exact put hsound hsuffix.sublist
  · have hreset : (Item.instr .reset).Orderly p.tree := orderly_instr rfl rfl rfl
    obtain ⟨hsound, howed'⟩ := hrest.put (List.forall_mem_singleton.mpr hreset) []
    exact put hsound (howed'.symm ▸ List.Sublist.refl _)

theorem sound_reset (htidy : a.Tidy) (h : Sound t scopes (.known env []) (.instr .reset :: a)) :
    Sound t scopes (.known env []) (unwindCall a) ∧
      (owed t (.known env []) (unwindCall a)).Sublist (owed t (.known env []) (.instr .reset :: a)) := by
  obtain ⟨hrest, howed⟩ := sound_behind rfl rfl h
  obtain ⟨hsound, hsuffix⟩ := hrest.unwindCall htidy (.known env [])
  exact ⟨hsound, howed ▸ hsuffix.sublist⟩

/-- A jump has come to its marker. -/
theorem sound_reached {i : Instr} {target : Marker} {b : Agenda} (htarget : i.target? = some target)
    (hsearch : searchLoop target a = .reached b) (h : Sound t scopes (.known env []) (.instr i :: a)) :
    Sound t scopes (.known env []) b ∧
      (owed t (.known env []) b).Sublist (owed t (.known env []) (.instr i :: a)) := by
  obtain ⟨hrest, howed⟩ := sound_jump htarget h
  obtain ⟨dropped, hdropped, rfl⟩ := eq_of_searchLoop_reached hsearch
  obtain ⟨hsound, hsuffix⟩ := hrest.suffix_marker fun item hitem => (Item.isPassed_iff.mp (hdropped item hitem)).2
  exact ⟨hsound, howed ▸ hsuffix.sublist⟩

/-- A jump that comes to the end of a scope goes on behind it. -/
theorem sound_stopped {i : Instr} {target : Marker} {item : Item} {b : Agenda} (htarget : i.target? = some target)
    (hsearch : searchLoop target a = .scope item b) (h : Sound t scopes (.known env []) (.instr i :: a)) :
    Sound t scopes (.known env []) (item :: .instr i :: b) ∧
      (owed t (.known env []) (item :: .instr i :: b)).Sublist (owed t (.known env []) (.instr i :: a)) := by
  obtain ⟨hrest, howed⟩ := sound_jump htarget h
  obtain ⟨dropped, env', closesCall, -, rfl, rfl⟩ := eq_of_searchLoop_scope hsearch
  obtain ⟨hbehind, hsuffix⟩ := hrest.suffix_restore
  obtain ⟨hjump, howed'⟩ := hbehind.put (List.forall_mem_singleton.mpr (orderly_jump htarget)) []
  rw [dues_eq_nil (List.forall_mem_singleton.mpr (due_jump htarget)), List.nil_append] at howed'
  obtain ⟨hsound, howed''⟩ := sound_restore hjump closesCall (.known env [])
  refine ⟨hsound, ?_⟩
  rw [← howed]
  exact (howed''.trans howed').symm ▸ hsuffix.sublist

/-! ## 4. Values that come to be there -/

/-- A declaration has given its value. -/
theorem sound_declared {scopes' : Scopes} {name : Name} {node : NodeId}
    (h : Sound t scopes (.known env []) (.instr (.declare name node) :: a))
    (hgrow : ∀ f x, scopes.Holds f x → scopes'.Holds f x) (hwritten : scopes'.Holds env.frame name) :
    Sound t scopes' (.known env []) a ∧
      owed t (.known env []) (.instr (.declare name node) :: a) =
        (env.frame, node, name) :: owed t (.known env []) a := by
  have hrest : Sound t scopes (.known env [name]) a := h.2
  have hserves : Serves scopes' (.known env [name]) (.known env []) :=
    .known fun x hx => .inr (List.mem_singleton.mp hx ▸ hwritten)
  obtain ⟨hsound, hsame⟩ := hrest.serves hgrow hserves
  refine ⟨hsound, ?_⟩
  rw [hsame]
  rfl

/-- What is copied has its value. -/
theorem holds_of_copied (h : Sound t scopes (.known env []) (.instr (.freshTrip vars) :: a)) :
    ∀ x ∈ vars, scopes.Holds env.frame x :=
  fun x hx => (h.1.vars (List.ne_nil_of_mem hx) x hx).resolve_left List.not_mem_nil

/-- A frame has been copied. -/
theorem sound_copied {scopes' : Scopes} {env' : Env} (hvars : vars ≠ [])
    (h : Sound t scopes (.known env []) (.instr (.freshTrip vars) :: a))
    (hgrow : ∀ f x, scopes.Holds f x → scopes'.Holds f x) (hcopied : ∀ x ∈ vars, scopes'.Holds env'.frame x) :
    Sound t scopes' (.known env' []) a ∧
      owed t (.known env' []) a = owed t (.known env []) (.instr (.freshTrip vars) :: a) := by
  have hafter : after t (.known env []) (.instr (.freshTrip vars)) = .copied vars := if_neg hvars
  obtain ⟨-, hrest⟩ := h
  rw [hafter] at hrest
  obtain ⟨hsound, howed⟩ := hrest.serves hgrow (.settled hcopied)
  refine ⟨hsound, ?_⟩
  rw [howed, Agenda.owed, hafter]
  rfl

end Machine

end ExplicitControl
