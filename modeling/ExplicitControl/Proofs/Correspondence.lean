import ExplicitControl.Proofs.Declarations
import ExplicitControl.Proofs.Origins
import ExplicitControl.Proofs.SharedNames

/-!
# Machines that know names by different places

Two machines at the same tree may keep their names in different tables, as long as both tables share the places of
the tree's own names.  No other name reaches the machine: those that an item declares, looks up or makes a key of
are names of the tree, and so are those of closures.  Hence every operation does the same on states that correspond.
-/

namespace ExplicitControl

/-! ## 1. The names that an item goes by -/

def Value.names : Value → List Name
  | .closure _ f => f.name.toList
  | _ => []

def MemberProperty.names : MemberProperty → List Name
  | .named name => [name]
  | .computed _ => []

def NodeKind.names : NodeKind → List Name
  | .declaration _ name _ | .functionDeclaration name _ | .identifier name | .assignment name _ => [name]
  | .function name params _ => name.toList ++ params
  | .objectLiteral properties => properties.map Prod.fst
  | .member _ property | .memberAssignment _ property _ => property.names
  | _ => []

def Instr.names : Instr → List Name
  | .push v => v.names
  | .assign name _ | .declare name _ => [name]
  | .forTest _ _ _ vars _ | .freshTrip vars => vars
  | .makeObject keys _ => keys
  | .methodLookup property _ => property.toList
  | _ => []

def Item.names : Item → List Name
  | .node _ => []
  | .instr i => i.names

def Value.NamedIn (own : NameTable) (v : Value) : Prop :=
  ∀ name ∈ v.names, own.Holds name

def Item.NamedIn (own : NameTable) (item : Item) : Prop :=
  ∀ name ∈ item.names, own.Holds name

def Tree.HoldsNames (t : Tree) : Prop :=
  ∀ id kind, t.kind? id = some kind → ∀ name ∈ kind.names, t.names.Holds name

theorem Tree.holdsNames_of_nodes {t : Tree}
    (h : ∀ node ∈ t.nodes.toList, ∀ name ∈ node.kind.names, t.names.Holds name) : t.HoldsNames := by
  intro id kind hkind
  obtain ⟨node, hnode, rfl⟩ := Tree.exists_node hkind
  exact h node hnode

theorem Value.namedIn_of_isInert {own : NameTable} {v : Value} (h : v.isInert = true) : v.NamedIn own := by
  cases v with
  | closure identity f => cases h
  | _ => exact fun _ hname => absurd hname List.not_mem_nil

theorem Tree.HoldsNames.declarations {t : Tree} (ht : t.HoldsNames) {body : List NodeId} {d : NodeId × Name × DeclKind}
    (hd : d ∈ t.declarations body) : t.names.Holds d.2.1 := by
  obtain ⟨id, -, hd⟩ := List.mem_filterMap.mp hd
  split at hd
  next kind name init hkind => cases hd; exact ht id _ hkind name List.mem_cons_self
  next name f hkind => cases hd; exact ht id _ hkind name List.mem_cons_self
  next => cases hd

/-! ## 2. States -/

def Setting.over (p : Setting) (names : NameTable) : Setting :=
  { p with names }

/-- The second state is the first, but for the places of the names of variables; and all that is still to be done
goes by names of the tree. -/
structure State.Corresponds (p : Setting) (names : NameTable) (s s' : State) : Prop where
  others : s' = { s with scopes := s'.scopes }
  scopes : s.scopes.Corresponds p.names names s'.scopes
  agenda : ∀ item ∈ s.agenda, item.NamedIn p.tree.names
  snapshots : ∀ k ∈ s.snapshots, ∀ item ∈ k.agenda, item.NamedIn p.tree.names

namespace State.Corresponds

variable {p : Setting} {names : NameTable} {s s' : State}

theorem agenda_eq (h : s.Corresponds p names s') : s'.agenda = s.agenda := by rw [h.others]

theorem stash (h : s.Corresponds p names s') : s'.stash = s.stash := by rw [h.others]

theorem env (h : s.Corresponds p names s') : s'.env = s.env := by rw [h.others]

theorem heap (h : s.Corresponds p names s') : s'.heap = s.heap := by rw [h.others]

theorem snapshots_eq (h : s.Corresponds p names s') : s'.snapshots = s.snapshots := by rw [h.others]

/-- A change to registers other than frames and pending work is made to both states alike. -/
theorem map (h : s.Corresponds p names s') {f : State → State}
    (hf : ∀ (t : State) scopes, f { t with scopes } = { f t with scopes })
    (hagenda : ∀ item ∈ (f s).agenda, item.NamedIn p.tree.names)
    (hsnapshots : ∀ k ∈ (f s).snapshots, ∀ item ∈ k.agenda, item.NamedIn p.tree.names) :
    (f s).Corresponds p names (f s') := by
  have hscopes : ∀ t : State, (f t).scopes = t.scopes := fun t => by
    have := congrArg State.scopes (hf t t.scopes)
    exact this
  refine ⟨?_, ?_, hagenda, hsnapshots⟩
  · rw [hscopes s', ← hf, ← h.others]
  · rw [hscopes, hscopes]
    exact h.scopes

end State.Corresponds

namespace Machine

open Agenda

variable {α β : Type} {p : Setting} {names : NameTable}

/-! ## 3. Operations side by side -/

def SameEnd (p : Setting) (names : NameTable) (r r' : EStateM.Result EvalError State α) : Prop :=
  match r, r' with
  | .ok a s, .ok a' s' => a' = a ∧ s.Corresponds p names s'
  | .error e s, .error e' s' => e' = e ∧ s.Corresponds p names s'
  | _, _ => False

/-- From corresponding states the operations end alike. -/
def Parallel (p : Setting) (names : NameTable) (x y : MachineM α) : Prop :=
  ∀ s s' : State, s.Corresponds p names s' → SameEnd p names (x s) (y s')

/-- What is known of the first operation's result may be used in what follows. -/
theorem SameEnd.bind {x y : MachineM α} {f g : α → MachineM β} {s s' : State} {Q : α → State → Prop}
    (h : SameEnd p names (x s) (y s')) (hx : Ensures x s Q fun _ _ => True)
    (hfg : ∀ a t t', t.Corresponds p names t' → Q a t → SameEnd p names (f a t) (g a t')) :
    SameEnd p names ((x >>= f) s) ((y >>= g) s') := by
  show SameEnd p names (EStateM.bind x f s) (EStateM.bind y g s')
  unfold EStateM.bind
  unfold Ensures at hx
  cases hr : x s with
  | ok a t =>
    rw [hr] at h hx
    cases hr' : y s' with
    | ok a' t' =>
      rw [hr'] at h
      obtain ⟨rfl, ht⟩ := h
      exact hfg a' t t' ht hx
    | error e t' => rw [hr'] at h; exact h.elim
  | error e t =>
    rw [hr] at h
    cases hr' : y s' with
    | ok a' t' => rw [hr'] at h; exact h.elim
    | error e' t' => rw [hr'] at h; exact h

theorem Parallel.bind {x y : MachineM α} {f g : α → MachineM β} (h : Parallel p names x y)
    (hfg : ∀ a, Parallel p names (f a) (g a)) : Parallel p names (x >>= f) (y >>= g) := by
  intro s s' hs
  have anything : Ensures x s (fun _ _ => True) fun _ _ => True := by
    unfold Ensures
    split <;> trivial
  exact (h s s' hs).bind anything fun a t t' ht _ => hfg a t t' ht

theorem Parallel.map {x y : MachineM α} (h : Parallel p names x y) (f : α → β) :
    Parallel p names (f <$> x) (f <$> y) := by
  intro s s' hs
  have h := h s s' hs
  show SameEnd p names (EStateM.map f x s) (EStateM.map f y s')
  unfold EStateM.map
  cases hr : x s <;> cases hr' : y s' <;> rw [hr, hr'] at h
  · exact ⟨congrArg f h.1, h.2⟩
  · exact h
  · exact h
  · exact h

theorem parallel_pure (a : α) : Parallel p names (pure a : MachineM α) (pure a) :=
  fun _ _ h => ⟨rfl, h⟩

theorem parallel_get {f g : State → MachineM α}
    (h : ∀ s s' : State, s.Corresponds p names s' → Parallel p names (f s) (g s')) :
    Parallel p names (get >>= f) (get >>= g) :=
  fun s s' hs => h s s' hs s s' hs

theorem parallel_forM {l : List α} {f g : α → MachineM PUnit} (h : ∀ a ∈ l, Parallel p names (f a) (g a)) :
    Parallel p names (l.forM f) (l.forM g) := by
  induction l with
  | nil => exact parallel_pure _
  | cons a rest ih =>
    rw [List.forall_mem_cons] at h
    exact h.1.bind fun _ => ih h.2

theorem parallel_failAt (node : NodeId) (fault : Fault) :
    Parallel p names (failAt p node fault : MachineM α) (failAt (p.over names) node fault) :=
  fun _ _ h => ⟨rfl, h⟩

theorem parallel_orFailAt (node : NodeId) (r : Except Fault α) :
    Parallel p names (orFailAt p node r) (orFailAt (p.over names) node r) := by
  cases r with
  | ok a => exact parallel_pure a
  | error fault => exact parallel_failAt node fault

theorem parallel_kindOf_bind {node : NodeId} {f g : NodeKind → MachineM α}
    (h : ∀ kind, p.tree.kind? node = some kind → Parallel p names (f kind) (g kind)) :
    Parallel p names (kindOf p node >>= f) (kindOf (p.over names) node >>= g) := by
  have htree : (p.over names).tree = p.tree := rfl
  unfold kindOf
  rw [htree]
  cases hkind : p.tree.kind? node with
  | some kind => exact h kind hkind
  | none => exact fun _ _ h => ⟨rfl, h⟩

/-! ### Registers -/

theorem parallel_modify {f : State → State} (hf : ∀ (t : State) scopes, f { t with scopes } = { f t with scopes })
    (hagenda : ∀ s, (f s).agenda = s.agenda) (hsnapshots : ∀ s, (f s).snapshots = s.snapshots) :
    Parallel p names (modify f) (modify f) :=
  fun s _ h => ⟨rfl, h.map hf (hagenda s ▸ h.agenda) (hsnapshots s ▸ h.snapshots)⟩

theorem parallel_schedule {items : List Item} (hitems : ∀ item ∈ items, item.NamedIn p.tree.names) :
    Parallel p names (schedule items) (schedule items) :=
  fun _ _ h => ⟨rfl, h.map (f := fun s => { s with agenda := items ++ s.agenda }) (fun _ _ => rfl)
    (List.forall_mem_append.mpr ⟨hitems, h.agenda⟩) h.snapshots⟩

theorem parallel_onStash (op : StashM α) : Parallel p names (onStash op) (onStash op) := by
  intro s s' h
  unfold onStash
  rw [h.stash]
  cases op s.stash with
  | ok a stash => exact ⟨rfl, h.map (f := fun s => { s with stash }) (fun _ _ => rfl) h.agenda h.snapshots⟩
  | error e stash => exact ⟨rfl, h.map (f := fun s => { s with stash }) (fun _ _ => rfl) h.agenda h.snapshots⟩

theorem parallel_push (v : Value) : Parallel p names (push v) (push v) :=
  parallel_onStash _

theorem parallel_pop : Parallel p names pop pop :=
  parallel_onStash _

theorem parallel_setEnv (env : Env) : Parallel p names (setEnv env) (setEnv env) :=
  parallel_modify (fun _ _ => rfl) (fun _ => rfl) fun _ => rfl

theorem parallel_onCalls (node : NodeId) (op : EStateM EvalError CallStack α) :
    Parallel p names (onCalls p node op) (onCalls (p.over names) node op) := by
  intro s s' h
  have hcalls : s'.calls = s.calls := by rw [h.others]
  have changed : ∀ calls, State.Corresponds p names { s with calls } { s' with calls } := fun calls =>
    h.map (f := fun s => { s with calls }) (fun _ _ => rfl) h.agenda h.snapshots
  unfold onCalls
  dsimp only
  rw [hcalls]
  cases op s.calls with
  | ok a calls => exact ⟨rfl, changed calls⟩
  | error e calls => exact ⟨rfl, changed calls⟩

theorem parallel_onHeap (node : NodeId) (op : EStateM Fault Heap α) :
    Parallel p names (onHeap p node op) (onHeap (p.over names) node op) := by
  intro s s' h
  have changed : ∀ heap, State.Corresponds p names { s with heap } { s' with heap } := fun heap =>
    h.map (f := fun s => { s with heap }) (fun _ _ => rfl) h.agenda h.snapshots
  unfold onHeap
  dsimp only
  rw [h.heap]
  cases op s.heap with
  | ok a heap => exact ⟨rfl, changed heap⟩
  | error e heap => exact ⟨rfl, changed heap⟩

theorem parallel_onHost (act : HostM α) (fault : HostError → EvalError) :
    Parallel p names (onHost act fault) (onHost act fault) := by
  intro s s' h
  have houtput : s'.output = s.output := by rw [h.others]
  have changed : ∀ heap output, State.Corresponds p names { s with heap, output } { s' with heap, output } :=
    fun heap output => h.map (f := fun s => { s with heap, output }) (fun _ _ => rfl) h.agenda h.snapshots
  unfold onHost
  dsimp only
  rw [h.heap, houtput]
  cases act ⟨s.heap, s.output⟩ with
  | ok a host => exact ⟨rfl, changed host.heap host.output⟩
  | error e host => exact ⟨rfl, changed host.heap host.output⟩

theorem parallel_allocate (make : Heap → Value × Heap) : Parallel p names (allocate make) (allocate make) := by
  intro s s' h
  unfold allocate
  dsimp only
  rw [h.heap]
  exact ⟨rfl, h.map (f := fun t => { t with heap := (make s.heap).2 }) (fun _ _ => rfl) h.agenda h.snapshots⟩

theorem parallel_freshIdentity : Parallel p names freshIdentity freshIdentity := by
  intro s s' h
  have hnext : s'.nextIdentity = s.nextIdentity := by rw [h.others]
  exact ⟨hnext, h.map (f := fun s => { s with nextIdentity := s.nextIdentity + 1 }) (fun _ _ => rfl) h.agenda
    h.snapshots⟩

/-- Both machines have the same clock. -/
theorem parallel_checkDeadline : Parallel p names (checkDeadline p) (checkDeadline (p.over names)) := by
  intro s s' h
  have hsteps : s'.steps = s.steps := by rw [h.others]
  have hreadings : s'.readings = s.readings := by rw [h.others]
  have hconfig : (p.over names).config = p.config := rfl
  have hclock : (p.over names).clock = p.clock := rfl
  have looked := h.map (f := fun t => { t with steps := s.steps, readings := s.readings + 1 }) (fun _ _ => rfl)
    h.agenda h.snapshots
  unfold checkDeadline
  rw [hconfig, hclock]
  cases p.config.timeLimit with
  | none => exact ⟨rfl, h⟩
  | some limit =>
    dsimp only
    rw [hreadings, hsteps]
    by_cases hlate : limit * 1000000 < p.clock s.readings
    · rw [if_pos hlate, if_pos hlate]
      exact ⟨rfl, looked⟩
    · rw [if_neg hlate, if_neg hlate]
      exact ⟨rfl, looked⟩

theorem parallel_tick : Parallel p names (tick p) (tick (p.over names)) := by
  have counted : Parallel p names (modify fun s => { s with steps := s.steps + 1 })
      (modify fun s => { s with steps := s.steps + 1 }) :=
    parallel_modify (fun _ _ => rfl) (fun _ => rfl) fun _ => rfl
  refine counted.bind fun _ => parallel_get fun s s' h => ?_
  have hsteps : s'.steps = s.steps := by rw [h.others]
  have hconfig : (p.over names).config = p.config := rfl
  dsimp only
  rw [hsteps, hconfig]
  have due : Parallel p names
      (if s.steps % max p.config.checkInterval 1 = 0 then checkDeadline p else pure ())
      (if s.steps % max p.config.checkInterval 1 = 0 then checkDeadline (p.over names) else pure ()) := by
    split
    · exact parallel_checkDeadline
    · exact parallel_pure _
  split
  · exact fun _ _ h => ⟨rfl, h⟩
  · exact due

/-! ### Frames -/

section

variable (hshare : p.tree.names.Share p.names names)
include hshare

theorem nameText_over {name : Name} (hname : p.tree.names.Holds name) :
    (p.over names).nameText name = p.nameText name :=
  hshare.lookup_eq hname

theorem parallel_onName {name : Name} (hname : p.tree.names.Holds name) (node : NodeId) {op op' : ScopeM α}
    (hop : Scopes.Parallel p.names names op op') :
    Parallel p names (onName p node name op) (onName (p.over names) node name op') := by
  intro s s' h
  have hop := hop s.scopes s'.scopes h.scopes
  have hothers : ∀ scopes : Scopes, { s' with scopes } = { s with scopes } := fun scopes => by rw [h.others]
  have changed : ∀ scopes scopes', scopes.Corresponds p.names names scopes' →
      State.Corresponds p names { s with scopes } { s' with scopes := scopes' } := fun scopes scopes' hscopes =>
    ⟨hothers scopes', hscopes, h.agenda, h.snapshots⟩
  unfold onName
  dsimp only
  rw [nameText_over hshare hname]
  cases hr : op s.scopes with
  | ok a scopes =>
    rw [hr] at hop
    cases hr' : op' s'.scopes with
    | ok a' scopes' =>
      rw [hr'] at hop
      exact ⟨hop.1, changed _ _ hop.2⟩
    | error e scopes' => rw [hr'] at hop; exact hop.elim
  | error e scopes =>
    rw [hr] at hop
    cases hr' : op' s'.scopes with
    | ok a' scopes' => rw [hr'] at hop; exact hop.elim
    | error e' scopes' =>
      rw [hr'] at hop
      obtain ⟨rfl, hscopes⟩ := hop
      exact ⟨rfl, changed _ _ hscopes⟩

omit hshare in
theorem parallel_newFrame {make : UInt32 → Scopes → Env × Scopes}
    (hmake : ∀ id (s s' : Scopes), s.Corresponds p.names names s' →
      (make id s').1 = (make id s).1 ∧ (make id s).2.Corresponds p.names names (make id s').2) :
    Parallel p names (newFrame make) (newFrame make) := by
  intro s s' h
  have hid : s'.nextEnvId = s.nextEnvId := by rw [h.others]
  have hothers : ∀ scopes id, { s' with scopes, nextEnvId := id } = { s with scopes, nextEnvId := id } :=
    fun scopes id => by rw [h.others]
  obtain ⟨henv, hscopes⟩ := hmake s.nextEnvId s.scopes s'.scopes h.scopes
  unfold newFrame
  dsimp only
  rw [hid]
  exact ⟨henv, hothers _ _, hscopes, h.agenda, h.snapshots⟩

omit hshare in
/-- A new frame without variables is the same under both tables. -/
theorem parallel_alloc {f : Frame} (hf : f.head = []) :
    Parallel p names (newFrame fun id scopes => scopes.alloc id f) (newFrame fun id scopes => scopes.alloc id f) :=
  parallel_newFrame fun id _ _ h => ⟨congrArg (Env.mk id) h.size, h.push (.empty hf)⟩

end

/-! ## 4. Evaluating a node -/

section

variable {own : NameTable}

theorem namedIn_node (id : NodeId) : (Item.node id).NamedIn own :=
  fun _ h => absurd h List.not_mem_nil

theorem namedIn_instr {i : Instr} (h : i.names = []) : (Item.instr i).NamedIn own :=
  fun _ hname => by
    have hname : _ ∈ i.names := hname
    rw [h] at hname
    exact absurd hname List.not_mem_nil

theorem namedIn_ofStatements (body : List NodeId) : ∀ item ∈ ofStatements body, item.NamedIn own :=
  forall_mem_ofStatements (fun id _ => namedIn_node id) (namedIn_instr rfl) (namedIn_instr rfl)

theorem namedIn_nodes (ids : List NodeId) : ∀ item ∈ ids.map Item.node, item.NamedIn own := by
  intro item hitem
  obtain ⟨id, -, rfl⟩ := List.mem_map.mp hitem
  exact namedIn_node id

theorem namedIn_loopTest (test : Option NodeId) : (loopTest test).NamedIn own := by
  cases test with
  | none => exact namedIn_instr rfl
  | some id => exact namedIn_node id

theorem namedIn_keyItem (p : Setting) (property : MemberProperty) : (keyItem p property).NamedIn own := by
  cases property with
  | named name => exact namedIn_instr rfl
  | computed key => exact namedIn_node key

/-- What comes before a statement of which only the value is dropped. -/
theorem namedIn_dropped (id : Option NodeId) :
    ∀ item ∈ (id.map fun id => [Item.node id, .instr .pop]).getD [], item.NamedIn own := by
  cases id with
  | none => exact List.forall_mem_nil _
  | some id => exact List.forall_mem_cons.mpr ⟨namedIn_node id, List.forall_mem_singleton.mpr (namedIn_instr rfl)⟩

end

section

variable (hshare : p.tree.names.Share p.names names) (hnames : p.tree.HoldsNames)

theorem parallel_enterScope (name : String) : Parallel p names (enterScope name) (enterScope name) := by
  have entered : ∀ env, Parallel p names (newFrame (fun id scopes => scopes.child env id name) >>= setEnv)
      (newFrame (fun id scopes => scopes.child env id name) >>= setEnv) :=
    fun env => (parallel_alloc rfl).bind parallel_setEnv
  refine parallel_get fun s s' h => parallel_get fun t t' ht => ?_
  dsimp only
  rw [h.env, ht.agenda_eq]
  split
  · exact entered _
  · exact (parallel_schedule (List.forall_mem_singleton.mpr (namedIn_instr rfl))).bind fun _ => entered _

include hshare hnames

theorem parallel_declareAll (body : List NodeId) :
    Parallel p names (declareAll p body) (declareAll (p.over names) body) := by
  refine parallel_forM fun d hd => parallel_get fun s s' h => ?_
  have hname := hnames.declarations hd
  rw [h.env]
  exact parallel_onName hshare hname d.1 (Scopes.parallel_addSlot hshare hname s.env _)

theorem parallel_evalBlock (body : List NodeId) (name : String) :
    Parallel p names (evalBlock p body name) (evalBlock (p.over names) body name) := by
  have htree : (p.over names).tree = p.tree := rfl
  have work : Parallel p names (schedule (ofStatements body)) (schedule (ofStatements body)) :=
    parallel_schedule (namedIn_ofStatements body)
  unfold evalBlock
  rw [htree]
  dsimp only
  split
  · exact (parallel_enterScope name).bind fun _ => (parallel_declareAll hshare hnames body).bind fun _ => work
  · exact work

omit hshare hnames in
theorem parallel_evalReturn (argument : Option NodeId) :
    Parallel p names (evalReturn argument) (evalReturn argument) := by
  have hvalue : ((argument.map Item.node).getD (.instr (.push .undefined))).NamedIn p.tree.names := by
    cases argument with
    | none => exact namedIn_instr rfl
    | some id => exact namedIn_node id
  refine parallel_get fun s s' h => ?_
  rw [h.agenda_eq]
  split
  · refine fun t t' ht => ⟨rfl, ht.map (f := fun s => { s with agenda := _ :: unwindCall s.agenda }) (fun _ _ => rfl) ?_
      ht.snapshots⟩
    exact List.forall_mem_cons.mpr ⟨hvalue, fun item hitem => ht.agenda item ((unwindCall_suffix _).subset hitem)⟩
  · exact parallel_schedule (List.forall_mem_cons.mpr ⟨hvalue, List.forall_mem_singleton.mpr (namedIn_instr rfl)⟩)

theorem parallel_evalFor (id : NodeId) (init test update : Option NodeId) (body : NodeId) :
    Parallel p names (evalFor p id init test update body) (evalFor (p.over names) id init test update body) := by
  have work : ∀ vars : List Name, (∀ name ∈ vars, p.tree.names.Holds name) → Parallel p names
      (schedule (forItems id init test update body vars)) (schedule (forItems id init test update body vars)) := by
    intro vars hvars
    refine parallel_schedule (List.forall_mem_append.mpr ⟨namedIn_dropped init, ?_⟩)
    simp only [List.forall_mem_cons]
    exact ⟨hvars, namedIn_instr rfl, namedIn_loopTest test, hvars, namedIn_instr rfl, List.forall_mem_nil _⟩
  have hdeclaration : loopDeclaration (p.over names) init = loopDeclaration p init := rfl
  unfold evalFor
  rw [hdeclaration]
  cases hd : loopDeclaration p init with
  | none => exact work [] fun _ h => absurd h List.not_mem_nil
  | some d =>
    obtain ⟨node, name, kind⟩ := d
    have hname : p.tree.names.Holds name := by
      obtain ⟨c, -, hc⟩ := Option.bind_eq_some_iff.mp hd
      split at hc
      next hkind => cases hc; exact hnames _ _ hkind name List.mem_cons_self
      next => cases hc
    refine (parallel_enterScope "for").bind fun _ => parallel_get fun s s' h => ?_
    rw [h.env]
    refine (parallel_onName hshare hname node (Scopes.parallel_addSlot hshare hname s.env _)).bind fun _ => ?_
    exact work [name] (List.forall_mem_singleton.mpr hname)

omit hshare in
theorem parallel_evalCall (id callee : NodeId) (args : List NodeId) :
    Parallel p names (evalCall p id callee args) (evalCall (p.over names) id callee args) := by
  have arguments : ∀ hasReceiver, ∀ item ∈ args.map Item.node ++ [.instr (.apply args.length hasReceiver id)],
      item.NamedIn p.tree.names := fun _ =>
    List.forall_mem_append.mpr ⟨namedIn_nodes args, List.forall_mem_singleton.mpr (namedIn_instr rfl)⟩
  refine parallel_kindOf_bind fun kind hkind => ?_
  split
  next object name =>
    have hname : (Item.instr (.methodLookup (some name) callee)).NamedIn p.tree.names :=
      fun n hn => hnames callee _ hkind n hn
    exact parallel_schedule (by
      simp only [List.forall_mem_cons]
      exact ⟨namedIn_node _, hname, arguments true⟩)
  next object key =>
    exact parallel_schedule (by
      simp only [List.forall_mem_cons]
      exact ⟨namedIn_node _, namedIn_node _, namedIn_instr rfl, arguments true⟩)
  next => exact parallel_schedule (List.forall_mem_cons.mpr ⟨namedIn_node _, arguments false⟩)

omit hnames in
theorem parallel_evalIdentifier (id : NodeId) {name : Name} (hname : p.tree.names.Holds name) :
    Parallel p names (evalIdentifier p id name) (evalIdentifier (p.over names) id name) := by
  refine parallel_get fun s s' h => parallel_get fun t t' ht => ?_
  rw [ht.env, h.scopes.lookup hshare hname, nameText_over hshare hname]
  split
  · exact parallel_push _
  · exact parallel_failAt id _

omit hnames in
theorem keyItem_over {property : MemberProperty} (hproperty : ∀ name ∈ property.names, p.tree.names.Holds name) :
    keyItem (p.over names) property = keyItem p property := by
  cases property with
  | named name => rw [keyItem, keyItem, nameText_over hshare (hproperty name List.mem_cons_self)]
  | computed key => rfl

theorem parallel_evalKind {id : NodeId} {kind : NodeKind} (hkind : p.tree.kind? id = some kind) :
    Parallel p names (evalKind p id kind) (evalKind (p.over names) id kind) := by
  have named := hnames id kind hkind
  have scheduled : ∀ {items : List Item}, (∀ item ∈ items, item.NamedIn p.tree.names) →
      Parallel p names (schedule items) (schedule items) := parallel_schedule
  cases kind with
  | program body =>
    exact (scheduled (List.forall_mem_singleton.mpr (namedIn_instr rfl))).bind fun _ =>
      parallel_evalBlock hshare hnames body "program"
  | block body => exact parallel_evalBlock hshare hnames body "block"
  | returnStatement argument => exact parallel_evalReturn argument
  | forLoop init test update body => exact parallel_evalFor hshare hnames id init test update body
  | debuggerStatement => exact parallel_push _
  | literal literal => exact parallel_push _
  | identifier name => exact parallel_evalIdentifier hshare id (named name List.mem_cons_self)
  | this =>
    refine parallel_get fun s s' h => parallel_get fun t t' ht => ?_
    rw [ht.env, h.scopes.receiver?]
    exact parallel_push _
  | function name params code =>
    refine (parallel_freshIdentity.bind fun identity => parallel_get fun s s' h => ?_).bind fun v => parallel_push v
    rw [h.env]
    exact parallel_pure _
  | call callee args => exact parallel_evalCall hnames id callee args
  | declaration k name init =>
    exact scheduled (List.forall_mem_cons.mpr ⟨namedIn_node _, List.forall_mem_singleton.mpr named⟩)
  | functionDeclaration name declared =>
    exact scheduled (List.forall_mem_cons.mpr ⟨namedIn_node _, List.forall_mem_singleton.mpr named⟩)
  | assignment name value =>
    exact scheduled (List.forall_mem_cons.mpr ⟨namedIn_node _, List.forall_mem_singleton.mpr named⟩)
  | arrayLiteral elements =>
    exact scheduled (List.forall_mem_append.mpr ⟨namedIn_nodes elements,
      List.forall_mem_singleton.mpr (namedIn_instr rfl)⟩)
  | objectLiteral properties =>
    refine scheduled (List.forall_mem_append.mpr ⟨fun item hitem => ?_, List.forall_mem_singleton.mpr named⟩)
    obtain ⟨property, -, rfl⟩ := List.mem_map.mp hitem
    exact namedIn_node _
  | member object property =>
    show Parallel p names _ (schedule [.node object, keyItem (p.over names) property, .instr (.memberGet id)])
    rw [keyItem_over hshare named]
    refine scheduled ?_
    simp only [List.forall_mem_cons]
    exact ⟨namedIn_node _, namedIn_keyItem p property, namedIn_instr rfl, List.forall_mem_nil _⟩
  | memberAssignment object property value =>
    show Parallel p names _
      (schedule [.node object, keyItem (p.over names) property, .node value, .instr (.memberSet id)])
    rw [keyItem_over hshare named]
    refine scheduled ?_
    simp only [List.forall_mem_cons]
    exact ⟨namedIn_node _, namedIn_keyItem p property, namedIn_node _, namedIn_instr rfl, List.forall_mem_nil _⟩
  | whileLoop test body =>
    refine scheduled ?_
    simp only [List.forall_mem_cons]
    exact ⟨namedIn_instr rfl, namedIn_node _, namedIn_instr rfl, namedIn_instr rfl, List.forall_mem_nil _⟩
  | binary op left right =>
    refine scheduled ?_
    simp only [List.forall_mem_cons]
    exact ⟨namedIn_node _, namedIn_node _, namedIn_instr rfl, List.forall_mem_nil _⟩
  | expressionStatement expr => exact scheduled (List.forall_mem_singleton.mpr (namedIn_node _))
  | breakStatement => exact scheduled (List.forall_mem_singleton.mpr (namedIn_instr rfl))
  | continueStatement => exact scheduled (List.forall_mem_singleton.mpr (namedIn_instr rfl))
  | _ => exact scheduled (List.forall_mem_cons.mpr ⟨namedIn_node _, List.forall_mem_singleton.mpr (namedIn_instr rfl)⟩)

end

/-! ## 5. Jumps, conditions and calls -/

theorem parallel_reset : Parallel p names (modify fun s => { s with agenda := unwindCall s.agenda })
    (modify fun s => { s with agenda := unwindCall s.agenda }) :=
  fun _ _ h => ⟨rfl, h.map (f := fun s => { s with agenda := unwindCall s.agenda }) (fun _ _ => rfl)
    (fun item hitem => h.agenda item ((unwindCall_suffix _).subset hitem)) h.snapshots⟩

theorem parallel_leaveLoop (target : Marker) (keyword : String) {again : Instr} (hagain : again.names = [])
    (node : NodeId) :
    Parallel p names (leaveLoop p target keyword again node) (leaveLoop (p.over names) target keyword again node) := by
  intro s s' h
  have hagenda := h.agenda_eq
  cases hsearch : searchLoop target s.agenda with
  | reached rest =>
    rw [leaveLoop_reached p hsearch, leaveLoop_reached (p.over names) (hagenda ▸ hsearch), h.stash]
    exact ⟨rfl, h.map (f := fun t => { t with agenda := rest, stash := .undefined :: s.stash }) (fun _ _ => rfl)
      (fun item hitem => h.agenda item ((suffix_of_searchLoop_reached hsearch).subset hitem)) h.snapshots⟩
  | scope item rest =>
    rw [leaveLoop_scope p hsearch, leaveLoop_scope (p.over names) (hagenda ▸ hsearch)]
    obtain ⟨hitem, hrest⟩ := List.forall_mem_cons.mp fun next hnext =>
      h.agenda next ((suffix_of_searchLoop_scope hsearch).subset hnext)
    exact ⟨rfl, h.map (f := fun t => { t with agenda := item :: .instr again :: rest }) (fun _ _ => rfl)
      (List.forall_mem_cons.mpr ⟨hitem, List.forall_mem_cons.mpr ⟨namedIn_instr hagain, hrest⟩⟩) h.snapshots⟩
  | outside =>
    rw [leaveLoop_outside p hsearch, leaveLoop_outside (p.over names) (hagenda ▸ hsearch)]
    exact parallel_failAt node _ s s' h

theorem parallel_branch (consequent : NodeId) (alternate : Option NodeId) (node : NodeId) :
    Parallel p names (branch p consequent alternate node) (branch (p.over names) consequent alternate node) := by
  have chosen : ∀ id, Parallel p names (schedule [.node id]) (schedule [.node id]) := fun id =>
    parallel_schedule (List.forall_mem_singleton.mpr (namedIn_node id))
  refine parallel_pop.bind fun test => (parallel_orFailAt node _).bind fun truth => ?_
  split
  · exact chosen consequent
  · cases alternate with
    | none => exact parallel_push _
    | some id => exact chosen id

theorem parallel_logical (op : LogicalOp) (right node : NodeId) :
    Parallel p names (logical p op right node) (logical (p.over names) op right node) := by
  refine parallel_pop.bind fun left => (parallel_orFailAt node _).bind fun truth => ?_
  split
  · exact parallel_push left
  · exact parallel_schedule (List.forall_mem_singleton.mpr (namedIn_node right))

theorem parallel_enterCall (node : NodeId) (frame : CallFrame) :
    Parallel p names (enterCall p node frame) (enterCall (p.over names) node frame) := by
  refine parallel_get fun s s' h => ?_
  rw [h.agenda_eq]
  split
  · exact parallel_modify (fun _ _ => rfl) (fun _ => rfl) fun _ => rfl
  · refine (parallel_onCalls node _).bind fun _ => fun t t' ht => ⟨rfl, ht.map
      (f := fun s => { s with agenda := closeWithNext s.agenda }) (fun _ _ => rfl) ?_ ht.snapshots⟩
    have named := ht.agenda
    dsimp only
    unfold closeWithNext
    split
    next heq =>
      rw [heq, List.forall_mem_cons] at named
      exact List.forall_mem_cons.mpr ⟨namedIn_instr rfl, named.2⟩
    next => exact named
  · refine (parallel_onCalls node _).bind fun _ => fun t t' ht => ⟨rfl, ht.map
      (f := fun s => { s with agenda := .instr (.restore s.env true) :: s.agenda }) (fun _ _ => rfl) ?_ ht.snapshots⟩
    exact List.forall_mem_cons.mpr ⟨namedIn_instr rfl, ht.agenda⟩

section

variable (hshare : p.tree.names.Share p.names names)

theorem parallel_applyHost (f : HostFunction) (args : List Value) (receiver : Option Value) (node : NodeId) :
    Parallel p names (applyHost p f args receiver node) (applyHost (p.over names) f args receiver node) := by
  have called : ∀ fault, Parallel p names (onHost (hostBody p f.action receiver args) fault >>= push)
      (onHost (hostBody (p.over names) f.action receiver args) fault >>= push) :=
    fun fault => (parallel_onHost _ fault).bind parallel_push
  unfold applyHost
  dsimp only
  split
  · exact (parallel_failAt node _).bind fun _ => called _
  · exact called _

theorem parallel_invoke (k : Nat) (args : List Value) (node : NodeId) :
    Parallel p names (invoke p k args node) (invoke (p.over names) k args node) := by
  intro s s' h
  by_cases harity : 1 < args.length
  · rw [invoke_of_arity harity, invoke_of_arity harity]
    exact parallel_failAt node _ s s' h
  have hsnapshots := h.snapshots_eq
  cases hk : s.snapshots[k]? with
  | none =>
    rw [invoke_of_missing harity hk, invoke_of_missing harity (hsnapshots ▸ hk)]
    exact parallel_failAt node _ s s' h
  | some kept =>
    rw [invoke_of_kept harity hk, invoke_of_kept harity (hsnapshots ▸ hk)]
    exact ⟨rfl, h.map (f := fun s => { s with
        agenda := kept.agenda
        stash := args.head?.getD .undefined :: kept.stash
        env := kept.env
        calls := kept.calls }) (fun _ _ => rfl) (h.snapshots kept (Array.mem_of_getElem? hk)) h.snapshots⟩

/-- What follows is given a continuation, which has no name of its own. -/
theorem parallel_capture_bind {f g : Value → MachineM α}
    (hfg : ∀ k, Parallel p names (f (.continuation k)) (g (.continuation k))) :
    Parallel p names (capture >>= f) (capture >>= g) := by
  intro s s' h
  have captured := h.map (f := State.captured) (fun _ _ => rfl) h.agenda fun k hk => by
    obtain hk | rfl := Array.mem_push.mp hk
    · exact h.snapshots k hk
    · exact h.agenda
  have hnumber : s'.snapshots.size = s.snapshots.size := by rw [h.snapshots_eq]
  show SameEnd p names (f (.continuation s.snapshots.size) s.captured) (g (.continuation s'.snapshots.size) s'.captured)
  rw [hnumber]
  exact hfg _ _ _ captured

include hshare

theorem valueName_over {v : Value} (hv : v.NamedIn p.tree.names) : valueName (p.over names) v = valueName p v := by
  cases v with
  | closure identity f =>
    cases hname : f.name with
    | none => simp only [valueName, hname, Option.map_none]
    | some name =>
      have := nameText_over hshare (hv name (by rw [Value.names, hname]; exact List.mem_cons_self))
      simp only [valueName, hname, Option.map_some, this]
  | _ => rfl

theorem calleeName_over (hnames : p.tree.HoldsNames) (node : NodeId) {v : Value} (hv : v.NamedIn p.tree.names) :
    calleeName (p.over names) node v = calleeName p node v := by
  have htree : (p.over names).tree = p.tree := rfl
  have text : ∀ {id kind}, p.tree.kind? id = some kind → ∀ name ∈ kind.names,
      (p.over names).nameText name = p.nameText name := fun hkind name hname =>
    nameText_over hshare (hnames _ _ hkind name hname)
  unfold calleeName
  rw [htree, valueName_over hshare hv]
  split
  · split
    next hkind => exact text hkind _ List.mem_cons_self
    next hkind =>
      rw [text hkind _ List.mem_cons_self]
      split
      next hobject => rw [text hobject _ List.mem_cons_self]
      next => rfl
    next => rfl
  · rfl

theorem parallel_closureFrame (hnames : p.tree.HoldsNames) {f : Closure}
    (hf : ∀ name ∈ f.name, p.tree.names.Holds name) {params : List Name}
    (hparams : ∀ name ∈ params, p.tree.names.Holds name) (args : List Value) (receiver : Option Value) (node : NodeId)
    (code : FunctionBody) :
    Parallel p names (closureFrame p f params args receiver node code)
      (closureFrame (p.over names) f params args receiver node code) := by
  have hlabel : f.name.map (p.over names).nameText = f.name.map p.nameText :=
    Option.map_congr fun name hname => nameText_over hshare (hf name hname)
  unfold closureFrame
  dsimp only
  rw [hlabel]
  have made : ∀ label, Parallel p names (newFrame fun id scopes => scopes.call f.env id label node receiver)
      (newFrame fun id scopes => scopes.call f.env id label node receiver) := fun label =>
    parallel_newFrame fun id _ _ h => ⟨congrArg (Env.mk id) h.size, h.push (.empty rfl)⟩
  refine (made _).bind fun env => (parallel_forM fun pair hpair => ?_).bind fun _ =>
    (parallel_setEnv env).bind fun _ => ?_
  · have hname := hparams pair.1 (List.of_mem_zip hpair).1
    exact parallel_onName hshare hname node (Scopes.parallel_addSlot hshare hname env _)
  · cases code with
    | expression expr => exact parallel_pure _
    | block statements => exact parallel_declareAll hshare hnames statements

omit hshare in
theorem namedIn_bodyItems {own : NameTable} (code : FunctionBody) : ∀ item ∈ bodyItems code, item.NamedIn own := by
  cases code with
  | expression expr => exact List.forall_mem_singleton.mpr (namedIn_node expr)
  | block statements =>
    exact List.forall_mem_append.mpr
      ⟨namedIn_ofStatements statements, List.forall_mem_singleton.mpr (namedIn_instr rfl)⟩

theorem parallel_applyClosure (hnames : p.tree.HoldsNames) {f : Closure}
    (hf : ∀ name ∈ f.name, p.tree.names.Holds name) (args : List Value) (receiver : Option Value) (node : NodeId)
    (name : String) :
    Parallel p names (applyClosure p f args receiver node name)
      (applyClosure (p.over names) f args receiver node name) := by
  cases hkind : p.tree.kind? f.node with
  | none =>
    have hkind' : (p.over names).tree.kind? f.node = none := hkind
    unfold applyClosure
    rw [hkind, hkind']
    exact parallel_failAt node _
  | some kind =>
    have hkind' : (p.over names).tree.kind? f.node = some kind := hkind
    cases kind with
    | function fname params code =>
      by_cases harity : params.length = args.length
      · rw [applyClosure_eq hkind harity, applyClosure_eq hkind' harity]
        have hparams : ∀ n ∈ params, p.tree.names.Holds n := fun n hn =>
          hnames f.node _ hkind n (List.mem_append_right _ hn)
        exact (parallel_enterCall node _).bind fun _ =>
          (parallel_closureFrame hshare hnames hf hparams args receiver node code).bind fun _ =>
            parallel_schedule (namedIn_bodyItems code)
      · rw [applyClosure_arity hkind harity, applyClosure_arity hkind' harity]
        exact parallel_failAt node _
    | _ =>
      unfold applyClosure
      rw [hkind, hkind']
      exact parallel_failAt node _

theorem parallel_applyPlain (hnames : p.tree.HoldsNames) {callee : Value} (hcallee : callee.NamedIn p.tree.names)
    (args : List Value) (receiver : Option Value) (node : NodeId) (name : String) :
    Parallel p names (applyPlain p callee args receiver node name)
      (applyPlain (p.over names) callee args receiver node name) := by
  cases callee with
  | closure identity f =>
    exact parallel_applyClosure hshare hnames (fun n hn => hcallee n (Option.mem_toList.mpr hn)) args receiver node name
  | host identity f => exact parallel_applyHost f args receiver node
  | continuation k => exact parallel_invoke k args node
  | _ => exact parallel_failAt node _

theorem parallel_applyCallCc (hnames : p.tree.HoldsNames) {args : List Value}
    (hargs : ∀ v ∈ args, v.NamedIn p.tree.names) (node : NodeId) :
    Parallel p names (applyCallCc p args node) (applyCallCc (p.over names) args node) := by
  rcases args with _ | ⟨function, _ | ⟨second, rest⟩⟩
  · exact parallel_failAt node _
  · have hfunction := hargs function List.mem_cons_self
    have given : ∀ k : Value, Parallel p names (applyPlain p function [k] none node (valueName p function))
        (applyPlain (p.over names) function [k] none node (valueName (p.over names) function)) := fun k => by
      rw [valueName_over hshare hfunction]
      exact parallel_applyPlain hshare hnames hfunction [k] none node _
    refine parallel_capture_bind fun k => ?_
    cases function with
    | callCc => exact parallel_capture_bind fun k' => parallel_invoke k [.continuation k'] node
    | _ => exact given _
  · exact parallel_failAt node _

theorem parallel_applyValue (hnames : p.tree.HoldsNames) {callee : Value} (hcallee : callee.NamedIn p.tree.names)
    {args : List Value} (hargs : ∀ v ∈ args, v.NamedIn p.tree.names) (receiver : Option Value) (node : NodeId) :
    Parallel p names (applyValue p callee args receiver node)
      (applyValue (p.over names) callee args receiver node) := by
  have plain : Parallel p names (applyPlain p callee args receiver node (calleeName p node callee))
      (applyPlain (p.over names) callee args receiver node (calleeName (p.over names) node callee)) := by
    rw [calleeName_over hshare hnames node hcallee]
    exact parallel_applyPlain hshare hnames hcallee args receiver node _
  refine parallel_checkDeadline.bind fun _ => ?_
  cases callee with
  | callCc => exact parallel_applyCallCc hshare hnames hargs node
  | _ => exact plain

/-- The operands of a call come from the stash, where all values are named in the tree. -/
theorem parallel_apply (hnames : p.tree.HoldsNames) (arity : Nat) (hasReceiver : Bool) (node : NodeId) {s s' : State}
    (h : s.Corresponds p names s') (hs : s.All (Value.NamedIn p.tree.names)) :
    SameEnd p names (apply p arity hasReceiver node s) (apply (p.over names) arity hasReceiver node s') := by
  rw [apply_eq, apply_eq]
  refine (parallel_onStash _ s s' h).bind (all_popN arity hs.stash) fun args t t' ht hargs => ?_
  refine (parallel_pop t t' ht).bind (all_pop hargs.2) fun callee u u' hu hcallee => ?_
  have applied : ∀ receiver, Parallel p names (applyValue p callee args receiver node)
      (applyValue (p.over names) callee args receiver node) := fun receiver =>
    parallel_applyValue hshare hnames hcallee.1 hargs.1 receiver node
  cases hasReceiver with
  | false => exact applied none u u' hu
  | true => exact ((parallel_pop.map some).bind applied) u u' hu

end

/-! ## 6. Items -/

section

variable (hshare : p.tree.names.Share p.names names)
include hshare

theorem parallel_execInstr {i : Instr} (hi : (Item.instr i).NamedIn p.tree.names)
    (happly : ∀ arity hasReceiver node, i ≠ .apply arity hasReceiver node) :
    Parallel p names (execInstr p i) (execInstr (p.over names) i) := by
  have found : ∀ (node : NodeId) (r : Except Fault Value), Parallel p names (orFailAt p node r >>= push)
      (orFailAt (p.over names) node r >>= push) := fun node r => (parallel_orFailAt node r).bind parallel_push
  cases i with
  | apply arity hasReceiver node => exact absurd rfl (happly arity hasReceiver node)
  | reset => exact parallel_reset
  | marker m =>
    cases m with
    | call => exact parallel_onStash _
    | loopEnd => exact parallel_pure _
    | tripEnd => exact parallel_pure _
  | pop => exact parallel_pop.bind fun _ => parallel_pure _
  | push v => exact parallel_push v
  | pushUndefinedIfNeeded =>
    refine parallel_get fun s s' h => ?_
    rw [h.stash]
    split
    · exact parallel_push _
    · exact parallel_pure _
  | assign name node =>
    have hname := hi name List.mem_cons_self
    refine (parallel_onStash _).bind fun v => parallel_get fun s s' h => ?_
    rw [h.env]
    exact parallel_onName hshare hname node (Scopes.parallel_assign hshare hname s.env v)
  | declare name node =>
    have hname := hi name List.mem_cons_self
    refine parallel_pop.bind fun v => parallel_get fun s s' h => ?_
    rw [h.env]
    exact (parallel_onName hshare hname node (Scopes.parallel_fill hshare hname s.env v)).bind fun _ => parallel_push _
  | unary op node => exact parallel_pop.bind fun v => found node _
  | binary op node =>
    refine parallel_pop.bind fun right => parallel_pop.bind fun left => parallel_get fun s s' h => ?_
    rw [h.heap]
    exact found node _
  | logical op right node => exact parallel_logical op right node
  | branch consequent alternate node => exact parallel_branch consequent alternate node
  | restore env closesCall =>
    refine (parallel_setEnv env).bind fun _ => ?_
    split
    · exact parallel_modify (fun _ _ => rfl) (fun _ => rfl) fun _ => rfl
    · exact parallel_pure _
  | whileTest test body node =>
    refine parallel_pop.bind fun v => (parallel_orFailAt node _).bind fun truth => ?_
    split
    · refine parallel_schedule ?_
      simp only [List.forall_mem_cons]
      exact ⟨namedIn_instr rfl, namedIn_node _, namedIn_instr rfl, namedIn_node _, namedIn_instr rfl,
        List.forall_mem_nil _⟩
    · exact parallel_pure _
  | forTest test update body vars node =>
    refine parallel_pop.bind fun v => (parallel_orFailAt node _).bind fun truth => ?_
    split
    · refine parallel_schedule
        (List.forall_mem_append.mpr ⟨List.forall_mem_append.mpr ⟨?_, namedIn_dropped update⟩, ?_⟩)
      · simp only [List.forall_mem_cons]
        exact ⟨namedIn_instr rfl, namedIn_node _, namedIn_instr rfl, hi, List.forall_mem_nil _⟩
      · exact List.forall_mem_cons.mpr ⟨namedIn_loopTest test, List.forall_mem_singleton.mpr hi⟩
    · exact parallel_pure _
  | freshTrip vars =>
    simp only [execInstr]
    split
    · exact parallel_pure _
    · refine parallel_get fun s s' h => ?_
      rw [h.env]
      exact (parallel_newFrame fun id _ _ h => h.copyBindings hshare hi s.env id).bind parallel_setEnv
  | breakLoop node => exact parallel_leaveLoop _ _ rfl node
  | continueLoop node => exact parallel_leaveLoop _ _ rfl node
  | makeArray size node =>
    exact (parallel_onStash _).bind fun vs => (parallel_allocate _).bind parallel_push
  | makeObject keys node =>
    have hkeys : keys.map (p.over names).nameText = keys.map p.nameText :=
      List.map_congr_left fun name hname => nameText_over hshare (hi name hname)
    refine (parallel_onStash _).bind fun vs => ?_
    rw [hkeys]
    exact (parallel_allocate _).bind parallel_push
  | memberGet node =>
    refine parallel_pop.bind fun key => parallel_pop.bind fun object => parallel_get fun s s' h => ?_
    rw [h.heap]
    exact found node _
  | memberSet node =>
    exact parallel_pop.bind fun v => parallel_pop.bind fun key => parallel_pop.bind fun object =>
      (parallel_onHeap node _).bind fun _ => parallel_push v
  | methodLookup property node =>
    have looked : ∀ key : Value, Parallel p names
        (onStash Stash.peek >>= fun object => get >>= fun s =>
          orFailAt p node (findMethod p s.heap object key) >>= push)
        (onStash Stash.peek >>= fun object =>
          get >>= fun s => orFailAt (p.over names) node (findMethod (p.over names) s.heap object key) >>= push) := by
      refine fun key => (parallel_onStash _).bind fun object => parallel_get fun s s' h => ?_
      rw [h.heap]
      exact found node _
    cases property with
    | some name =>
      show Parallel p names _ (pure (Value.string ((p.over names).nameText name)) >>= _)
      rw [nameText_over hshare (hi name List.mem_cons_self)]
      exact (parallel_pure _).bind looked
    | none => exact parallel_pop.bind looked

/-- One step of both machines. -/
theorem parallel_execute (hnames : p.tree.HoldsNames) {item : Item} (hitem : item.NamedIn p.tree.names) {s s' : State}
    (h : s.Corresponds p names s') (hs : s.All (Value.NamedIn p.tree.names)) :
    SameEnd p names (execute p item s) (execute (p.over names) item s') := by
  have hcount : Ensures (tick p) s (fun _ t => t.All (Value.NamedIn p.tree.names)) fun _ _ => True :=
    ensures_tick (fun _ _ => { hs with }) fun _ _ _ => trivial
  refine (parallel_tick s s' h).bind hcount fun _ t t' ht hall => ?_
  cases item with
  | node id =>
    have evaluated : Parallel p names (evalNode p id) (evalNode (p.over names) id) :=
      parallel_kindOf_bind fun kind hkind => parallel_evalKind hshare hnames hkind
    have noted : Parallel p names (modify fun s => { s with current := some id })
        (modify fun s => { s with current := some id }) :=
      parallel_modify (fun _ _ => rfl) (fun _ => rfl) fun _ => rfl
    exact (noted.bind fun _ => evaluated) t t' ht
  | instr i =>
    by_cases happly : ∃ arity hasReceiver node, i = .apply arity hasReceiver node
    · obtain ⟨arity, hasReceiver, node, rfl⟩ := happly
      exact parallel_apply hshare hnames arity hasReceiver node ht hall
    · exact parallel_execInstr hshare hitem (fun arity hasReceiver node heq => happly ⟨_, _, _, heq⟩) t t' ht

end

end Machine

end ExplicitControl
