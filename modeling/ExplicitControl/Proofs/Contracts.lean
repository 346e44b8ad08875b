import ExplicitControl.Proofs.Declarations
import ExplicitControl.Proofs.InTree
import ExplicitControl.Proofs.Turns

/-!
# Contracts of operations

A contract says what holds of every value and of every pending item on the way, what else holds of the registers, and
which errors may come of it.  It is to allow what no operation can help, be it values of the wrong kind or a stash that
runs out, placed at certain nodes or not placed at all; and it has to hold of new values that are inert and of
continuations that have been captured.  Then the parts of the machine keep it, up to a whole instruction and to the
evaluation of a node, if it holds of the closure that this may make.  Two kinds of errors have to be allowed where they
occur: recording a call may overflow, and a write may come upon an object in use.  Where closures and continuations
come from, that nothing outside the tree is ever looked for, what fails in one way only, or where: each of these is
found out by a choice of the contract.
-/

namespace ExplicitControl

/-- The same node has been evaluated last, and errors tell as much of the calls, now and after a jump. -/
structure State.SameTrace (s s' : State) : Prop where
  current : s'.current = s.current
  calls : s'.calls.traceFrames = s.calls.traceFrames
  snapshots : s'.snapshots = s.snapshots

structure Refers (t : Tree) (spot : NodeId → Prop) (value : Nat → Value → Prop) : Prop where
  node : ∀ {id}, spot id → t.Has id
  closure : ∀ {n identity f}, value n (.closure identity f) →
    ∃ name params body, t.kind? f.node = some (.function name params body)
  continuation : ∀ {n k}, value n (.continuation k) → k < n

namespace Machine

/-- What holds, with `n` captured continuations, of values and of pending items; what else holds of the registers;
which errors are allowed; and at which nodes work may be pending and errors may be placed. -/
structure Contract (p : Setting) where
  value : (n : Nat) → Value → Prop
  item : (n : Nat) → Item → Prop
  also : State → Prop
  allows : EvalError → Prop
  spot : NodeId → Prop
  value_mono : ∀ {n n' v}, n ≤ n' → value n v → value n' v
  item_mono : ∀ {n n' it}, n ≤ n' → item n it → item n' it
  inert : ∀ {n} (v : Value), v.isInert = true → value n v
  continuation : ∀ {n k}, k < n → value n (.continuation k)
  spot_of_has : ∀ {id}, p.tree.Has id → spot id
  item_node : ∀ {n id}, spot id → item n (.node id)
  item_instr : ∀ {n} {i : Instr}, (∀ id ∈ i.nodes, spot id) → (∀ v, i = .push v → value n v) → item n (.instr i)
  same : ∀ {s s' : State}, also s → s.SameTrace s' → also s'
  captured : ∀ {s : State}, also s → also { s with snapshots := s.snapshots.push ⟨s.agenda, s.stash, s.env, s.calls⟩ }
  resumed : ∀ {s : State} {k : Snapshot}, also s → k ∈ s.snapshots → also { s with calls := k.calls }
  bare : ∀ {fault : Fault}, fault.isOrdinary = true → allows (.ofFault fault)
  placed : ∀ {fault : Fault} {id}, fault.isOrdinary = true → spot id →
    allows ((EvalError.ofFault fault).locate id (p.tree.span id))
  /-- What a number stands for may be missing, or never is. -/
  missing : (∀ {message id}, spot id →
    allows ((EvalError.ofFault (.malformedTree message)).locate id (p.tree.span id))) ∨ Refers p.tree spot value

variable {p : Setting}

/-- Where anything goes for values, items and registers, it is errors that matter. -/
def Contract.ofErrors (p : Setting) (allows : EvalError → Prop)
    (ordinary : ∀ e : EvalError, (e.fault.isOrdinary = true ∨ ∃ message, e.fault = .malformedTree message) → allows e) :
    Contract p where
  value _ _ := True
  item _ _ := True
  also _ := True
  allows := allows
  spot _ := True
  value_mono _ h := h
  item_mono _ h := h
  inert _ _ := trivial
  continuation _ := trivial
  spot_of_has _ := trivial
  item_node _ := trivial
  item_instr _ _ := trivial
  same _ _ := trivial
  captured _ := trivial
  resumed _ _ := trivial
  bare h := ordinary _ (.inl h)
  placed h _ := ordinary _ (.inl h)
  missing := .inl fun _ => ordinary _ (.inr ⟨_, rfl⟩)

/-- The functions of the host keep to the contract; the embedder's may pass on any error of evaluation. -/
structure Contract.Hosted (C : Contract p) : Prop where
  keeps : ∀ n, p.Keeps (C.value n)
  passes : p.embedded = #[] ∨ ∀ e, C.allows e

theorem Contract.hosted_of_preludeOnly (C : Contract p) (hp : p.PreludeOnly) : C.Hosted :=
  ⟨fun _ => hp.keeps _, .inl hp.embedded⟩

def Contract.AllowsOverflow (C : Contract p) : Prop :=
  ∀ (calls : CallStack) (callee : String) (args : List Value) (node : NodeId), C.spot node →
    C.allows ((calls.overflow ⟨callee, args, p.tree.span node⟩).locate node (p.tree.span node))

def Contract.AllowsInUse (C : Contract p) : Prop :=
  ∀ node, C.spot node → C.allows ((EvalError.ofFault .objectInUse).locate node (p.tree.span node))

structure Contract.Holds (C : Contract p) (s : State) : Prop where
  agenda : ∀ item ∈ s.agenda, C.item s.snapshots.size item
  stash : ∀ v ∈ s.stash, C.value s.snapshots.size v
  scopes : s.scopes.All (C.value s.snapshots.size)
  heap : s.heap.All (C.value s.snapshots.size)
  snapshots : ∀ k ∈ s.snapshots,
    (∀ item ∈ k.agenda, C.item s.snapshots.size item) ∧ ∀ v ∈ k.stash, C.value s.snapshots.size v
  also : C.also s

/-- The operation ends in a state of which the contract holds; if it fails, then in an error that is allowed. -/
def Contract.Meets {α : Type} (C : Contract p) (x : MachineM α) (s : State) : Prop :=
  Ensures x s (fun _ s' => C.Holds s') fun e s' => C.also s' ∧ C.allows e

/-- The operation captures no continuation and gives a result that satisfies `Q`, when there are `n` of them. -/
def Contract.Keeps {α : Type} (C : Contract p) (n : Nat) (x : MachineM α) (Q : α → Prop) : Prop :=
  ∀ s, C.Holds s → s.snapshots.size = n →
    Ensures x s (fun a s' => C.Holds s' ∧ s'.snapshots.size = n ∧ Q a) fun e s' => C.also s' ∧ C.allows e

namespace Contract

variable {α β : Type} {C : Contract p} {n : Nat} {node : NodeId} {s : State}

/-! ## 1. Operations on registers -/

theorem keeps_pure {Q : α → Prop} {a : α} (h : Q a) : C.Keeps n (pure a) Q :=
  fun _ hs hn => ⟨hs, hn, h⟩

theorem Keeps.bind {Q : α → Prop} {R : β → Prop} {x : MachineM α} {f : α → MachineM β} (hx : C.Keeps n x Q)
    (hf : ∀ a, Q a → C.Keeps n (f a) R) : C.Keeps n (x >>= f) R := by
  intro s hs hn
  rw [ensures_bind]
  exact (hx s hs hn).mono (fun a s' h => hf a h.2.2 s' h.1 h.2.1) fun _ _ h => h

theorem Keeps.meets {Q : α → Prop} {x : MachineM α} (h : C.Keeps s.snapshots.size x Q) (hs : C.Holds s) : C.Meets x s :=
  (h s hs rfl).mono (fun _ _ h => h.1) fun _ _ h => h

theorem Keeps.bind_meets {Q : α → Prop} {x : MachineM α} {f : α → MachineM β} (hx : C.Keeps s.snapshots.size x Q)
    (hs : C.Holds s) (hf : ∀ a s', C.Holds s' → s'.snapshots.size = s.snapshots.size → Q a → C.Meets (f a) s') :
    C.Meets (x >>= f) s := by
  rw [Meets, ensures_bind]
  exact (hx s hs rfl).mono (fun a s' h => hf a s' h.1 h.2.1 h.2.2) fun _ _ h => h

theorem keeps_get : C.Keeps n get fun s => C.Holds s ∧ s.snapshots.size = n :=
  fun _ hs hn => ⟨hs, hn, hs, hn⟩

theorem keeps_forM {l : List α} {f : α → MachineM PUnit} (h : ∀ a ∈ l, C.Keeps n (f a) fun _ => True) :
    C.Keeps n (l.forM f) fun _ => True := by
  induction l with
  | nil => exact keeps_pure trivial
  | cons a rest ih =>
    rw [List.forall_mem_cons] at h
    exact h.1.bind fun _ _ => ih h.2

/-- Where anything goes for values and items, the other registers matter only. -/
theorem holds_of_any (hvalue : ∀ n v, C.value n v) (hitem : ∀ n item, C.item n item) (also : C.also s) : C.Holds s where
  agenda _ _ := hitem _ _
  stash _ _ := hvalue _ _
  scopes _ _ := ⟨fun _ _ _ _ => hvalue _ _, fun _ _ => hvalue _ _⟩
  heap := s.heap.all_true.mono fun _ _ => hvalue _ _
  snapshots _ _ := ⟨fun _ _ => hitem _ _, fun _ _ => hvalue _ _⟩
  also

theorem holds_ofErrors {allows : EvalError → Prop}
    {ordinary : ∀ e : EvalError, (e.fault.isOrdinary = true ∨ ∃ message, e.fault = .malformedTree message) → allows e}
    (s : State) : (ofErrors p allows ordinary).Holds s :=
  holds_of_any (fun _ _ => trivial) (fun _ _ => trivial) trivial

/-- Control may turn in the same work. -/
theorem Holds.turned {agenda : Agenda} {calls : CallStack} (hs : C.Holds s)
    (hagenda : ∀ item ∈ agenda, C.item s.snapshots.size item) (hcalls : calls.traceFrames = s.calls.traceFrames) :
    C.Holds { s with agenda, calls } :=
  { hs with agenda := hagenda, also := C.same hs.also ⟨rfl, hcalls, rfl⟩ }

theorem keeps_failAt (hnode : C.spot node) {fault : Fault} (hfault : fault.isOrdinary = true) {Q : α → Prop} :
    C.Keeps n (failAt p node fault) Q :=
  fun _ hs _ => ⟨hs.also, C.placed hfault hnode⟩

/-- Nothing comes after a failure. -/
theorem keeps_failAt_bind (hnode : C.spot node) {fault : Fault} (hfault : fault.isOrdinary = true)
    {f : α → MachineM β} {Q : β → Prop} : C.Keeps n (failAt p node fault >>= f) Q :=
  (keeps_failAt (Q := fun _ => False) hnode hfault).bind fun _ h => h.elim

/-- What is missing is told at the node, unless nothing ever is. -/
theorem keeps_missing (hnode : C.spot node) (h : ¬Refers p.tree C.spot C.value) {message : String} {Q : α → Prop} :
    C.Keeps n (failAt p node (.malformedTree message)) Q :=
  fun _ hs _ => ⟨hs.also, C.missing.resolve_right h hnode⟩

theorem keeps_orFailAt (hnode : C.spot node) {r : Except Fault α} {Q : α → Prop} (hok : ∀ a, r = .ok a → Q a)
    (herror : ∀ fault, r = .error fault → fault.isTypeMismatch = true) : C.Keeps n (orFailAt p node r) Q := by
  cases r with
  | ok a => exact keeps_pure (hok a rfl)
  | error fault => exact keeps_failAt hnode (Fault.isOrdinary_of_isTypeMismatch (herror fault rfl))

theorem keeps_schedule {items : List Item} (h : ∀ item ∈ items, C.item n item) :
    C.Keeps n (schedule items) fun _ => True := by
  rintro s hs rfl
  exact ⟨hs.turned (List.forall_mem_append.mpr ⟨h, hs.agenda⟩) rfl, rfl, trivial⟩

theorem keeps_setEnv (env : Env) : C.Keeps n (setEnv env) fun _ => True :=
  fun _ hs hn => ⟨{ hs with also := C.same hs.also ⟨rfl, rfl, rfl⟩ }, hn, trivial⟩

theorem keeps_newFrame {make : UInt32 → Scopes → Env × Scopes}
    (h : ∀ id (scopes : Scopes), scopes.All (C.value n) → (make id scopes).2.All (C.value n)) :
    C.Keeps n (newFrame make) fun _ => True := by
  rintro s hs rfl
  exact ⟨{ hs with scopes := h _ _ hs.scopes, also := C.same hs.also ⟨rfl, rfl, rfl⟩ }, rfl, trivial⟩

theorem keeps_allocate {make : Heap → Value × Heap}
    (h : ∀ heap : Heap, heap.All (C.value n) → C.value n (make heap).1 ∧ (make heap).2.All (C.value n)) :
    C.Keeps n (allocate make) (C.value n) := by
  rintro s hs rfl
  obtain ⟨hv, hheap⟩ := h s.heap hs.heap
  exact ⟨{ hs with heap := hheap, also := C.same hs.also ⟨rfl, rfl, rfl⟩ }, rfl, hv⟩

/-- The stash may be replaced by one that the contract holds of. -/
theorem Holds.stashed {stash : Stash} (hs : C.Holds s) (hstash : ∀ v ∈ stash, C.value s.snapshots.size v) :
    C.Holds { s with stash } :=
  { hs with stash := hstash, also := C.same hs.also ⟨rfl, rfl, rfl⟩ }

theorem keeps_push {v : Value} (hv : C.value n v) : C.Keeps n (push v) fun _ => True := by
  rintro s hs rfl
  exact ⟨hs.stashed (List.forall_mem_cons.mpr ⟨hv, hs.stash⟩), rfl, trivial⟩

theorem keeps_pop : C.Keeps n pop (C.value n) := by
  rintro s hs rfl
  rw [ensures_pop]
  have hstash := hs.stash
  split
  · exact ⟨C.same hs.also ⟨rfl, rfl, rfl⟩, C.bare rfl⟩
  next v rest h =>
    rw [h, List.forall_mem_cons] at hstash
    exact ⟨hs.stashed hstash.2, rfl, hstash.1⟩

theorem keeps_peek : C.Keeps n (onStash Stash.peek) (C.value n) := by
  rintro s hs rfl
  rw [ensures_peek]
  have hstash := hs.stash
  split
  · exact ⟨C.same hs.also ⟨rfl, rfl, rfl⟩, C.bare rfl⟩
  next v rest h =>
    rw [h] at hstash
    exact ⟨hs.stashed hstash, rfl, hstash v List.mem_cons_self⟩

theorem keeps_replaceTop {v : Value} (hv : C.value n v) : C.Keeps n (onStash (Stash.replaceTop v)) fun _ => True := by
  rintro s hs rfl
  rw [ensures_replaceTop]
  have hstash := hs.stash
  split
  · exact ⟨C.same hs.also ⟨rfl, rfl, rfl⟩, C.bare rfl⟩
  next w rest h =>
    rw [h, List.forall_mem_cons] at hstash
    exact ⟨hs.stashed (List.forall_mem_cons.mpr ⟨hv, hstash.2⟩), rfl, trivial⟩

theorem keeps_popN (k : Nat) : C.Keeps n (onStash (Stash.popN k)) fun vs => ∀ v ∈ vs, C.value n v := by
  rintro s hs rfl
  rw [ensures_popN]
  split
  · refine ⟨hs.stashed fun v hv => hs.stash v (List.mem_of_mem_drop hv), rfl, ?_⟩
    exact fun v hv => hs.stash v (List.mem_of_mem_take (List.mem_reverse.mp hv))
  · exact ⟨C.same hs.also ⟨rfl, rfl, rfl⟩, C.bare rfl⟩

theorem keeps_onName (hnode : C.spot node) {name : Name} {op : ScopeM Unit}
    (h : ∀ scopes : Scopes, scopes.All (C.value n) → Scopes.Kept (C.value n) (op scopes)) :
    C.Keeps n (onName p node name op) fun _ => True := by
  rintro s hs rfl
  have hop := h s.scopes hs.scopes
  rw [ensures_onName]
  split
  next hr =>
    rw [hr] at hop
    exact ⟨{ hs with scopes := hop, also := C.same hs.also ⟨rfl, rfl, rfl⟩ }, rfl, trivial⟩
  next => exact ⟨C.same hs.also ⟨rfl, rfl, rfl⟩, C.placed (ScopeError.isOrdinary_fault _ _) hnode⟩

theorem keeps_memberSet (hnode : C.spot node) (hwrite : C.AllowsInUse) (object key : Value) {v : Value}
    (hv : C.value n v) (checks : RuntimeChecks) :
      C.Keeps n (onHeap p node (memberSet object key v checks)) fun _ => True := by
  rintro s hs rfl
  have hfine := memberSet_fine C.inert hs.heap object key hv checks
  rw [ensures_onHeap]
  split
  next hr =>
    rw [hr] at hfine
    exact ⟨{ hs with heap := hfine, also := C.same hs.also ⟨rfl, rfl, rfl⟩ }, rfl, trivial⟩
  next hr =>
    refine ⟨C.same hs.also ⟨rfl, rfl, rfl⟩, ?_⟩
    obtain hmismatch | ⟨rfl, -⟩ := memberSet_fault_cases hr
    · exact C.placed (Fault.isOrdinary_of_isTypeMismatch hmismatch) hnode
    · exact hwrite node hnode

theorem keeps_checkDeadline : C.Keeps n (checkDeadline p) fun _ => True :=
  fun _ hs hn => ensures_checkDeadline
    (fun _ => ⟨{ hs with also := C.same hs.also ⟨rfl, rfl, rfl⟩ }, hn, trivial⟩)
    fun _ => ⟨C.same hs.also ⟨rfl, rfl, rfl⟩, C.bare rfl⟩

/-! ## 2. Items -/

/-- An instruction that pushes no value. -/
theorem item_of_nodes {i : Instr} (h : ∀ id ∈ i.nodes, C.spot id) (hpush : ∀ v, i ≠ .push v) : C.item n (.instr i) :=
  C.item_instr h fun v hv => absurd hv (hpush v)

/-- An instruction that holds no nodes. -/
theorem item_of_nil {i : Instr} (h : i.nodes = []) (hpush : ∀ v, i ≠ .push v) : C.item n (.instr i) :=
  item_of_nodes (h ▸ nofun) hpush

/-- An instruction that holds one node. -/
theorem item_of_singleton {i : Instr} (h : i.nodes = [node]) (hnode : C.spot node) (hpush : ∀ v, i ≠ .push v) :
    C.item n (.instr i) :=
  item_of_nodes (h ▸ List.forall_mem_singleton.mpr hnode) hpush

theorem item_push {v : Value} (hv : v.isInert = true) : C.item n (.instr (.push v)) :=
  C.item_instr nofun fun w hw => by cases hw; exact C.inert v hv

theorem item_map_node (ids : List NodeId) (h : ∀ id ∈ ids, C.spot id) : ∀ item ∈ ids.map Item.node, C.item n item := by
  intro item hitem
  obtain ⟨id, hid, rfl⟩ := List.mem_map.mp hitem
  exact C.item_node (h id hid)

theorem item_ofStatements {ids : List NodeId} (h : ∀ id ∈ ids, C.spot id) :
    ∀ item ∈ Agenda.ofStatements ids, C.item n item :=
  Agenda.forall_mem_ofStatements (fun id hid => C.item_node (h id hid)) (item_of_nil rfl nofun) (item_push rfl)

theorem item_loopTest {test : Option NodeId} (h : ∀ id ∈ test, C.spot id) : C.item n (loopTest test) := by
  cases test with
  | none => exact item_push rfl
  | some id => exact C.item_node (h id rfl)

theorem item_keyItem {property : MemberProperty} (h : ∀ id ∈ property.key?, C.spot id) :
    C.item n (keyItem p property) := by
  cases property with
  | named name => exact item_push rfl
  | computed key => exact C.item_node (h key rfl)

/-- A part that may be missing, and the item that drops its value. -/
theorem item_part {part : Option NodeId} (h : ∀ id ∈ part, C.spot id) :
    ∀ item ∈ (part.map fun id => [Item.node id, .instr .pop]).getD [], C.item n item := by
  cases part with
  | none => exact nofun
  | some id =>
    exact List.forall_mem_cons.mpr
      ⟨C.item_node (h id rfl), List.forall_mem_singleton.mpr (item_of_nil rfl nofun)⟩

/-- The children of a node of the tree are spots. -/
theorem spot_of_mem_children {id : NodeId} {kind : NodeKind} (hkind : p.tree.kind? id = some kind) :
    ∀ child ∈ kind.children, C.spot child :=
  fun _ hchild => C.spot_of_has (p.tree.has_of_mem_children hkind hchild)

/-! ## 3. Evaluating a node -/

theorem keeps_declareAll (body : List NodeId) : C.Keeps n (declareAll p body) fun _ => True := by
  refine keeps_forM fun d hd => keeps_get.bind fun s _ => keeps_onName (C.spot_of_has ?_) fun _ hs =>
    Scopes.declare_kept hs _ _ _
  -- What is declared is declared by a node of the tree.
  rw [Tree.declarations_eq] at hd
  obtain ⟨id, -, hdeclared⟩ := List.mem_filterMap.mp hd
  unfold Tree.declaration? at hdeclared
  split at hdeclared <;> cases hdeclared
  next hkind => exact ⟨_, hkind⟩
  next hkind => exact ⟨_, hkind⟩

theorem keeps_enterScope (name : String) : C.Keeps n (enterScope name) fun _ => True := by
  have entered : ∀ env, C.Keeps n (newFrame (fun id scopes => scopes.child env id name) >>= setEnv) fun _ => True :=
    fun env => (keeps_newFrame fun id s hs => hs.child env id name).bind fun _ _ => keeps_setEnv _
  refine keeps_get.bind fun s _ => keeps_get.bind fun s' _ => ?_
  dsimp only
  split
  · exact entered _
  · refine (keeps_schedule (List.forall_mem_singleton.mpr ?_)).bind fun _ _ => entered _
    exact item_of_nil rfl nofun

theorem keeps_evalBlock {body : List NodeId} (hbody : ∀ id ∈ body, C.spot id) (name : String) :
    C.Keeps n (evalBlock p body name) fun _ => True := by
  have scheduled : C.Keeps n (schedule (Agenda.ofStatements body)) fun _ => True :=
    keeps_schedule (item_ofStatements hbody)
  unfold evalBlock
  dsimp only
  split
  · exact (keeps_enterScope name).bind fun _ _ => (keeps_declareAll body).bind fun _ _ => scheduled
  · exact scheduled

theorem keeps_evalReturn {argument : Option NodeId} (h : ∀ id ∈ argument, C.spot id) :
    C.Keeps n (evalReturn argument) fun _ => True := by
  have value : ∀ n, C.item n ((argument.map Item.node).getD (.instr (.push .undefined))) := by
    intro n
    cases argument with
    | none => exact item_push rfl
    | some id => exact C.item_node (h id rfl)
  refine keeps_get.bind fun s _ => ?_
  split
  · -- In tail position, the rest of the function is left out.
    refine fun s hs hn => ⟨hs.turned (List.forall_mem_cons.mpr ⟨value _, fun item hitem => ?_⟩) rfl, hn, trivial⟩
    exact hs.agenda item ((Agenda.unwindCall_suffix _).subset hitem)
  · refine keeps_schedule (List.forall_mem_cons.mpr ⟨value n, List.forall_mem_singleton.mpr ?_⟩)
    exact item_of_nil rfl nofun

theorem keeps_evalFor {id : NodeId} {init test update : Option NodeId} {body : NodeId} (hid : C.spot id)
    (hinit : ∀ i ∈ init, C.spot i) (htest : ∀ i ∈ test, C.spot i) (hupdate : ∀ i ∈ update, C.spot i)
    (hbody : C.spot body) : C.Keeps n (evalFor p id init test update body) fun _ => True := by
  have items : ∀ vars, ∀ item ∈ (init.map fun node => [Item.node node, .instr .pop]).getD [] ++
      [.instr (.freshTrip vars), .instr (.push .undefined), loopTest test,
        .instr (.forTest test update body vars id), .instr (.marker .loopEnd)], C.item n item := by
    intro vars
    refine List.forall_mem_append.mpr ⟨item_part hinit, ?_⟩
    simp only [List.forall_mem_cons]
    refine ⟨item_of_nil rfl nofun, item_push rfl, item_loopTest htest, item_of_nodes ?_ nofun,
      item_of_nil rfl nofun, nofun⟩
    simp only [Instr.nodes, List.forall_mem_cons, List.forall_mem_append, Option.mem_toList]
    exact ⟨hbody, hid, htest, hupdate⟩
  unfold evalFor
  dsimp only
  split
  next node name kind hdeclared =>
    -- The variable in the head is declared by the head, a node of the tree.
    obtain ⟨head, -, hfound⟩ := Option.bind_eq_some_iff.mp hdeclared
    split at hfound
    next hkind =>
      cases hfound
      exact (keeps_enterScope "for").bind fun _ _ => keeps_get.bind fun _ _ =>
        (keeps_onName (C.spot_of_has ⟨_, hkind⟩) fun _ hs => Scopes.declare_kept hs _ _ _).bind fun _ _ =>
          keeps_schedule (items _)
    next => cases hfound
  · exact keeps_schedule (items _)

theorem keeps_evalCall {id callee : NodeId} {args : List NodeId} (hid : C.spot id) (hcallee : p.tree.Has callee)
    (hargs : ∀ arg ∈ args, C.spot arg) : C.Keeps n (evalCall p id callee args) fun _ => True := by
  have after : ∀ hasReceiver, ∀ item ∈ args.map Item.node ++ [.instr (.apply args.length hasReceiver id)],
      C.item n item := fun _ =>
    List.forall_mem_append.mpr
      ⟨item_map_node args hargs, List.forall_mem_singleton.mpr (item_of_singleton rfl hid nofun)⟩
  have lookup : ∀ property, C.item n (.instr (.methodLookup property callee)) :=
    fun property => item_of_singleton rfl (C.spot_of_has hcallee) nofun
  obtain ⟨kind, hkind⟩ := hcallee
  have children : ∀ child ∈ kind.children, C.item n (.node child) :=
    fun child hchild => C.item_node (spot_of_mem_children hkind child hchild)
  have found : C.Keeps n (kindOf p callee) fun found => found = kind :=
    fun _ hs hn => (ensures_kindOf hkind).mpr ⟨hs, hn, rfl⟩
  refine found.bind ?_
  rintro _ rfl
  split
  next object name =>
    refine keeps_schedule (List.forall_mem_cons.mpr ⟨?_, List.forall_mem_cons.mpr ⟨lookup _, after true⟩⟩)
    exact children object List.mem_cons_self
  next object key =>
    refine keeps_schedule (List.forall_mem_cons.mpr ⟨?_, List.forall_mem_cons.mpr ⟨?_,
      List.forall_mem_cons.mpr ⟨lookup _, after true⟩⟩⟩)
    · exact children object List.mem_cons_self
    · exact children key (List.mem_cons_of_mem _ List.mem_cons_self)
  next => exact keeps_schedule (List.forall_mem_cons.mpr ⟨C.item_node (C.spot_of_has ⟨_, hkind⟩), after false⟩)

theorem keeps_evalIdentifier (hnode : C.spot node) (name : Name) :
    C.Keeps n (evalIdentifier p node name) fun _ => True := by
  refine keeps_get.bind fun s hs => keeps_get.bind fun s' _ => ?_
  obtain ⟨hs, rfl⟩ := hs
  split
  next v hv => exact keeps_push (hs.scopes.lookup hv)
  next => exact keeps_failAt hnode (ScopeError.isOrdinary_fault _ _)

theorem isInert_literalValue (literal : Literal) : (literalValue literal).isInert = true := by
  cases literal <;> rfl

/-- A node of any kind but a function. -/
theorem keeps_evalKind {id : NodeId} {kind : NodeKind} (hkind : p.tree.kind? id = some kind)
    (hplain : ∀ name params code, kind ≠ .function name params code) :
    C.Keeps n (evalKind p id kind) fun _ => True := by
  have hid : C.spot id := C.spot_of_has ⟨kind, hkind⟩
  have children : ∀ child ∈ kind.children, C.spot child := spot_of_mem_children hkind
  -- Most kinds schedule their children and one instruction that holds their own number.
  have operation : ∀ (items : List Item) {i : Instr}, (∀ item ∈ items, C.item n item) → i.nodes = [id] →
      (∀ v, i ≠ .push v) → C.Keeps n (schedule (items ++ [.instr i])) fun _ => True := fun _ _ hitems hi hpush =>
    keeps_schedule (List.forall_mem_append.mpr
      ⟨hitems, List.forall_mem_singleton.mpr (item_of_singleton hi hid hpush)⟩)
  have branches : ∀ (test consequent : NodeId) (alternate : Option NodeId),
      (∀ child ∈ test :: consequent :: alternate.toList, C.spot child) →
        C.Keeps n (schedule [.node test, .instr (.branch consequent alternate id)]) fun _ => True := by
    intro test consequent alternate h
    simp only [List.forall_mem_cons] at h
    refine keeps_schedule (List.forall_mem_cons.mpr ⟨C.item_node h.1, List.forall_mem_singleton.mpr ?_⟩)
    exact item_of_nodes (List.forall_mem_cons.mpr ⟨h.2.1, List.forall_mem_cons.mpr ⟨hid, h.2.2⟩⟩) nofun
  cases kind with
  | program body =>
    refine (keeps_schedule ?_).bind fun _ _ => keeps_evalBlock children "program"
    exact List.forall_mem_singleton.mpr (item_of_nil rfl nofun)
  | block body => exact keeps_evalBlock children "block"
  | expressionStatement expr => exact keeps_schedule (item_map_node [expr] children)
  | declaration kind name init => exact operation _ (item_map_node [init] children) rfl nofun
  | functionDeclaration name declared => exact operation _ (item_map_node [declared] children) rfl nofun
  | returnStatement argument => exact keeps_evalReturn fun i hi => children i (Option.mem_toList.mpr hi)
  | ifStatement test consequent alternate => exact branches test consequent alternate children
  | whileLoop test body =>
    have hloop : ∀ child ∈ [test, body, id], C.spot child := by
      simp only [NodeKind.children, List.forall_mem_cons] at children ⊢
      exact ⟨children.1, children.2.1, hid, nofun⟩
    refine keeps_schedule ?_
    simp only [List.forall_mem_cons]
    exact ⟨item_push rfl, C.item_node (hloop test List.mem_cons_self), item_of_nodes hloop nofun,
      item_of_nil rfl nofun, nofun⟩
  | forLoop init test update body =>
    simp only [NodeKind.children, List.forall_mem_append, List.forall_mem_singleton, Option.mem_toList] at children
    exact keeps_evalFor hid children.1.1.1 children.1.1.2 children.1.2 children.2
  | breakStatement => exact operation [] nofun rfl nofun
  | continueStatement => exact operation [] nofun rfl nofun
  | debuggerStatement => exact keeps_push (C.inert _ rfl)
  | literal literal => exact keeps_push (C.inert _ (isInert_literalValue literal))
  | identifier name => exact keeps_evalIdentifier hid name
  | this =>
    refine keeps_get.bind fun s hs => keeps_get.bind fun s' _ => keeps_push ?_
    obtain ⟨hs, rfl⟩ := hs
    cases hr : s.scopes.receiver? s'.env with
    | none => exact C.inert _ rfl
    | some v => exact hs.scopes.receiver? hr
  | function name params code => exact absurd rfl (hplain name params code)
  | unary op operand => exact operation _ (item_map_node [operand] children) rfl nofun
  | binary op left right => exact operation _ (item_map_node [left, right] children) rfl nofun
  | logical op left right =>
    simp only [NodeKind.children, List.forall_mem_cons] at children
    refine keeps_schedule (List.forall_mem_cons.mpr ⟨C.item_node children.1, List.forall_mem_singleton.mpr ?_⟩)
    exact item_of_nodes (List.forall_mem_cons.mpr ⟨children.2.1, List.forall_mem_singleton.mpr hid⟩) nofun
  | conditional test consequent alternate => exact branches test consequent (some alternate) children
  | assignment name value => exact operation _ (item_map_node [value] children) rfl nofun
  | call callee args =>
    rw [NodeKind.children, List.forall_mem_cons] at children
    exact keeps_evalCall hid (p.tree.has_of_mem_children hkind List.mem_cons_self) children.2
  | arrayLiteral elements => exact operation _ (item_map_node elements children) rfl nofun
  | objectLiteral properties =>
    refine operation _ (fun item hitem => ?_) rfl nofun
    obtain ⟨property, hproperty, rfl⟩ := List.mem_map.mp hitem
    exact C.item_node (children _ (List.mem_map_of_mem hproperty))
  | member object property =>
    simp only [NodeKind.children, List.forall_mem_cons, Option.mem_toList] at children
    refine operation [.node object, keyItem p property] ?_ rfl nofun
    exact List.forall_mem_cons.mpr ⟨C.item_node children.1, List.forall_mem_singleton.mpr (item_keyItem children.2)⟩
  | memberAssignment object property value =>
    simp only [NodeKind.children, List.forall_mem_cons, List.forall_mem_append, Option.mem_toList] at children
    refine operation [.node object, keyItem p property, .node value] ?_ rfl nofun
    simp only [List.forall_mem_cons]
    exact ⟨C.item_node children.1, item_keyItem children.2.1, C.item_node children.2.2.1, nofun⟩

/-- A function becomes a closure over the current environment, of which the contract has to hold. -/
theorem meets_evalNode {id : NodeId} (hid : C.spot id) (hs : C.Holds s)
    (hmade : ∀ name params code, p.tree.kind? id = some (.function name params code) →
      ∀ identity, C.value s.snapshots.size (.closure identity ⟨id, name, params.length, s.env⟩)) :
    C.Meets (evalNode p id) s := by
  rw [Meets, evalNode, ensures_bind]
  cases hkind : p.tree.kind? id with
  | none =>
    have hmissing : ¬Refers p.tree C.spot C.value := fun h => by
      obtain ⟨kind, hfound⟩ := h.node hid
      rw [hkind] at hfound
      cases hfound
    rw [kindOf, hkind]
    exact ⟨hs.also, C.missing.resolve_right hmissing hid⟩
  | some kind =>
    rw [ensures_kindOf hkind]
    by_cases hfunction : ∃ name params code, kind = .function name params code
    · obtain ⟨name, params, code, rfl⟩ := hfunction
      exact { hs with
        stash := List.forall_mem_cons.mpr ⟨hmade name params code hkind s.nextIdentity, hs.stash⟩
        also := C.same hs.also ⟨rfl, rfl, rfl⟩ }
    · refine (keeps_evalKind hkind fun name params code h => ?_).meets hs
      exact hfunction ⟨name, params, code, h⟩

/-! ## 4. Calls -/

theorem keeps_pushCall (hcall : C.AllowsOverflow) (hnode : C.spot node) (callee : String) (args : List Value) :
    C.Keeps n (onCalls p node (CallStack.push ⟨callee, args, p.tree.span node⟩)) fun _ => True := by
  intro s hs hn
  obtain ⟨-, hpush⟩ | ⟨-, hpush⟩ := pushCall_split p node ⟨callee, args, p.tree.span node⟩ s
  · exact (ensures_of_ok hpush).mpr ⟨hs.turned hs.agenda rfl, hn, trivial⟩
  · exact (ensures_of_error hpush).mpr ⟨hs.also, hcall s.calls callee args node hnode⟩

theorem keeps_enterCall (hcall : C.AllowsOverflow) (hnode : C.spot node) (callee : String) (args : List Value) :
    C.Keeps n (enterCall p node ⟨callee, args, p.tree.span node⟩) fun _ => True := by
  have restoring : ∀ {n env closesCall}, C.item n (.instr (.restore env closesCall)) := item_of_nil rfl nofun
  -- A call takes over the end of a call, or that of a scope, or gets one of its own.
  refine keeps_get.bind fun s _ => ?_
  split
  · exact fun s hs hn => ⟨hs.turned hs.agenda rfl, hn, trivial⟩
  · refine (keeps_pushCall hcall hnode callee args).bind fun _ _ => fun s hs hn => ⟨hs.turned ?_ rfl, hn, trivial⟩
    have hagenda := hs.agenda
    unfold closeWithNext
    split
    next h =>
      rw [h, List.forall_mem_cons] at hagenda
      exact List.forall_mem_cons.mpr ⟨restoring, hagenda.2⟩
    next => exact hagenda
  · refine (keeps_pushCall hcall hnode callee args).bind fun _ _ => fun s hs hn => ⟨hs.turned ?_ rfl, hn, trivial⟩
    exact List.forall_mem_cons.mpr ⟨restoring, hs.agenda⟩

theorem keeps_closureFrame (hnode : C.spot node) (f : Closure) (params : List Name) {args : List Value}
    {receiver : Option Value} (hargs : ∀ v ∈ args, C.value n v) (hreceiver : ∀ v ∈ receiver, C.value n v)
    (body : FunctionBody) : C.Keeps n (closureFrame p f params args receiver node body) fun _ => True := by
  refine (keeps_newFrame fun id s hs => hs.call _ id _ _ hreceiver).bind fun env _ =>
    (keeps_forM fun pair hpair => keeps_onName hnode fun s hs =>
      Scopes.define_kept hs _ _ (hargs _ (List.of_mem_zip hpair).2) _).bind fun _ _ =>
    (keeps_setEnv env).bind fun _ _ => ?_
  cases body with
  | expression expr => exact keeps_pure trivial
  | block statements => exact keeps_declareAll statements

theorem item_bodyItems {id : NodeId} {fname : Option Name} {params : List Name} {body : FunctionBody}
    (hkind : p.tree.kind? id = some (.function fname params body)) : ∀ item ∈ bodyItems body, C.item n item := by
  have children : ∀ child ∈ (NodeKind.function fname params body).children, C.spot child := spot_of_mem_children hkind
  cases body with
  | expression expr => exact item_map_node [expr] children
  | block statements =>
    refine List.forall_mem_append.mpr ⟨item_ofStatements children, List.forall_mem_singleton.mpr ?_⟩
    exact item_of_nil rfl nofun

theorem keeps_applyClosure (hcall : C.AllowsOverflow) (hnode : C.spot node) {identity : Nat} {f : Closure}
    {args : List Value} {receiver : Option Value} (hf : C.value n (.closure identity f))
    (hargs : ∀ v ∈ args, C.value n v) (hreceiver : ∀ v ∈ receiver, C.value n v) (name : String) :
    C.Keeps n (applyClosure p f args receiver node name) fun _ => True := by
  obtain ⟨fname, params, body, hkind, harity⟩ | ⟨fault, hfault, hfails⟩ :=
    applyClosure_cases p f args receiver node name
  · rw [applyClosure_eq hkind harity]
    exact (keeps_enterCall hcall hnode name args).bind fun _ _ =>
      (keeps_closureFrame hnode f params hargs hreceiver body).bind fun _ _ => keeps_schedule (item_bodyItems hkind)
  · rw [hfails]
    obtain ⟨expected, given, rfl⟩ | ⟨message, rfl, hnone⟩ := hfault
    · exact keeps_failAt hnode rfl
    · refine keeps_missing hnode fun hrefers => ?_
      obtain ⟨fname, params, body, hkind⟩ := hrefers.closure hf
      exact hnone fname params body hkind

/-- What every program finds fails in its own words only, and these are placed at the call. -/
theorem keeps_applyHost (hhosted : C.Hosted) (hnode : C.spot node) (f : HostFunction) {args : List Value}
    {receiver : Option Value}
    (hargs : ∀ v ∈ args, C.value n v) (hreceiver : ∀ v ∈ receiver, C.value n v) :
    C.Keeps n (applyHost p f args receiver node) fun _ => True := by
  unfold applyHost
  dsimp only
  split
  · exact keeps_failAt_bind hnode rfl
  · refine Keeps.bind (Q := C.value n) ?_ fun v hv => keeps_push hv
    rintro s hs rfl
    have hkeeps := hostBody_keeps C.inert (hhosted.keeps _) f.action (s := ⟨s.heap, s.output⟩) hs.heap hargs hreceiver
    rw [ensures_onHost]
    cases hr : hostBody p f.action receiver args ⟨s.heap, s.output⟩ with
    | ok v s' =>
      rw [hr] at hkeeps
      exact ⟨{ hs with heap := hkeeps.2, also := C.same hs.also ⟨rfl, rfl, rfl⟩ }, rfl, hkeeps.1⟩
    | error e s' =>
      refine ⟨C.same hs.also ⟨rfl, rfl, rfl⟩, ?_⟩
      obtain hnone | hall := hhosted.passes
      · obtain ⟨message, rfl⟩ := hostBody_failed hnone hr
        exact C.placed rfl hnode
      · exact hall _

theorem keeps_invoke (hnode : C.spot node) {snapshot : Nat} (hk : C.value n (.continuation snapshot))
    {args : List Value}
    (hargs : ∀ v ∈ args, C.value n v) : C.Keeps n (invoke p snapshot args node) fun _ => True := by
  by_cases harity : 1 < args.length
  · exact fun s hs hn => by
      rw [Ensures, invoke_of_arity harity]
      exact keeps_failAt (Q := fun _ : Unit => True) hnode rfl s hs hn
  rintro s hs rfl
  cases hkept : s.snapshots[snapshot]? with
  | none =>
    rw [Ensures, invoke_of_missing harity hkept]
    refine keeps_missing (Q := fun _ : Unit => True) hnode (fun hrefers => ?_) s hs rfl
    exact absurd (hrefers.continuation hk) (Nat.not_lt.mpr (Array.getElem?_eq_none_iff.mp hkept))
  | some k =>
    have hmem : k ∈ s.snapshots := Array.mem_of_getElem? hkept
    rw [ensures_of_ok (invoke_of_kept harity hkept node)]
    refine ⟨{ hs with
      agenda := (hs.snapshots k hmem).1
      stash := List.forall_mem_cons.mpr ⟨?_, (hs.snapshots k hmem).2⟩
      also := C.same (C.resumed hs.also hmem) ⟨rfl, rfl, rfl⟩ }, rfl, trivial⟩
    cases args with
    | nil => exact C.inert _ rfl
    | cons v rest => exact hargs v List.mem_cons_self

/-- Only a function of the program is entered. -/
theorem keeps_applyPlain (hhosted : C.Hosted) {callee : Value}
    (hcall : ∀ identity f, callee = .closure identity f → C.AllowsOverflow)
    (hnode : C.spot node) (hcallee : C.value n callee) {args : List Value} {receiver : Option Value}
    (hargs : ∀ v ∈ args, C.value n v) (hreceiver : ∀ v ∈ receiver, C.value n v) (name : String) :
    C.Keeps n (applyPlain p callee args receiver node name) fun _ => True := by
  cases callee with
  | closure identity f => exact keeps_applyClosure (hcall identity f rfl) hnode hcallee hargs hreceiver name
  | host identity f => exact keeps_applyHost hhosted hnode f hargs hreceiver
  | continuation snapshot => exact keeps_invoke hnode hcallee hargs
  | _ => exact keeps_failAt hnode rfl

/-- A captured continuation has the next number; what was there before is carried over. -/
theorem Holds.captured (hs : C.Holds s) :
    C.Holds { s with snapshots := s.snapshots.push ⟨s.agenda, s.stash, s.env, s.calls⟩ } := by
  have hsize : (s.snapshots.push ⟨s.agenda, s.stash, s.env, s.calls⟩).size = s.snapshots.size + 1 := Array.size_push _
  have item : ∀ it, C.item s.snapshots.size it → C.item (s.snapshots.size + 1) it :=
    fun _ => C.item_mono (Nat.le_succ _)
  have value : ∀ v, C.value s.snapshots.size v → C.value (s.snapshots.size + 1) v :=
    fun _ => C.value_mono (Nat.le_succ _)
  refine ⟨?_, ?_, ?_, ?_, ?_, C.captured hs.also⟩ <;> dsimp only <;> rw [hsize]
  · exact fun it hit => item it (hs.agenda it hit)
  · exact fun v hv => value v (hs.stash v hv)
  · exact hs.scopes.mono value
  · exact fun cell hc => (hs.heap cell hc).mono value
  · intro k hk
    obtain hk | rfl := Array.mem_push.mp hk
    · exact ⟨fun it hit => item it ((hs.snapshots k hk).1 it hit), fun v hv => value v ((hs.snapshots k hk).2 v hv)⟩
    · exact ⟨fun it hit => item it (hs.agenda it hit), fun v hv => value v (hs.stash v hv)⟩

theorem meets_capture {f : Value → MachineM β} (hs : C.Holds s)
    (hf : ∀ s', C.Holds s' → s'.snapshots.size = s.snapshots.size + 1 →
      C.Meets (f (.continuation s.snapshots.size)) s') : C.Meets (capture >>= f) s :=
  hf _ hs.captured (Array.size_push _)

theorem meets_applyCallCc (hhosted : C.Hosted) (hcall : C.AllowsOverflow) (hnode : C.spot node) (hs : C.Holds s)
    {args : List Value}
    (hargs : ∀ v ∈ args, C.value s.snapshots.size v) : C.Meets (applyCallCc p args node) s := by
  have nothing : ∀ {n}, ∀ v ∈ (none : Option Value), C.value n v := nofun
  have called : ∀ {s' callee k} name, C.Holds s' → C.value s'.snapshots.size callee → k < s'.snapshots.size →
      C.Meets (applyPlain p callee [.continuation k] none node name) s' := fun name hs' hcallee hk =>
    (keeps_applyPlain hhosted (fun _ _ _ => hcall) hnode hcallee
      (List.forall_mem_singleton.mpr (C.continuation hk)) nothing
      name).meets hs'
  unfold applyCallCc
  split
  next function =>
    refine meets_capture hs fun s₁ hs₁ hsize₁ => ?_
    -- The function that captures continuations captures a second one, for the first.
    split
    · refine meets_capture hs₁ fun s₂ hs₂ hsize₂ => ?_
      exact called _ hs₂ (C.continuation (by omega)) (by omega)
    · exact called _ hs₁ (C.value_mono (by omega) (hargs function List.mem_cons_self)) (by omega)
  next => exact (keeps_failAt (Q := fun _ => True) hnode rfl).meets hs

theorem meets_apply (hhosted : C.Hosted) (hcall : C.AllowsOverflow) (hnode : C.spot node) (hs : C.Holds s) (arity : Nat)
    (hasReceiver : Bool) : C.Meets (apply p arity hasReceiver node) s := by
  have applied : ∀ {s' : State} {args callee} {receiver : Option Value}, C.Holds s' →
      s'.snapshots.size = s.snapshots.size → (∀ v ∈ args, C.value s.snapshots.size v) →
      C.value s.snapshots.size callee → (∀ v ∈ receiver, C.value s.snapshots.size v) →
      C.Meets (applyValue p callee args receiver node) s' := by
    intro s' args callee receiver hs' hsize hargs hcallee hreceiver
    rw [← hsize] at hargs hcallee hreceiver
    refine keeps_checkDeadline.bind_meets hs' fun _ t ht hsize' _ => ?_
    rw [← hsize'] at hargs hcallee hreceiver
    cases callee with
    | callCc => exact meets_applyCallCc hhosted hcall hnode ht hargs
    | _ => exact (keeps_applyPlain hhosted (fun _ _ _ => hcall) hnode hcallee hargs hreceiver _).meets ht
  rw [apply_eq]
  refine (keeps_popN arity).bind_meets hs fun args s₁ hs₁ hsize₁ hargs => ?_
  refine keeps_pop.bind_meets hs₁ fun callee s₂ hs₂ hsize₂ hcallee => ?_
  rw [hsize₁] at hsize₂ hcallee
  cases hasReceiver with
  | false => exact applied hs₂ hsize₂ hargs hcallee nofun
  | true =>
    have popped : C.Keeps s₂.snapshots.size (some <$> pop) fun receiver =>
      ∀ v ∈ receiver, C.value s₂.snapshots.size v := by
      refine fun s hs hn =>
        (ensures_map _ _).mpr ((keeps_pop s hs hn).mono (fun v _ h => ⟨h.1, h.2.1, ?_⟩) fun _ _ h => h)
      rintro _ ⟨⟩
      exact h.2.2
    refine popped.bind_meets hs₂ fun receiver s₃ hs₃ hsize₃ hreceiver => ?_
    rw [hsize₂] at hsize₃ hreceiver
    exact applied hs₃ hsize₃ hargs hcallee hreceiver

/-! ## 5. Carrying out an instruction -/

theorem keeps_leaveLoop (hnode : C.spot node) {target : Marker} {keyword : String} {again : Instr}
    (hagain : C.item n (.instr again)) : C.Keeps n (leaveLoop p target keyword again node) fun _ => True := by
  rintro s hs rfl
  cases hsearch : Agenda.searchLoop target s.agenda with
  | reached rest =>
    have hrest := (Agenda.suffix_of_searchLoop_reached hsearch).subset
    rw [ensures_of_ok (leaveLoop_reached p hsearch)]
    refine ⟨{ hs with agenda := fun item hitem => hs.agenda item (hrest hitem), stash := ?_, also := ?_ }, rfl, trivial⟩
    · exact List.forall_mem_cons.mpr ⟨C.inert _ rfl, hs.stash⟩
    · exact C.same hs.also ⟨rfl, rfl, rfl⟩
  | scope item rest =>
    have hrest := List.forall_mem_cons.mp fun item hitem =>
      hs.agenda item ((Agenda.suffix_of_searchLoop_scope hsearch).subset hitem)
    rw [ensures_of_ok (leaveLoop_scope p hsearch)]
    refine ⟨hs.turned ?_ rfl, rfl, trivial⟩
    exact List.forall_mem_cons.mpr ⟨hrest.1, List.forall_mem_cons.mpr ⟨hagain, hrest.2⟩⟩
  | outside =>
    rw [Ensures, leaveLoop_outside p hsearch]
    exact keeps_failAt (Q := fun _ : Unit => True) hnode rfl s hs rfl

/-- The result of an operation on values is pushed, or its fault is placed at the node. -/
theorem keeps_found (hnode : C.spot node) {r : Except Fault Value} (h : Fine (C.value n) r)
    (hfault : ∀ fault, r = .error fault → fault.isTypeMismatch = true) :
    C.Keeps n (orFailAt p node r >>= push) fun _ => True := by
  refine (keeps_orFailAt (Q := C.value n) hnode ?_ hfault).bind fun _ hv => keeps_push hv
  rintro a rfl
  exact h

/-- The value of a test decides what comes next. -/
theorem keeps_tested (hnode : C.spot node) {r : Value → Except Fault Bool}
    (hr : ∀ v fault, r v = .error fault → fault.isTypeMismatch = true) {f : Value → Bool → MachineM Unit}
    (hf : ∀ v b, C.value n v → C.Keeps n (f v b) fun _ => True) :
    C.Keeps n (pop >>= fun v => orFailAt p node (r v) >>= f v) fun _ => True :=
  keeps_pop.bind fun v hv =>
    (keeps_orFailAt (Q := fun _ => True) hnode (fun _ _ => trivial) (hr v)).bind fun b _ => hf v b hv

theorem keeps_branch {consequent : NodeId} {alternate : Option NodeId}
    (hnodes : ∀ id ∈ (Instr.branch consequent alternate node).nodes, C.spot id) :
    C.Keeps n (branch p consequent alternate node) fun _ => True := by
  simp only [Instr.nodes, List.forall_mem_cons, Option.mem_toList] at hnodes
  obtain ⟨hconsequent, hnode, halternate⟩ := hnodes
  refine keeps_tested hnode (fun _ _ => Value.condition_isTypeMismatch) fun v b _ => ?_
  split
  · exact keeps_schedule (List.forall_mem_singleton.mpr (C.item_node hconsequent))
  · split
    · exact keeps_schedule (List.forall_mem_singleton.mpr (C.item_node (halternate _ rfl)))
    · exact keeps_push (C.inert _ rfl)

theorem keeps_logical (hnode : C.spot node) (op : LogicalOp) {right : NodeId} (hright : C.spot right) :
    C.Keeps n (logical p op right node) fun _ => True := by
  refine keeps_tested hnode (fun _ _ => LogicalOp.truth_isTypeMismatch) fun v b hv => ?_
  split
  · exact keeps_push hv
  · exact keeps_schedule (List.forall_mem_singleton.mpr (C.item_node hright))

theorem keeps_whileTrip {test body : NodeId} (hnodes : ∀ id ∈ (Instr.whileTest test body node).nodes, C.spot id) :
    C.Keeps n (schedule [.instr .pop, .node body, .instr (.marker .tripEnd), .node test,
      .instr (.whileTest test body node)]) fun _ => True := by
  have hagain : C.item n (.instr (.whileTest test body node)) := item_of_nodes hnodes nofun
  simp only [Instr.nodes, List.forall_mem_cons] at hnodes
  refine keeps_schedule ?_
  simp only [List.forall_mem_cons]
  exact ⟨item_of_nil rfl nofun, C.item_node hnodes.2.1, item_of_nil rfl nofun, C.item_node hnodes.1, hagain, nofun⟩

theorem keeps_nextTrip {test update : Option NodeId} {body : NodeId} {vars : List Name}
    (hnodes : ∀ id ∈ (Instr.forTest test update body vars node).nodes, C.spot id) :
    C.Keeps n (nextTrip test update body vars node) fun _ => True := by
  have hagain : C.item n (.instr (.forTest test update body vars node)) := item_of_nodes hnodes nofun
  simp only [Instr.nodes, List.forall_mem_cons, List.forall_mem_append, Option.mem_toList] at hnodes
  obtain ⟨hbody, -, htest, hupdate⟩ := hnodes
  refine keeps_schedule ?_
  simp only [List.forall_mem_append, List.forall_mem_cons]
  exact ⟨⟨⟨item_of_nil rfl nofun, C.item_node hbody, item_of_nil rfl nofun, item_of_nil rfl nofun, nofun⟩,
    item_part hupdate⟩, item_loopTest htest, hagain, nofun⟩

/-- An instruction that does not call a value. -/
theorem keeps_execInstr (hhosted : C.Hosted) {i : Instr} (hnodes : ∀ id ∈ i.nodes, C.spot id)
    (hpush : ∀ v, i = .push v → C.value n v)
    (hcalls : ∀ arity hasReceiver id, i ≠ .apply arity hasReceiver id)
    (hwrite : ∀ id, i = .memberSet id → C.AllowsInUse) : C.Keeps n (execInstr p i) fun _ => True := by
  have single : ∀ {id}, i.nodes = [id] → C.spot id := fun h => hnodes _ (h ▸ List.mem_cons_self)
  cases i with
  | apply arity hasReceiver id => exact absurd rfl (hcalls arity hasReceiver id)
  | reset =>
    exact fun s hs hn => ⟨hs.turned (fun item h => hs.agenda item ((Agenda.unwindCall_suffix _).subset h)) rfl,
      hn, trivial⟩
  | marker m =>
    cases m with
    | call => exact keeps_replaceTop (C.inert _ rfl)
    | loopEnd => exact keeps_pure trivial
    | tripEnd => exact keeps_pure trivial
  | pop => exact keeps_pop.bind fun _ _ => keeps_pure trivial
  | push v => exact keeps_push (hpush v rfl)
  | pushUndefinedIfNeeded =>
    refine keeps_get.bind fun s _ => ?_
    split
    · exact keeps_push (C.inert _ rfl)
    · exact keeps_pure trivial
  | assign name id =>
    exact keeps_peek.bind fun v hv => keeps_get.bind fun s _ =>
      keeps_onName (single rfl) fun _ hs => Scopes.assign_kept hs _ _ hv
  | declare name id =>
    exact keeps_pop.bind fun v hv => keeps_get.bind fun s _ =>
      (keeps_onName (single rfl) fun _ hs => Scopes.fill_kept hs _ _ hv).bind fun _ _ => keeps_push (C.inert _ rfl)
  | unary op id =>
    exact keeps_pop.bind fun v _ =>
      keeps_found (single rfl) (op.eval_fine C.inert v _) fun _ => UnaryOp.eval_isTypeMismatch
  | binary op id =>
    exact keeps_pop.bind fun right _ => keeps_pop.bind fun left _ => keeps_get.bind fun s _ =>
      keeps_found (single rfl) (op.eval_fine C.inert _ left right _) fun _ => BinaryOp.eval_isTypeMismatch
  | logical op right id =>
    simp only [Instr.nodes, List.forall_mem_cons] at hnodes
    exact keeps_logical hnodes.2.1 op hnodes.1
  | branch consequent alternate id => exact keeps_branch hnodes
  | restore env closesCall =>
    refine (keeps_setEnv env).bind fun _ _ => ?_
    split
    · exact fun s hs hn => ⟨hs.turned hs.agenda rfl, hn, trivial⟩
    · exact keeps_pure trivial
  | whileTest test body id =>
    refine keeps_tested (hnodes id (by simp [Instr.nodes])) (fun _ _ => Value.condition_isTypeMismatch) fun v b _ => ?_
    split
    · exact keeps_whileTrip hnodes
    · exact keeps_pure trivial
  | forTest test update body vars id =>
    refine keeps_tested (hnodes id (by simp [Instr.nodes])) (fun _ _ => Value.condition_isTypeMismatch) fun v b _ => ?_
    split
    · exact keeps_nextTrip hnodes
    · exact keeps_pure trivial
  | freshTrip vars =>
    simp only [execInstr]
    split
    · exact keeps_pure trivial
    · exact keeps_get.bind fun _ _ =>
        (keeps_newFrame fun id s hs => hs.copyBindings _ id vars).bind fun _ _ => keeps_setEnv _
  | breakLoop id => exact keeps_leaveLoop (single rfl) (item_of_nodes hnodes fun _ h => by cases h)
  | continueLoop id => exact keeps_leaveLoop (single rfl) (item_of_nodes hnodes fun _ h => by cases h)
  | makeArray size id =>
    refine (keeps_popN size).bind fun vs hvs => (keeps_allocate fun heap hheap => ?_).bind fun v hv => keeps_push hv
    exact ⟨C.inert _ rfl, hheap.alloc fun v hv => hvs v (by simpa using hv)⟩
  | makeObject keys id =>
    refine (keeps_popN keys.length).bind fun vs hvs =>
      (keeps_allocate fun heap hheap => ?_).bind fun v hv => keeps_push hv
    exact ⟨C.inert _ rfl, hheap.alloc (Object.all_ofPairs fun pair hpair => hvs _ (List.of_mem_zip hpair).2)⟩
  | memberGet id =>
    exact keeps_pop.bind fun key _ => keeps_pop.bind fun object _ => keeps_get.bind fun s hs =>
      keeps_found (single rfl) (hs.2 ▸ memberGet_fine C.inert hs.1.heap object key _) fun _ => memberGet_isTypeMismatch
  | memberSet id =>
    exact keeps_pop.bind fun v hv => keeps_pop.bind fun key _ => keeps_pop.bind fun object _ =>
      (keeps_memberSet (single rfl) (hwrite id rfl) object key hv _).bind fun _ _ => keeps_push hv
  | methodLookup property id =>
    have looked : ∀ key : Value, C.Keeps n (onStash Stash.peek >>= fun object =>
        get >>= fun s => orFailAt p id (findMethod p s.heap object key) >>= push) fun _ => True :=
      fun key => keeps_peek.bind fun object _ => keeps_get.bind fun s hs =>
        keeps_found (single rfl) (hs.2 ▸ findMethod_fine C.inert (hhosted.keeps 0).methods hs.1.heap object key)
          fun _ => findMethod_isTypeMismatch
    cases property with
    | some name => exact (keeps_pure (Q := fun _ => True) trivial).bind fun key _ => looked key
    | none => exact keeps_pop.bind fun key _ => looked key

theorem meets_execInstr (hhosted : C.Hosted) (hs : C.Holds s) {i : Instr} (hnodes : ∀ id ∈ i.nodes, C.spot id)
    (hpush : ∀ v, i = .push v → C.value s.snapshots.size v)
    (hcall : ∀ arity hasReceiver id, i = .apply arity hasReceiver id → C.AllowsOverflow)
    (hwrite : ∀ id, i = .memberSet id → C.AllowsInUse) : C.Meets (execInstr p i) s := by
  by_cases hcalls : ∃ arity hasReceiver id, i = .apply arity hasReceiver id
  · obtain ⟨arity, hasReceiver, id, rfl⟩ := hcalls
    exact meets_apply hhosted (hcall _ _ _ rfl) (hnodes id List.mem_cons_self) hs arity hasReceiver
  · refine (keeps_execInstr hhosted hnodes hpush (fun arity hasReceiver id h => ?_) hwrite).meets hs
    exact hcalls ⟨arity, hasReceiver, id, h⟩

/-- A whole step keeps a contract that does not depend on the node evaluated last, but for its being a spot. -/
theorem meets_execute (hhosted : C.Hosted) (hs : C.Holds s) {item : Item}
    (hspot : ∀ id, item = .node id → C.spot id ∧ C.also { s with current := some id })
    (hnodes : ∀ i, item = .instr i → ∀ id ∈ i.nodes, C.spot id)
    (hpush : ∀ v, item = .instr (.push v) → C.value s.snapshots.size v)
    (hmade : ∀ id name params code, item = .node id → p.tree.kind? id = some (.function name params code) →
      ∀ identity, C.value s.snapshots.size (.closure identity ⟨id, name, params.length, s.env⟩))
    (hcall : ∀ arity hasReceiver id, item = .instr (.apply arity hasReceiver id) → C.AllowsOverflow)
    (hwrite : ∀ id, item = .instr (.memberSet id) → C.AllowsInUse) : C.Meets (execute p item) s := by
  refine (ensures_bind _ _).mpr (ensures_count (fun readings => ?_) fun readings => ?_)
  · cases item with
    | node id =>
      obtain ⟨hid, halso⟩ := hspot id rfl
      refine (ensures_bind _ _).mpr ((ensures_modify _).mpr ?_)
      exact meets_evalNode hid { hs with also := C.same halso ⟨rfl, rfl, rfl⟩ } fun name params code hkind =>
        hmade id name params code rfl hkind
    | instr i =>
      have hs' : C.Holds { s with steps := s.steps + 1, readings } := { hs with also := C.same hs.also ⟨rfl, rfl, rfl⟩ }
      exact meets_execInstr hhosted hs' (hnodes i rfl) (fun v hv => hpush v (congrArg Item.instr hv))
        (fun _ _ _ hi => hcall _ _ _ (congrArg Item.instr hi)) fun _ hi => hwrite _ (congrArg Item.instr hi)
  · exact ⟨C.same hs.also ⟨rfl, rfl, rfl⟩, C.bare rfl⟩

/-- Where only errors matter, the item does only in so far as it calls a value or writes a member. -/
theorem ofErrors_execute {allows : EvalError → Prop}
    {ordinary : ∀ e : EvalError, (e.fault.isOrdinary = true ∨ ∃ message, e.fault = .malformedTree message) → allows e}
    (hp : p.PreludeOnly) {item : Item}
    (hcall : ∀ arity hasReceiver id, item = .instr (.apply arity hasReceiver id) →
      (ofErrors p allows ordinary).AllowsOverflow)
    (hwrite : ∀ id, item = .instr (.memberSet id) → (ofErrors p allows ordinary).AllowsInUse) (s : State) :
    Ensures (execute p item) s (fun _ _ => True) fun e _ => allows e :=
  (meets_execute (C := ofErrors p allows ordinary) (hosted_of_preludeOnly _ hp) (holds_ofErrors s)
    (fun _ _ => ⟨trivial, trivial⟩) (fun _ _ _ _ => trivial) (fun _ _ => trivial) (fun _ _ _ _ _ _ _ => trivial)
    hcall hwrite).mono (fun _ _ _ => trivial) fun _ _ h => h.2

end Contract

end Machine

end ExplicitControl
