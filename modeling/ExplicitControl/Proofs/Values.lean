import ExplicitControl.Proofs.Faults

/-!
# A property of all values that a program can get at

`Heap.All P` and `Scopes.All P` say that every value held there satisfies `P`.  What a program reads from
there satisfies `P` then, and writing values that satisfy `P` keeps it so.  Operations make new values of
their own, but neither closures nor continuations; so `P` is only asked to hold of all others, the inert ones.
No operation fails with a fault that blames the machine.
-/

namespace ExplicitControl

/-- Values that hold neither an environment nor registers. -/
def Value.isInert : Value → Bool
  | closure .. | continuation _ => false
  | _ => true

/-- Faults that only a machine in a bad state can run into. -/
def Fault.isInternal : Fault → Bool
  | stashUnderflow | malformedTree _ => true
  | _ => false

/-- Values of the wrong kind are no sign of a bad state. -/
theorem Fault.isInternal_of_isTypeMismatch {fault : Fault} (h : fault.isTypeMismatch = true) :
    fault.isInternal = false := by
  cases fault <;> first | rfl | cases h

variable {P : Value → Prop}

/-! ## 1. Objects and the heap -/

def Object.All (P : Value → Prop) (o : Object) : Prop :=
  ∀ entry ∈ o.entries, P entry.2

def Cell.All (P : Value → Prop) : Cell → Prop
  | .array elements => ∀ v ∈ elements, P v
  | .object o => o.All P

theorem Cell.All.mono {P Q : Value → Prop} (hPQ : ∀ v, P v → Q v) {cell : Cell} (h : cell.All P) :
    cell.All Q := by
  cases cell with
  | array elements => exact fun v hv => hPQ v (h v hv)
  | object o => exact fun entry he => hPQ _ (h entry he)

def Heap.All (P : Value → Prop) (h : Heap) : Prop :=
  ∀ cell ∈ h.cells, cell.All P

theorem Heap.All.mono {P Q : Value → Prop} (hPQ : ∀ v, P v → Q v) {h : Heap} (hh : h.All P) : h.All Q :=
  fun cell hcell => (hh cell hcell).mono hPQ

theorem Heap.all_true (heap : Heap) : heap.All fun _ => True := by
  intro cell _
  cases cell with
  | array elements => exact fun _ _ => trivial
  | object o => exact fun _ _ => trivial

namespace Object

theorem All.get? {o : Object} (ho : o.All P) {key : String} {v : Value} (h : o.get? key = some v) :
    P v := by
  obtain ⟨entry, hfound, rfl⟩ := Option.map_eq_some_iff.mp h
  exact ho entry (List.mem_of_find?_eq_some hfound)

theorem setEntry_all {key : String} {v : Value} {entries : List (String × Value)}
    (hentries : ∀ entry ∈ entries, P entry.2) (hv : P v) :
    ∀ entry ∈ setEntry key v entries, P entry.2 := by
  induction entries with
  | nil => intro entry h; rw [setEntry, List.mem_singleton] at h; subst h; exact hv
  | cons first rest ih =>
    rw [List.forall_mem_cons] at hentries
    rw [setEntry]
    split
    · exact List.forall_mem_cons.mpr ⟨hv, hentries.2⟩
    · exact List.forall_mem_cons.mpr ⟨hentries.1, ih hentries.2⟩

theorem All.set {o : Object} (ho : o.All P) {key : String} {v : Value} (hv : P v) :
    (o.set key v).All P :=
  setEntry_all ho hv

theorem all_ofPairs {pairs : List (String × Value)} (hpairs : ∀ pair ∈ pairs, P pair.2) :
    (ofPairs pairs).All P := by
  -- For any object to begin with, since the fold hands on the one made so far.
  suffices h : ∀ o : Object, o.All P →
      (pairs.foldl (fun o pair => o.set pair.1 pair.2) o).All P from
    h empty fun _ h => absurd h List.not_mem_nil
  induction pairs with
  | nil => intro o ho; exact ho
  | cons pair rest ih =>
    rw [List.forall_mem_cons] at hpairs
    intro o ho
    exact ih hpairs.2 _ (ho.set hpairs.1)

end Object

namespace Heap

theorem All.cell {h : Heap} (hh : h.All P) {c : CellId} {cell : Cell} (hc : h.cell? c = some cell) :
    cell.All P :=
  hh cell (Array.mem_of_getElem? hc)

/-- The elements of an array; what is no array has none. -/
theorem All.elements {h : Heap} (hh : h.All P) (c : CellId) :
    ∀ v ∈ (h.array? c).getD #[], P v := by
  cases ha : h.array? c with
  | none => intro v hv; exact absurd hv (by simp)
  | some elements =>
    unfold array? at ha
    split at ha
    next found hc => cases ha; exact hh.cell hc
    next => cases ha

theorem All.properties {h : Heap} (hh : h.All P) (c : CellId) :
    ((h.object? c).getD .empty).All P := by
  cases ho : h.object? c with
  | none => intro entry he; exact absurd he List.not_mem_nil
  | some o =>
    unfold object? at ho
    split at ho
    next found hc => cases ho; exact hh.cell hc
    next => cases ho

theorem All.alloc {h : Heap} (hh : h.All P) {cell : Cell} (hcell : cell.All P) :
    (h.alloc cell).2.All P := by
  intro c hc
  rcases Array.mem_push.mp hc with hc | rfl
  · exact hh c hc
  · exact hcell

/-- Changing one cell in a way that keeps `P` there keeps it everywhere. -/
theorem All.modify {h : Heap} (hh : h.All P) (c : CellId) {f : Cell → Cell}
    (hf : ∀ cell, cell.All P → (f cell).All P) : All P ⟨h.cells.modify c.index f⟩ := by
  -- A cell of the new heap is the changed one or has been there before.
  intro cell hcell
  obtain ⟨i, hi⟩ := Array.mem_iff_getElem?.mp hcell
  simp only [Array.getElem?_modify] at hi
  split at hi
  · obtain ⟨old, hold, rfl⟩ := Option.map_eq_some_iff.mp hi
    exact hf old (hh old (Array.mem_of_getElem? hold))
  · exact hh cell (Array.mem_of_getElem? hi)

theorem All.modifyArray {h : Heap} (hh : h.All P) (c : CellId) {f : Array Value → Array Value}
    (hf : ∀ elements : Array Value, (∀ v ∈ elements, P v) → ∀ v ∈ f elements, P v) :
    (h.modifyArray c f).All P := by
  refine hh.modify c fun cell hcell => ?_
  cases cell with
  | array elements => exact hf elements hcell
  | object o => exact hcell

theorem All.modifyObject {h : Heap} (hh : h.All P) (c : CellId) {f : Object → Object}
    (hf : ∀ o : Object, o.All P → (f o).All P) : (h.modifyObject c f).All P := by
  refine hh.modify c fun cell hcell => ?_
  cases cell with
  | array elements => exact hcell
  | object o => exact hf o hcell

end Heap

/-! ## 2. Operators and conditions -/

def Fine (P : Value → Prop) (r : Except Fault Value) : Prop :=
  match r with
  | .ok v => P v
  | .error fault => fault.isInternal = false

theorem UnaryOp.eval_fine (inert : ∀ v : Value, v.isInert = true → P v) (op : UnaryOp) (v : Value)
    (checks : RuntimeChecks) : Fine P (op.eval v checks) := by
  unfold UnaryOp.eval
  split
  · exact inert _ rfl
  · exact inert _ rfl
  · split
    · rfl
    · exact inert _ rfl
  · split
    · rfl
    · exact inert _ rfl

theorem BinaryOp.isInert_apply (op : BinaryOp) (h : Heap) (left right : Value) :
    (op.apply h left right).isInert = true := by
  cases op <;> try rfl
  unfold BinaryOp.apply BinaryOp.sum
  dsimp only
  split <;> rfl

theorem BinaryOp.eval_fine (inert : ∀ v : Value, v.isInert = true → P v) (op : BinaryOp) (h : Heap)
    (left right : Value) (checks : RuntimeChecks) : Fine P (op.eval h left right checks) := by
  have result : P (op.apply h left right) := inert _ (op.isInert_apply h left right)
  unfold BinaryOp.eval
  split
  · split
    next fault hm => exact Fault.isInternal_of_isTypeMismatch (mismatch?_isTypeMismatch hm)
    next => exact result
  · exact result

theorem ScopeError.fault_regular (e : ScopeError) (name : String) :
    (e.fault name).isInternal = false := by
  cases e <;> rfl

/-! ## 3. Members -/

theorem Member.unlessChecked_fine {checks : RuntimeChecks} {fault : Fault} {v : Value}
    (hfault : fault.isInternal = false) (hv : P v) : Fine P (unlessChecked checks fault v) := by
  unfold unlessChecked
  split
  · exact hfault
  · exact hv

theorem Member.isInert_ofString (s : String) (key : Value) : (ofString s key).isInert = true := by
  unfold ofString
  split <;> rfl

theorem Member.ofArray_fine (inert : ∀ v : Value, v.isInert = true → P v) {elements : Array Value}
    (helements : ∀ v ∈ elements, P v) (key : Value) (checks : RuntimeChecks) :
    Fine P (ofArray elements key checks) := by
  unfold ofArray
  split
  next i _ =>
    rw [Array.getD_eq_getD_getElem?]
    cases h : elements[i]? with
    | none => exact inert _ rfl
    | some v => exact helements v (Array.mem_of_getElem? h)
  next =>
    split
    · split
      · exact inert _ rfl
      · exact unlessChecked_fine rfl (inert _ rfl)
    · exact unlessChecked_fine rfl (inert _ rfl)

theorem memberGet_fine (inert : ∀ v : Value, v.isInert = true → P v) {h : Heap} (hh : h.All P)
    (object key : Value) (checks : RuntimeChecks) : Fine P (memberGet h object key checks) := by
  have property : ∀ (c : CellId) s, P ((((h.object? c).getD .empty).get? s).getD .undefined) := by
    intro c s
    cases hg : ((h.object? c).getD .empty).get? s with
    | none => exact inert _ rfl
    | some v => exact (hh.properties c).get? hg
  unfold memberGet
  split
  next c => exact Member.ofArray_fine inert (hh.elements c) key checks
  next c =>
    split
    · exact property c _
    · split
      · rfl
      · exact property c _
  next s =>
    split
    · split
      · exact inert _ rfl
      · exact Member.unlessChecked_fine rfl (inert _ rfl)
    · exact Member.unlessChecked_fine rfl (inert _ (Member.isInert_ofString s key))
  next => rfl
  next => rfl
  next => exact Member.unlessChecked_fine rfl (inert _ rfl)

theorem Member.writeAt_all (inert : ∀ v : Value, v.isInert = true → P v) {elements : Array Value}
    (helements : ∀ v ∈ elements, P v) (i : Nat) {v : Value} (hv : P v) :
    ∀ w ∈ writeAt elements i v, P w := by
  intro w hw
  unfold writeAt at hw
  split at hw
  · rcases Array.mem_or_eq_of_mem_setIfInBounds hw with hw | rfl
    · exact helements w hw
    · exact hv
  · rcases Array.mem_push.mp hw with hw | rfl
    · rcases Array.mem_append.mp hw with hw | hw
      · exact helements w hw
      · rw [(Array.mem_replicate.mp hw).2]; exact inert _ rfl
    · exact hv

def FineWrite (P : Value → Prop) (r : EStateM.Result Fault Heap Unit) : Prop :=
  match r with
  | .ok _ h => h.All P
  | .error fault _ => fault.isInternal = false

theorem Member.setElement_fine (inert : ∀ v : Value, v.isInert = true → P v) {h : Heap}
    (hh : h.All P) (c : CellId) (key : Value) {v : Value} (hv : P v) (checks : RuntimeChecks) :
    FineWrite P (setElement c key v checks h) := by
  unfold setElement
  split
  next i _ =>
    split
    · rfl
    · exact hh.modifyArray c fun elements he => writeAt_all inert he i hv
  next =>
    split
    · rfl
    · exact hh

theorem Member.setProperty_fine {h : Heap} (hh : h.All P) (c : CellId) (key : Value) {v : Value}
    (hv : P v) (checks : RuntimeChecks) : FineWrite P (setProperty c key v checks h) := by
  unfold setProperty
  split
  next => exact hh.modifyObject c fun o ho => ho.set hv
  next =>
    split
    · rfl
    · split
      next => exact hh.modifyObject c fun o ho => ho.set hv
      next => rfl

theorem memberSet_fine (inert : ∀ v : Value, v.isInert = true → P v) {h : Heap} (hh : h.All P)
    (object key : Value) {v : Value} (hv : P v) (checks : RuntimeChecks) :
    FineWrite P (memberSet object key v checks h) := by
  unfold memberSet
  split
  next c => exact Member.setElement_fine inert hh c key hv checks
  next c => exact Member.setProperty_fine hh c key hv checks
  next => rfl
  next => rfl
  next =>
    split
    · rfl
    · exact hh

/-! ## 4. Variables -/

structure Frame.All (P : Value → Prop) (f : Frame) : Prop where
  head : ∀ entry ∈ f.head, ∀ v ∈ entry.2.value, P v
  receiver : ∀ v ∈ f.receiver, P v

def Scopes.All (P : Value → Prop) (s : Scopes) : Prop :=
  ∀ f ∈ s.frames, f.All P

theorem Scopes.All.mono {P Q : Value → Prop} (hPQ : ∀ v, P v → Q v) {s : Scopes} (h : s.All P) :
    s.All Q :=
  fun f hf => ⟨fun entry he v hv => hPQ v ((h f hf).head entry he v hv),
    fun v hv => hPQ v ((h f hf).receiver v hv)⟩

namespace Frame

theorem All.slot? {f : Frame} (hf : f.All P) {name : Name} {slot : Slot}
    (h : f.slot? name = some slot) : ∀ v ∈ slot.value, P v := by
  obtain ⟨_, hmem⟩ : ∃ name', (name', slot) ∈ f.head := by
    unfold Frame.slot? at h
    obtain ⟨k₁, k₂, hsplit, -⟩ := List.lookup_eq_some_iff.mp h
    exact ⟨name, by rw [hsplit]; simp⟩
  exact hf.head _ hmem

theorem all_ofName (name : String) (tail : Option Env) : (ofName name tail).All P :=
  ⟨fun _ h => absurd h List.not_mem_nil, fun _ h => absurd h (by simp [ofName])⟩

theorem All.insert {f : Frame} (hf : f.All P) {name : Name} {slot : Slot}
    (hslot : ∀ v ∈ slot.value, P v) : (f.insert name slot).All P :=
  ⟨List.forall_mem_cons.mpr ⟨hslot, hf.head⟩, hf.receiver⟩

theorem All.modifySlot {f : Frame} (hf : f.All P) (name : Name) {g : Slot → Slot}
    (hg : ∀ slot, ∀ v ∈ (g slot).value, P v) : (f.modifySlot name g).All P := by
  refine ⟨fun entry he => ?_, hf.receiver⟩
  obtain ⟨old, hold, rfl⟩ := List.mem_map.mp he
  split
  · exact hg old.2
  · exact hf.head old hold

theorem All.copy {f : Frame} (hf : f.All P) (names : List Name) : (f.copy names).All P := by
  refine ⟨fun entry he => ?_, fun _ h => absurd h (by simp [Frame.copy, ofName])⟩
  obtain ⟨name, -, hname⟩ := List.mem_filterMap.mp he
  obtain ⟨slot, hslot, rfl⟩ := Option.map_eq_some_iff.mp hname
  exact hf.slot? hslot

end Frame

namespace Scopes

theorem All.frame {s : Scopes} (hs : s.All P) {i : Nat} {f : Frame} (h : s.frames[i]? = some f) :
    f.All P :=
  hs f (Array.mem_of_getElem? h)

theorem All.alloc {s : Scopes} (hs : s.All P) (id : UInt32) {f : Frame} (hf : f.All P) :
    (s.alloc id f).2.All P := by
  intro g hg
  rcases Array.mem_push.mp hg with hg | rfl
  · exact hs g hg
  · exact hf

theorem All.child {s : Scopes} (hs : s.All P) (env : Env) (id : UInt32) (name : String) :
    (s.child env id name).2.All P :=
  hs.alloc id (Frame.all_ofName name _)

theorem All.call {s : Scopes} (hs : s.All P) (env : Env) (id : UInt32) (name : String)
    (site : NodeId) {receiver : Option Value} (hreceiver : ∀ v ∈ receiver, P v) :
    (s.call env id name site receiver).2.All P :=
  hs.alloc id ⟨fun _ h => absurd h List.not_mem_nil, hreceiver⟩

theorem All.copyBindings {s : Scopes} (hs : s.All P) (env : Env) (id : UInt32) (names : List Name) :
    (s.copyBindings env id names).2.All P := by
  refine hs.alloc id (Frame.All.copy ?_ names)
  cases hf : s.frame? env with
  | none => exact Frame.all_ofName "" none
  | some f => exact hs.frame hf

theorem All.modify {s : Scopes} (hs : s.All P) (i : Nat) {g : Frame → Frame}
    (hg : ∀ f, f.All P → (g f).All P) : All P ⟨s.frames.modify i g⟩ := by
  intro f hf
  obtain ⟨j, hj⟩ := Array.mem_iff_getElem?.mp hf
  simp only [Array.getElem?_modify] at hj
  split at hj
  · obtain ⟨old, hold, rfl⟩ := Option.map_eq_some_iff.mp hj
    exact hg old (hs.frame hold)
  · exact hs.frame hj

def Kept (P : Value → Prop) (r : EStateM.Result ScopeError Scopes Unit) : Prop :=
  match r with
  | .ok _ s => s.All P
  | .error _ _ => True

theorem addSlot_kept {s : Scopes} (hs : s.All P) (env : Env) (name : Name) {slot : Slot}
    (hslot : ∀ v ∈ slot.value, P v) : Kept P (addSlot env name slot s) := by
  unfold addSlot
  split
  · trivial
  · exact hs.modify _ fun f hf => hf.insert hslot

theorem declare_kept {s : Scopes} (hs : s.All P) (env : Env) (name : Name) (mutability : Mutability) :
    Kept P (declare env name mutability s) :=
  addSlot_kept hs env name fun _ h => absurd h (by simp)

theorem define_kept {s : Scopes} (hs : s.All P) (env : Env) (name : Name) {v : Value} (hv : P v)
    (mutability : Mutability) : Kept P (define env name v mutability s) :=
  addSlot_kept hs env name fun _ h => by cases h; exact hv

theorem all_filled {s : Scopes} (hs : s.All P) (i : Nat) (name : Name) {v : Value} (hv : P v) :
    (s.modifySlot i name fun slot => { slot with value := some v }).All P :=
  hs.modify i fun _ hf => hf.modifySlot name fun _ _ h => by cases h; exact hv

theorem fill_kept {s : Scopes} (hs : s.All P) (env : Env) (name : Name) {v : Value} (hv : P v) :
    Kept P (fill env name v s) := by
  unfold fill
  split
  · trivial
  · exact all_filled hs _ name hv

theorem assign_kept {s : Scopes} (hs : s.All P) (env : Env) (name : Name) {v : Value} (hv : P v) :
    Kept P (assign env name v s) := by
  unfold assign
  split
  · split
    · trivial
    · split
      · trivial
      · exact all_filled hs _ name hv
  · trivial

theorem All.lookup {s : Scopes} (hs : s.All P) {env : Env} {name : Name} {v : Value}
    (h : s.lookup env name = .ok v) : P v := by
  unfold Scopes.lookup at h
  split at h
  next => cases h
  next slot hslot =>
    unfold Scopes.slot? at hslot
    obtain ⟨i, -, hslot⟩ := Option.bind_eq_some_iff.mp hslot
    obtain ⟨f, hf, hslot⟩ := Option.bind_eq_some_iff.mp hslot
    split at h
    next found hfound => cases h; exact (hs.frame hf).slot? hslot _ hfound
    next => cases h

theorem All.receiver? {s : Scopes} (hs : s.All P) {env : Env} {v : Value}
    (h : s.receiver? env = some v) : P v := by
  unfold Scopes.receiver? at h
  obtain ⟨i, -, h⟩ := Option.bind_eq_some_iff.mp h
  obtain ⟨f, hf, h⟩ := Option.bind_eq_some_iff.mp h
  exact (hs.frame hf).receiver _ h

end Scopes

/-! ## 5. What every program finds -/

/-- A host function's end: it keeps `P`, and never passes on an error of evaluation. -/
def FineHost (P : Value → Prop) (r : EStateM.Result HostError HostState Value) : Prop :=
  match r with
  | .ok v s => P v ∧ s.heap.All P
  | .error e _ => ∃ message, e = .failed message

namespace Prelude

theorem first_all (inert : ∀ v : Value, v.isInert = true → P v) {args : List Value}
    (hargs : ∀ v ∈ args, P v) : P (first args) := by
  cases args with
  | nil => exact inert _ rfl
  | cons v rest => exact hargs v List.mem_cons_self

theorem append_fine (inert : ∀ v : Value, v.isInert = true → P v) {s : HostState}
    (hs : s.heap.All P) (target : Value) {vs : List Value} (hvs : ∀ v ∈ vs, P v) :
    FineHost P (append target vs s) := by
  cases target with
  | array c =>
    refine ⟨inert _ rfl, hs.modifyArray c fun elements he v hv => ?_⟩
    rcases Array.mem_append.mp hv with hv | hv
    · exact he v hv
    · exact hvs v (by simpa using hv)
  | _ => exact ⟨_, rfl⟩

theorem popMethod_fine (inert : ∀ v : Value, v.isInert = true → P v) {s : HostState}
    (hs : s.heap.All P) (receiver : Option Value) : FineHost P (popMethod receiver s) := by
  rcases receiver with _ | receiver
  · exact ⟨_, rfl⟩
  cases receiver with
  | array c =>
    refine ⟨?_, hs.modifyArray c fun elements he v hv => ?_⟩
    · cases hlast : ((s.heap.array? c).getD #[]).back? with
      | none => exact inert _ rfl
      | some v => exact hs.elements c v (Array.mem_of_back? hlast)
    · obtain ⟨i, hi⟩ := Array.mem_iff_getElem?.mp hv
      rw [Array.getElem?_pop] at hi
      split at hi
      · exact he v (Array.mem_of_getElem? hi)
      · cases hi
  | _ => exact ⟨_, rfl⟩

theorem arrayLength_fine (inert : ∀ v : Value, v.isInert = true → P v) {s : HostState}
    (hs : s.heap.All P) (args : List Value) : FineHost P (arrayLength args s) := by
  unfold arrayLength
  dsimp only [bind, EStateM.bind]
  cases first args with
  | array c => exact ⟨inert _ rfl, hs⟩
  | _ => exact ⟨_, rfl⟩

theorem mathFloor_fine (inert : ∀ v : Value, v.isInert = true → P v) {s : HostState}
    (hs : s.heap.All P) (args : List Value) : FineHost P (mathFloor args s) := by
  simp only [mathFloor, numberArgument, bind, EStateM.bind]
  cases first args with
  | number x => exact ⟨inert _ rfl, hs⟩
  | _ => exact ⟨_, rfl⟩

theorem mathSqrt_fine (inert : ∀ v : Value, v.isInert = true → P v) {s : HostState}
    (hs : s.heap.All P) (args : List Value) : FineHost P (mathSqrt args s) := by
  simp only [mathSqrt, numberArgument, bind, EStateM.bind]
  cases first args with
  | number x =>
    simp only [pure, EStateM.pure]
    split
    · exact ⟨_, rfl⟩
    · exact ⟨inert _ rfl, hs⟩
  | _ => exact ⟨_, rfl⟩

theorem body_fine (inert : ∀ v : Value, v.isInert = true → P v) {s : HostState} (hs : s.heap.All P)
    (b : Builtin) {receiver : Option Value} {args : List Value} (hargs : ∀ v ∈ args, P v) :
    FineHost P (body b receiver args s) := by
  cases b with
  | display => exact ⟨first_all inert hargs, hs⟩
  | error => exact ⟨_, rfl⟩
  | stringify => exact ⟨inert _ rfl, hs⟩
  | arrayLength => exact arrayLength_fine inert hs args
  | push =>
    cases args with
    | nil => exact ⟨_, rfl⟩
    | cons target vs => exact append_fine inert hs target (List.forall_mem_cons.mp hargs).2
  | isNumber | isString | isBoolean | isFunction | isArray | isUndefined => exact ⟨inert _ rfl, hs⟩
  | mathFloor => exact mathFloor_fine inert hs args
  | mathSqrt => exact mathSqrt_fine inert hs args
  | pushMethod => exact append_fine inert hs _ hargs
  | popMethod => exact popMethod_fine inert hs receiver

end Prelude

/-! ## 6. The functions of the host -/

/-- The functions of the host are those that every program finds. -/
structure Setting.PreludeOnly (p : Setting) : Prop where
  embedded : p.embedded = #[]
  methods : ∀ entry ∈ p.methods, entry.2.isInert = true

/-- The function makes values that satisfy `P` only, if all that it is given and finds in arrays and objects
do. -/
def EmbeddedFunction.Keeps (P : Value → Prop) (f : EmbeddedFunction) : Prop :=
  ∀ (receiver : Option Value) (args : List Value) (s : HostState), (∀ v ∈ receiver, P v) → (∀ v ∈ args, P v) →
    s.heap.All P →
      match f.body receiver args s with
      | .ok v s' => P v ∧ s'.heap.All P
      | .error _ _ => True

structure Setting.Keeps (P : Value → Prop) (p : Setting) : Prop where
  embedded : ∀ f ∈ p.embedded, f.Keeps P
  methods : ∀ entry ∈ p.methods, entry.2.isInert = true

theorem Setting.PreludeOnly.keeps {p : Setting} (hp : p.PreludeOnly) (P : Value → Prop) : p.Keeps P :=
  ⟨fun f hf => absurd (hp.embedded ▸ hf) (Array.not_mem_empty f), hp.methods⟩

namespace Machine

variable {p : Setting} {action : HostAction} {receiver : Option Value} {args : List Value}

theorem hostBody_keeps (inert : ∀ v : Value, v.isInert = true → P v) (hp : p.Keeps P) (action : HostAction)
    {s : HostState}
    (hs : s.heap.All P) (hargs : ∀ v ∈ args, P v) (hreceiver : ∀ v ∈ receiver, P v) :
    match hostBody p action receiver args s with
    | .ok v s' => P v ∧ s'.heap.All P
    | .error _ _ => True := by
  cases action with
  | builtin b =>
    have hfine : FineHost P (Prelude.body b receiver args s) := Prelude.body_fine inert hs b hargs
    show match Prelude.body b receiver args s with
      | .ok v s' => P v ∧ s'.heap.All P
      | .error _ _ => True
    unfold FineHost at hfine
    split
    next hr => rw [hr] at hfine; exact hfine
    next => trivial
  | embedded index =>
    unfold hostBody
    cases hf : p.embedded[index]? with
    | none => simp only [hf]; exact trivial
    | some g =>
      simp only [hf]
      exact hp.embedded g (Array.mem_of_getElem? hf) receiver args s hreceiver hargs hs

/-- What every program finds fails in its own words. -/
theorem hostBody_failed (hnone : p.embedded = #[]) {s s' : HostState} {e : HostError}
    (h : hostBody p action receiver args s = .error e s') : ∃ message, e = .failed message := by
  cases action with
  | builtin b =>
    have hfine : FineHost (fun _ => True) (Prelude.body b receiver args s) :=
      Prelude.body_fine (fun _ _ => trivial) s.heap.all_true b fun _ _ => trivial
    rw [show Prelude.body b receiver args s = _ from h] at hfine
    exact hfine
  | embedded index =>
    have hmissing : p.embedded[index]? = none := by rw [hnone]; rfl
    simp only [hostBody, hmissing] at h
    cases h
    exact ⟨_, rfl⟩

theorem findMethod_fine (inert : ∀ v : Value, v.isInert = true → P v)
    (hmethods : ∀ entry ∈ p.methods, entry.2.isInert = true) {h : Heap} (hh : h.All P) (object key : Value) :
    Fine P (findMethod p h object key) := by
  have member := memberGet_fine inert hh object key p.checks
  unfold findMethod
  split
  next name =>
    split
    next method hmethod =>
      obtain ⟨k₁, k₂, hsplit, -⟩ := List.lookup_eq_some_iff.mp hmethod
      exact inert _ (hmethods (name, method) (by rw [hsplit]; simp))
    next => exact member
  next => exact member

end Machine

end ExplicitControl
