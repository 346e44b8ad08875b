import ExplicitControl.Proofs.Demand
import ExplicitControl.Proofs.Values

/-!
# Values taken and left

Most of what a step does is work on values: some are taken off the stash, others are left there, and items are put in
front of the pending work that are to provide values later.  `Offers` says how many values an operation takes, which
items it may put in front and how many values it leaves when it puts none, and that it does not run out of values and
leaves everything else alone.  The numbers of operations in turn add up, so those of an instruction are found by going
through its parts.
-/

namespace ExplicitControl

/-! ## 1. Numbers of values -/

/-- The values that an instruction pops or looks at. -/
def Instr.pops : Instr → Nat
  | .pushUndefinedIfNeeded | .logical .. | .branch .. | .whileTest .. | .forTest .. => 1
  | .apply arity hasReceiver _ => arity + 1 + hasReceiver.toNat
  | i => i.takes

/-- The values that it leaves at once, if it puts no items in front. -/
def Instr.pushes : Instr → Nat
  | .pushUndefinedIfNeeded | .logical .. | .branch .. => 1
  | i => i.gives

/-- The values that an instruction takes, until the work that it schedules has been done. -/
def Instr.input : Instr → Nat
  | .reset | .pushUndefinedIfNeeded | .logical .. | .branch .. => 1
  | .whileTest .. | .forTest .. => 2
  | .apply arity hasReceiver _ => arity + 1 + hasReceiver.toNat
  | i => i.takes

def Instr.output : Instr → Nat
  | .reset | .pushUndefinedIfNeeded | .logical .. | .branch .. | .whileTest .. | .forTest .. | .apply ..
  | .breakLoop _ | .continueLoop _ => 1
  | i => i.gives

def Item.pops : Item → Nat
  | .node _ => 0
  | .instr i => i.pops

/-- `k` values on top have been exchanged for `g` others. -/
structure Stash.Exchanged (k g : Nat) (a b : Stash) : Prop where
  given : g ≤ b.length
  beneath : b.drop g = a.drop k

namespace Stash

variable {k g j m : Nat} {a b c : Stash}

theorem exchanged_refl (a : Stash) : Exchanged 0 0 a a :=
  ⟨Nat.zero_le _, rfl⟩

theorem Exchanged.eq (h : Exchanged 0 0 a b) : b = a :=
  h.beneath

theorem Exchanged.length (h : Exchanged k g a b) (hk : k ≤ a.length) : b.length + k = a.length + g := by
  have hlength := congrArg List.length h.beneath
  rw [List.length_drop, List.length_drop] at hlength
  have hgiven := h.given
  omega

/-- What is left first is all taken again. -/
theorem Exchanged.trans (h : Exchanged k m a b) (h' : Exchanged (j + m) g b c) : Exchanged (k + j) g a c := by
  refine ⟨h'.given, ?_⟩
  rw [h'.beneath, Nat.add_comm j m, ← List.drop_drop, h.beneath, List.drop_drop]

end Stash

structure State.Over (base : Stash) (n : Nat) (s : State) : Prop where
  suffix : base <:+ s.stash
  size : s.stash.length = base.length + n

section

variable {base : Stash} {s s' : State} {n k g : Nat}

theorem State.Over.exists_cons (h : s.Over base 1) : ∃ v, s.stash = v :: base := by
  obtain ⟨taken, htaken⟩ := h.suffix
  have hsize := h.size
  rw [← htaken, List.length_append, Nat.add_comm] at hsize
  obtain ⟨v, rfl⟩ := List.length_eq_one_iff.mp (Nat.add_left_cancel hsize)
  exact ⟨v, htaken.symm⟩

theorem State.Over.le (h : s.Over base (n + k)) : k ≤ s.stash.length := by
  rw [h.size, ← Nat.add_assoc]
  exact Nat.le_add_left _ _

/-- What is beneath the values exchanged stays there. -/
theorem State.Over.exchange (h : s.Over base (n + k)) (hx : Stash.Exchanged k g s.stash s'.stash) :
    s'.Over base (n + g) := by
  have hlength := hx.length h.le
  have hsize := h.size
  refine ⟨?_, by omega⟩
  have hbase : base <:+ s.stash.drop k := by
    refine List.suffix_of_suffix_length_le h.suffix (List.drop_suffix _ _) ?_
    rw [List.length_drop]
    omega
  exact hbase.trans (hx.beneath ▸ List.drop_suffix g s'.stash)

theorem State.Over.of_eq (h : s.Over base n) (hstash : s'.stash = s.stash) : s'.Over base n :=
  ⟨hstash ▸ h.suffix, hstash ▸ h.size⟩

theorem State.Over.push {v : Value} (h : s.Over base n) (hstash : s'.stash = v :: s.stash) :
    s'.Over base (n + 1) := by
  refine ⟨?_, ?_⟩
  · rw [hstash]
    exact h.suffix.trans (List.suffix_cons _ _)
  · rw [hstash, List.length_cons, h.size]
    omega

end

structure State.Still (s s' : State) : Prop where
  env : s'.env = s.env
  scopes : s'.scopes = s.scopes
  calls : s'.calls = s.calls
  snapshots : s'.snapshots = s.snapshots
  next : s'.nextEnvId = s.nextEnvId

theorem State.Still.trans {s s' s'' : State} (h : s.Still s') (h' : s'.Still s'') : s.Still s'' :=
  ⟨h'.env.trans h.env, h'.scopes.trans h.scopes, h'.calls.trans h.calls, h'.snapshots.trans h.snapshots,
    h'.next.trans h.next⟩

theorem State.Still.refl (s : State) : s.Still s :=
  ⟨rfl, rfl, rfl, rfl, rfl⟩

theorem Agenda.ofStatements_ne_nil (ids : List NodeId) : ofStatements ids ≠ [] := by
  fun_cases Agenda.ofStatements ids <;> exact List.cons_ne_nil _ _

theorem Fault.ne_stashUnderflow {fault : Fault} (h : fault.isInternal = false) :
    fault ≠ .stashUnderflow := by
  rintro rfl
  cases h

theorem Fault.ne_stashUnderflow_of_isTypeMismatch {fault : Fault} (h : fault.isTypeMismatch = true) :
    fault ≠ .stashUnderflow :=
  ne_stashUnderflow (isInternal_of_isTypeMismatch h)

namespace Machine

variable {α β : Type} {p : Setting}

def NotUnderflow (e : EvalError) : Prop :=
  e.fault ≠ .stashUnderflow

theorem notUnderflow_of_regular {e : EvalError} (h : e.fault.isInternal = false) : NotUnderflow e :=
  Fault.ne_stashUnderflow h

/-! ## 2. Operations and their offers -/

/-- The operation puts one of the lists `offers` in front, and else changes values only.  Where there are `k` values
it exchanges them for `g` others, or for none if the items in front are to provide them, and does not fail for want
of values. -/
def Offers (k g : Nat) (offers : List (List Item)) (x : MachineM α) : Prop :=
  ∀ s, Ensures x s
    (fun _ s' => s.Still s' ∧ ∃ items ∈ offers, s'.agenda = items ++ s.agenda ∧
      (k ≤ s.stash.length → Stash.Exchanged k (if items = [] then g else 0) s.stash s'.stash))
    fun e _ => k ≤ s.stash.length → NotUnderflow e

abbrev Quiet (k g : Nat) (x : MachineM α) : Prop :=
  Offers k g [[]] x

variable {k g : Nat} {offers : List (List Item)}

theorem quiet_of_still {x : MachineM α}
    (h : ∀ s, Ensures x s (fun _ s' => s.Still s' ∧ s'.agenda = s.agenda ∧
      (k ≤ s.stash.length → Stash.Exchanged k g s.stash s'.stash)) fun e _ => k ≤ s.stash.length → NotUnderflow e) :
    Quiet k g x :=
  fun s => (h s).mono (fun _ _ ⟨hstill, hagenda, hstash⟩ => ⟨hstill, [], List.mem_singleton_self _, hagenda, hstash⟩)
    fun _ _ h => h

theorem Offers.weaken {more : List (List Item)} {x : MachineM α} (hx : Offers k g offers x)
    (h : ∀ items ∈ offers, items ∈ more) : Offers k g more x :=
  fun s => (hx s).mono (fun _ _ ⟨hstill, items, hitems, hs'⟩ => ⟨hstill, items, h items hitems, hs'⟩) fun _ _ h => h

/-- What the first operation leaves is taken by the second. -/
theorem Offers.bind {j m : Nat} {x : MachineM α} {f : α → MachineM β} (hx : Quiet k m x)
    (hf : ∀ a, Offers (j + m) g offers (f a)) : Offers (k + j) g offers (x >>= f) := by
  intro s
  rw [ensures_bind]
  refine (hx s).mono (fun a s' ⟨hstill, items, hitems, hagenda, hstash⟩ => ?_) fun _ _ h hk => h (by omega)
  obtain rfl := List.mem_singleton.mp hitems
  rw [if_pos rfl] at hstash
  have hcounts : k + j ≤ s.stash.length → j + m ≤ s'.stash.length := by
    intro hk
    have := (hstash (by omega)).length (by omega)
    omega
  refine (hf a s').mono (fun _ s'' ⟨hstill', items, hitems, hagenda', hstash'⟩ => ?_) fun _ _ h hk => h (hcounts hk)
  refine ⟨hstill.trans hstill', items, hitems, by rw [hagenda', hagenda, List.nil_append], fun hk => ?_⟩
  exact (hstash (by omega)).trans (hstash' (hcounts hk))

/-- The values may lie above others. -/
theorem Quiet.above {x : MachineM α} (hx : Quiet k g x) : Quiet (k + 1) (g + 1) x := by
  refine quiet_of_still fun s => (hx s).mono (fun _ s' ⟨hstill, items, hitems, hagenda, hstash⟩ => ?_)
    fun _ _ h hk => h (Nat.le_of_succ_le hk)
  obtain rfl := List.mem_singleton.mp hitems
  refine ⟨hstill, hagenda, fun hk => ?_⟩
  have hexchanged := hstash (Nat.le_of_succ_le hk)
  rw [if_pos rfl] at hexchanged
  have hlength := hexchanged.length (Nat.le_of_succ_le hk)
  refine ⟨by omega, ?_⟩
  rw [← List.drop_drop, hexchanged.beneath, List.drop_drop]

theorem quiet_pure (a : α) : Quiet 0 0 (pure a : MachineM α) :=
  quiet_of_still fun s => ⟨.refl s, rfl, fun _ => Stash.exchanged_refl _⟩

theorem quiet_get : Quiet 0 0 (get : MachineM State) :=
  quiet_of_still fun s => ⟨.refl s, rfl, fun _ => Stash.exchanged_refl _⟩

theorem quiet_failAt {node : NodeId} {fault : Fault} (h : fault ≠ .stashUnderflow) :
    Quiet k g (failAt p node fault : MachineM α) :=
  fun _ _ => h

theorem offers_missing (id : NodeId) {f : NodeKind → MachineM α} (h : p.tree.kind? id = none) :
    Offers k g offers (kindOf p id >>= f) := by
  unfold kindOf
  rw [h]
  exact fun _ _ => nofun

theorem quiet_orFailAt {node : NodeId} {r : Except Fault α}
    (h : ∀ fault, r = .error fault → fault.isTypeMismatch = true) : Quiet 0 0 (orFailAt p node r) := by
  cases r with
  | ok a => exact quiet_pure a
  | error fault => exact quiet_failAt (Fault.ne_stashUnderflow_of_isTypeMismatch (h fault rfl))

theorem quiet_condition (context : String) (v : Value) (node : NodeId) :
    Quiet 0 0 (orFailAt p node (v.condition context p.checks)) :=
  quiet_orFailAt fun _ => Value.condition_isTypeMismatch

theorem quiet_onHeap {node : NodeId} {op : EStateM Fault Heap α}
    (h : ∀ heap fault heap', op heap = .error fault heap' → fault ≠ .stashUnderflow) :
    Quiet 0 0 (onHeap p node op) := by
  refine quiet_of_still fun s => ?_
  rw [ensures_onHeap]
  cases hop : op s.heap with
  | ok a heap => exact ⟨⟨rfl, rfl, rfl, rfl, rfl⟩, rfl, fun _ => Stash.exchanged_refl _⟩
  | error fault heap => exact fun _ => h _ _ _ hop

theorem quiet_allocate (make : Heap → Value × Heap) : Quiet 0 0 (allocate make) :=
  quiet_of_still fun _ => ⟨⟨rfl, rfl, rfl, rfl, rfl⟩, rfl, fun _ => Stash.exchanged_refl _⟩

theorem quiet_freshIdentity : Quiet 0 0 freshIdentity :=
  quiet_of_still fun _ => ⟨⟨rfl, rfl, rfl, rfl, rfl⟩, rfl, fun _ => Stash.exchanged_refl _⟩

theorem quiet_push (v : Value) : Quiet 0 1 (push v) :=
  quiet_of_still fun _ => ⟨⟨rfl, rfl, rfl, rfl, rfl⟩, rfl, fun _ => ⟨Nat.succ_pos _, rfl⟩⟩

theorem quiet_popN (k : Nat) : Quiet k 0 (onStash (Stash.popN k)) := by
  refine quiet_of_still fun s => ?_
  rw [ensures_popN]
  split
  next hk => exact ⟨⟨rfl, rfl, rfl, rfl, rfl⟩, rfl, fun _ => ⟨Nat.zero_le _, rfl⟩⟩
  next hk => exact fun h => absurd h hk

theorem quiet_pop : Quiet 1 0 pop := by
  refine quiet_of_still fun s => ?_
  rw [ensures_pop]
  cases h : s.stash with
  | nil => exact fun hk => absurd hk (Nat.not_succ_le_zero 0)
  | cons v rest => exact ⟨⟨rfl, rfl, rfl, rfl, rfl⟩, rfl, fun _ => ⟨Nat.zero_le _, rfl⟩⟩

theorem quiet_peek : Quiet 1 1 (onStash Stash.peek) := by
  refine quiet_of_still fun s => ?_
  rw [ensures_peek]
  cases h : s.stash with
  | nil => exact fun hk => absurd hk (Nat.not_succ_le_zero 0)
  | cons v rest => exact ⟨⟨rfl, rfl, rfl, rfl, rfl⟩, rfl, fun _ => ⟨Nat.succ_pos _, rfl⟩⟩

theorem quiet_replaceTop (v : Value) : Quiet 1 1 (onStash (Stash.replaceTop v)) := by
  refine quiet_of_still fun s => ?_
  rw [ensures_replaceTop]
  cases h : s.stash with
  | nil => exact fun hk => absurd hk (Nat.not_succ_le_zero 0)
  | cons w rest => exact ⟨⟨rfl, rfl, rfl, rfl, rfl⟩, rfl, fun _ => ⟨Nat.succ_pos _, rfl⟩⟩

theorem quiet_found {node : NodeId} {r : Except Fault Value}
    (h : ∀ fault, r = .error fault → fault.isTypeMismatch = true) : Quiet 0 1 (orFailAt p node r >>= push) :=
  (quiet_orFailAt h).bind fun v => quiet_push v

/-- Items are to provide the values. -/
theorem offers_schedule {items : List Item} (h : items ≠ []) : Offers 0 g [items] (schedule items) := by
  refine fun s => ⟨⟨rfl, rfl, rfl, rfl, rfl⟩, items, List.mem_singleton_self _, rfl, fun _ => ?_⟩
  rw [if_neg h]
  exact Stash.exchanged_refl _

/-! ## 3. Instructions -/

def tripItems (test update : Option NodeId) (body : NodeId) (vars : List Name) (node : NodeId) : List Item :=
  [.instr .pop, .node body, .instr (.marker .tripEnd), .instr (.freshTrip vars)] ++
    (update.map fun id => [Item.node id, .instr .pop]).getD [] ++
      [loopTest test, .instr (.forTest test update body vars node)]

end Machine

def Instr.offers : Instr → List (List Item)
  | .logical _ right _ => [[], [.node right]]
  | .branch consequent alternate _ => [[.node consequent], (alternate.map fun id => [Item.node id]).getD []]
  | .whileTest test body node =>
    [[], [.instr .pop, .node body, .instr (.marker .tripEnd), .node test, .instr (.whileTest test body node)]]
  | .forTest test update body vars node => [[], Machine.tripItems test update body vars node]
  | _ => [[]]

namespace Machine

variable {p : Setting}

/-- An instruction that changes neither control nor frames, except for items put in front. -/
def isPlainInstr : Instr → Bool
  | .assign .. | .declare .. | .restore .. | .reset | .breakLoop _ | .continueLoop _ | .apply .. => false
  | .freshTrip vars => vars.isEmpty
  | _ => true

/-- Each is made of values taken, work that leaves the stash alone, and values pushed or items put in front. -/
theorem offers_execInstr {i : Instr} (hi : isPlainInstr i = true) :
    Offers i.pops i.pushes i.offers (execInstr p i) := by
  have first : ∀ {k g : Nat} {items : List Item} {l : List (List Item)} {x : MachineM Unit}, Offers k g [items] x →
      Offers k g (items :: l) x :=
    fun h => h.weaken fun _ hitems => List.mem_cons.mpr (.inl (List.mem_singleton.mp hitems))
  have second : ∀ {k g : Nat} {items other : List Item} {x : MachineM Unit}, Offers k g [items] x →
      Offers k g [other, items] x :=
    fun h => h.weaken fun _ hitems => List.mem_cons_of_mem _ hitems
  cases i with
  | marker m =>
    cases m with
    | call => exact quiet_replaceTop _
    | loopEnd => exact quiet_pure _
    | tripEnd => exact quiet_pure _
  | pop => exact quiet_pop.bind fun _ => quiet_pure _
  | push v => exact quiet_push v
  | pushUndefinedIfNeeded =>
    refine quiet_of_still fun s => ?_
    unfold execInstr
    rw [ensures_bind, ensures_get]
    split
    next hempty =>
      -- Where there is a value, none is pushed.
      refine ⟨⟨rfl, rfl, rfl, rfl, rfl⟩, rfl, fun hk => ?_⟩
      rw [List.isEmpty_iff.mp hempty] at hk
      cases hk
    next => exact ⟨.refl s, rfl, fun hk => ⟨hk, rfl⟩⟩
  | unary op node => exact quiet_pop.bind fun v => quiet_found fun _ => UnaryOp.eval_isTypeMismatch
  | binary op node =>
    exact quiet_pop.bind fun right => quiet_pop.bind fun left => quiet_get.bind fun s =>
      quiet_found fun _ => BinaryOp.eval_isTypeMismatch
  | logical op right node =>
    refine quiet_pop.bind fun v => (quiet_orFailAt fun _ => LogicalOp.truth_isTypeMismatch).bind fun b => ?_
    split
    · exact first (quiet_push _)
    · exact second (offers_schedule (List.cons_ne_nil _ _))
  | branch consequent alternate node =>
    refine quiet_pop.bind fun v => (quiet_condition _ v node).bind fun b => ?_
    split
    · exact first (offers_schedule (List.cons_ne_nil _ _))
    · refine second ?_
      cases alternate with
      | none => exact quiet_push _
      | some id => exact offers_schedule (List.cons_ne_nil _ _)
  | whileTest test body node =>
    refine quiet_pop.bind fun v => (quiet_condition _ v node).bind fun b => ?_
    split
    · exact second (offers_schedule (List.cons_ne_nil _ _))
    · exact first (quiet_pure _)
  | forTest test update body vars node =>
    refine quiet_pop.bind fun v => (quiet_condition _ v node).bind fun b => ?_
    split
    · exact second (offers_schedule (List.cons_ne_nil _ _))
    · exact first (quiet_pure _)
  | freshTrip vars =>
    have hvars : vars.isEmpty = true := hi
    show Offers 0 0 [[]] (unless vars.isEmpty do _)
    rw [hvars]
    exact quiet_pure _
  | makeArray size node =>
    exact (quiet_popN size).bind fun _ => (quiet_allocate _).bind fun v => quiet_push v
  | makeObject keys node =>
    exact (quiet_popN keys.length).bind fun _ => (quiet_allocate _).bind fun v => quiet_push v
  | memberGet node =>
    exact quiet_pop.bind fun key => quiet_pop.bind fun object => quiet_get.bind fun s =>
      quiet_found fun _ => memberGet_isTypeMismatch
  | memberSet node =>
    have written : ∀ object key v : Value, Quiet 0 0 (onHeap p node (memberSet object key v p.checks)) := by
      refine fun object key v => quiet_onHeap fun heap fault heap' h => ?_
      obtain hmismatch | ⟨rfl, -⟩ := memberSet_fault_cases h
      · exact Fault.ne_stashUnderflow_of_isTypeMismatch hmismatch
      · simp
    exact Offers.bind (j := 2) quiet_pop fun v => Offers.bind (j := 1) quiet_pop fun key =>
      quiet_pop.bind fun object => (written object key v).bind fun _ => quiet_push v
  | methodLookup property node =>
    have looked : ∀ key : Value, Quiet 1 2 (onStash Stash.peek >>= fun object =>
        get >>= fun s => orFailAt p node (findMethod p s.heap object key) >>= push) :=
      fun key => quiet_peek.bind fun object => Quiet.above (quiet_get.bind fun s =>
        quiet_found fun _ => findMethod_isTypeMismatch)
    cases property with
    | some name => exact (quiet_pure _).bind looked
    | none => exact quiet_pop.bind looked
  | _ => cases hi

end Machine

end ExplicitControl
