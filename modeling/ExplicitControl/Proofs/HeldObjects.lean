import ExplicitControl.Proofs.Contracts
import ExplicitControl.Proofs.Members

/-!
# Objects that are held

While a property is written its object is held, and nothing may look into it.  The text of the key is made just then:
if it looks into the object, the write cannot be carried out, whatever its value.  That is the only operation of the
machine that may come upon an object that is held.  Every other operation has its texts made before it changes
anything, or holds nothing.
-/

namespace ExplicitControl

/-! ## 1. Reads -/

/-- A read that fails has been given something that has no members, or no such members. -/
theorem memberGet_ne_inUse (h : Heap) (object key : Value) (checks : RuntimeChecks) :
    memberGet h object key checks ≠ .error .objectInUse :=
  fun herror => nomatch memberGet_isTypeMismatch herror

/-! ## 2. Writes -/

section

variable {h : Heap} {object key v : Value} {checks : RuntimeChecks}

/-- The write holds an object that the text of its key looks into. -/
def Heap.InUse (h : Heap) (object key : Value) (checks : RuntimeChecks) : Prop :=
  ∃ c, object = .object c ∧ checks.member = false ∧ (∀ s, key ≠ .string s) ∧ c ∈ (h.drawing key).cells

/-- An object is looked into for its own text. -/
theorem mem_cells_drawing_self {c : CellId} (hv : (Value.object c).IsIn h) : c ∈ (h.drawing (.object c)).cells := by
  obtain ⟨ms, hms⟩ := Heap.exists_members? hv rfl
  show c ∈ (draw h.cell? (15 + 1) (.object c) [] (9999 + 1)).1.cells
  rw [draw_container rfl List.not_mem_nil hms]
  exact List.mem_cons_self

theorem memberSet_ne_inUse (hobject : ∀ c, object ≠ .object c) (h' : Heap) :
    memberSet object key v checks h ≠ .error .objectInUse h' := by
  intro hwrite
  obtain hmismatch | ⟨-, c, hc⟩ := memberSet_fault_cases hwrite
  · cases hmismatch
  · exact hobject c hc

/-- A write fails for an object that is held exactly if the text of its key looks into the object. -/
theorem memberSet_eq_inUse_iff (hh : h.Closed) (hkey : key.IsIn h) (h' : Heap) :
    memberSet object key v checks h = .error .objectInUse h' ↔ h' = h ∧ h.InUse object key checks := by
  by_cases hobject : ∃ c, object = .object c
  case neg =>
    rw [not_exists] at hobject
    exact iff_of_false (memberSet_ne_inUse hobject h') fun ⟨_, c, hc, _⟩ => hobject c hc
  obtain ⟨c, rfl⟩ := hobject
  by_cases hnames : key.NamesProperty checks
  case neg =>
    rw [memberSet_property_refused hnames]
    exact iff_of_false nofun fun ⟨_, _, _, hchecks, _⟩ => hnames (.inr hchecks)
  rw [memberSet_property hh hkey hnames]
  by_cases hheld : c ∈ (h.drawing key).cells
  · rw [if_pos hheld]
    -- Nothing is looked into for a string.
    have hstring : ∀ s, key ≠ .string s := by
      rintro s rfl
      exact absurd hheld List.not_mem_nil
    have hchecks : checks.member = false := hnames.resolve_left fun ⟨s, hs⟩ => hstring s hs
    constructor
    · rintro ⟨⟩
      exact ⟨rfl, c, rfl, hchecks, hstring, hheld⟩
    · rintro ⟨rfl, -⟩
      rfl
  · rw [if_neg hheld]
    refine iff_of_false nofun ?_
    rintro ⟨-, _, ⟨⟩, -, -, hcells⟩
    exact hheld hcells

/-- Otherwise any key will do where members are not checked; it stands for the text that it has before the write. -/
theorem stores_of_not_inUse (hh : h.Closed) (hkey : key.IsIn h) {c : CellId} (hobject : (Value.object c).IsIn h)
    (hchecks : checks.member = false) (hinUse : ¬h.InUse (.object c) key checks) :
    ∃ h', memberSet (.object c) key v checks h = .ok () h' ∧ h.Stores v h' (.property c (h.display key)) := by
  obtain ⟨o, hc⟩ := hobject
  have hheld : c ∉ (h.drawing key).cells := by
    intro hheld
    refine hinUse ⟨c, rfl, hchecks, ?_, hheld⟩
    rintro s rfl
    exact absurd hheld List.not_mem_nil
  have hreplaces := Heap.replaces_modifyObject hc fun o => o.set (h.display key) v
  refine ⟨_, ?_, .property hc (o.written_set (h.display key) v) hreplaces⟩
  rw [memberSet_property hh hkey (.inr hchecks), if_neg hheld]

end

namespace Machine

/-! ## 3. Steps -/

def Spares {α : Type} (x : MachineM α) : Prop :=
  ∀ s, Ensures x s (fun _ _ => True) fun e _ => e.fault ≠ .objectInUse

section

variable {p : Setting}

theorem ne_objectInUse_of_ordinary (e : EvalError)
    (h : e.fault.isOrdinary = true ∨ ∃ message, e.fault = .malformedTree message) : e.fault ≠ .objectInUse := by
  intro hinUse
  rw [hinUse] at h
  obtain h | ⟨_, h⟩ := h <;> cases h

/-- A step that does not write a member. -/
theorem spares_execute (hp : p.PreludeOnly) {item : Item} (hitem : ¬∃ id, item = .instr (.memberSet id)) :
    Spares (execute p item) :=
  have overflows : (Contract.ofErrors p _ ne_objectInUse_of_ordinary).AllowsOverflow := fun _ _ _ _ _ => nofun
  Contract.ofErrors_execute hp (fun _ _ _ _ => overflows) fun id hi => absurd ⟨id, hi⟩ hitem

/-- A step comes upon an object that is held only as it writes a member, and then the write does. -/
theorem exists_of_execute_inUse (hp : p.PreludeOnly) {item : Item} {s s' : State} {e : EvalError}
    (h : execute p item s = .error e s') (he : e.fault = .objectInUse) :
    ∃ id v key object rest, item = .instr (.memberSet id) ∧ s.stash = v :: key :: object :: rest ∧
      ∃ h', ExplicitControl.memberSet object key v p.checks s.heap = .error .objectInUse h' := by
  revert he
  suffices hensures : Ensures (execute p item) s (fun _ _ => True) fun e _ => e.fault = .objectInUse →
      ∃ id v key object rest, item = .instr (.memberSet id) ∧ s.stash = v :: key :: object :: rest ∧
        ∃ h', ExplicitControl.memberSet object key v p.checks s.heap = .error .objectInUse h' from
    (ensures_of_error h).mp hensures
  by_cases hitem : ∃ id, item = .instr (.memberSet id)
  case neg => exact (spares_execute hp hitem s).mono (fun _ _ h => h) fun _ _ hne heq => absurd heq hne
  obtain ⟨id, rfl⟩ := hitem
  unfold execute
  rw [ensures_bind]
  refine ensures_count (fun readings => ?_) fun readings he => by cases he
  simp only [execInstr, ensures_bind, ensures_pop]
  rcases hstash : s.stash with _ | ⟨v, _ | ⟨key, _ | ⟨object, rest⟩⟩⟩
  · intro he
    cases he
  · intro he
    cases he
  · intro he
    cases he
  · simp only [ensures_onHeap]
    cases hwrite : ExplicitControl.memberSet object key v p.checks s.heap with
    | ok _ h' => trivial
    | error fault h' =>
      rintro ⟨⟩
      exact ⟨id, v, key, object, rest, rfl, rfl, h', hwrite⟩

end

end Machine

/-! ## 4. Objects in use -/

section

variable {h : Heap} {object key v : Value} {checks : RuntimeChecks}

open Machine in
/-- **Only an object that its key looks into is in use.**  In a heap that no reference leads out of, a write fails for
an object that is held exactly if members are not checked, the key is no string, and its text looks into the object;
it leaves the heap alone then.  Any other unchecked write to an object succeeds, under the text that the key has before
it.  Reads, the functions that every program finds, and all other items of work never come upon an object that is
held. -/
theorem in_use_only_for_keys (hh : h.Closed) (hobject : object.IsIn h) (hkey : key.IsIn h) :
    (∀ h', memberSet object key v checks h = .error .objectInUse h' ↔ h' = h ∧ h.InUse object key checks) ∧
      (∀ c, object = .object c → checks.member = false → ¬h.InUse object key checks →
        ∃ h', memberSet object key v checks h = .ok () h' ∧ h.Stores v h' (.property c (h.display key))) ∧
      memberGet h object key checks ≠ .error .objectInUse ∧
      (∀ b receiver args s e s', Prelude.body b receiver args s = .error e s' → ∃ message, e = .failed message) ∧
      ∀ p : Setting, p.PreludeOnly → ∀ item s e s', execute p item s = .error e s' → e.fault = .objectInUse →
        ∃ id v key object rest, item = .instr (.memberSet id) ∧ s.stash = v :: key :: object :: rest ∧
          ∃ h', ExplicitControl.memberSet object key v p.checks s.heap = .error .objectInUse h' := by
  refine ⟨memberSet_eq_inUse_iff hh hkey, ?_, memberGet_ne_inUse h object key checks, ?_, ?_⟩
  · rintro c rfl hchecks hinUse
    exact stores_of_not_inUse hh hkey hobject hchecks hinUse
  · intro b receiver args s e s' hfails
    have hfine : FineHost (fun _ => True) (Prelude.body b receiver args s) :=
      Prelude.body_fine (fun _ _ => trivial) s.heap.all_true b fun _ _ => trivial
    rw [hfails] at hfine
    exact hfine
  · intro p hp item s e s' hfails he
    exact exists_of_execute_inUse hp hfails he

end

open Heap in
/-- In the text of the array there is no object, so it does as a key of one; the object itself does not. -/
theorem in_use_only_for_keys_beside :
    beside.Closed ∧ (Value.object ⟨0⟩).IsIn beside ∧ (Value.array ⟨1⟩).IsIn beside ∧
      ¬beside.InUse (.object ⟨0⟩) (.array ⟨1⟩) .none ∧
      (∃ h', memberSet (.object ⟨0⟩) (.array ⟨1⟩) .null .none beside = .ok () h' ∧
        beside.Stores .null h' (.property ⟨0⟩ (beside.display (.array ⟨1⟩)))) ∧
      beside.InUse (.object ⟨0⟩) (.object ⟨0⟩) .none ∧
      memberSet (.object ⟨0⟩) (.object ⟨0⟩) .null .none beside = .error .objectInUse beside := by
  have hobject : (Value.object ⟨0⟩).IsIn beside := ⟨_, rfl⟩
  have hkey : (Value.array ⟨1⟩).IsIn beside := ⟨_, rfl⟩
  have hapart : ¬beside.InUse (.object ⟨0⟩) (.array ⟨1⟩) .none := by
    rintro ⟨_, ⟨⟩, -, -, hcells⟩
    exact nomatch eq_of_reaches_beside (reaches_of_mem_cells _ _ _ _ _ hcells) (.inl rfl)
  have hitself : beside.InUse (.object ⟨0⟩) (.object ⟨0⟩) .none :=
    ⟨⟨0⟩, rfl, rfl, nofun, mem_cells_drawing_self hobject⟩
  refine ⟨closed_beside, hobject, hkey, hapart, ?_, hitself, ?_⟩
  · exact (in_use_only_for_keys closed_beside hobject hkey).2.1 _ rfl rfl hapart
  · exact ((in_use_only_for_keys closed_beside hobject hobject).1 _).mpr ⟨rfl, hitself⟩

/-- Not every key will do where members are not checked: an object is no key of itself, though it has a text. -/
theorem not_stores_under_itself :
    ¬∀ (h : Heap) (c : CellId) (key v : Value), h.Closed → (Value.object c).IsIn h → key.IsIn h →
      ∃ h', memberSet (.object c) key v .none h = .ok () h' ∧ h.Stores v h' (.property c (h.display key)) := by
  intro hstores
  have hobject : (Value.object ⟨0⟩).IsIn Heap.beside := ⟨_, rfl⟩
  obtain ⟨h', hwrite, -⟩ := hstores Heap.beside ⟨0⟩ (.object ⟨0⟩) .null Heap.closed_beside hobject hobject
  have hfails : memberSet (.object ⟨0⟩) (.object ⟨0⟩) .null .none Heap.beside = .error .objectInUse Heap.beside := rfl
  rw [hfails] at hwrite
  cases hwrite

end ExplicitControl
