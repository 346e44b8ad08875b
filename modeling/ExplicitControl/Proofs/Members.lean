import ExplicitControl.Proofs.InTree
import ExplicitControl.Proofs.Reaching

/-!
# Members that are written and read

A value and a key name a place: an element of an array, or a property of an object.  A write to a place that accepts it
stores the value there and leaves every other place as it was; a read through the same value and key finds it.  All
other writes leave the heap alone.  The key of a property may be any value, whose text it is then; the place stays
the same through a write as long as the object does not stand in that text, which it cannot if the key does not reach
it.
-/

namespace ExplicitControl

open Member

variable {h h' : Heap} {object key v : Value} {checks : RuntimeChecks} {c : CellId}

/-! ## 1. Objects -/

namespace Object

def keys (o : Object) : List String :=
  o.entries.map Prod.fst

/-- What a write makes of an object: keys that are there keep their places, a new one comes last. -/
structure Written (key : String) (v : Value) (before after : Object) : Prop where
  property : after.get? key = some v
  others : ∀ key', key' ≠ key → after.get? key' = before.get? key'
  keys : after.keys = if key ∈ before.keys then before.keys else before.keys ++ [key]

theorem find?_setEntry_self (key : String) (v : Value) (entries : List (String × Value)) :
    (setEntry key v entries).find? (fun entry => entry.1 == key) = some (key, v) := by
  induction entries with
  | nil => simp [setEntry]
  | cons entry rest ih =>
    unfold setEntry
    by_cases hkey : entry.1 = key <;> simp [hkey, ih]

theorem find?_setEntry_of_ne {key key' : String} (hne : key' ≠ key) (v : Value) (entries : List (String × Value)) :
    (setEntry key v entries).find? (fun entry => entry.1 == key') = entries.find? fun entry => entry.1 == key' := by
  induction entries with
  | nil => simp [setEntry, hne.symm]
  | cons entry rest ih =>
    unfold setEntry
    by_cases hkey : entry.1 = key
    · simp [hkey, hne.symm]
    · simp only [beq_iff_eq, hkey, if_false, List.find?_cons, ih]

theorem keys_setEntry (key : String) (v : Value) (entries : List (String × Value)) :
    (setEntry key v entries).map Prod.fst =
      if key ∈ entries.map Prod.fst then entries.map Prod.fst else entries.map Prod.fst ++ [key] := by
  induction entries with
  | nil => simp [setEntry]
  | cons entry rest ih =>
    unfold setEntry
    by_cases hkey : entry.1 = key
    · simp [hkey]
    · simp only [beq_iff_eq, hkey, if_false, List.map_cons, ih, List.mem_cons, Ne.symm hkey, false_or]
      split <;> rfl

theorem written_set (o : Object) (key : String) (v : Value) : Written key v o (o.set key v) where
  property := congrArg (Option.map Prod.snd) (find?_setEntry_self key v o.entries)
  others _ hne := congrArg (Option.map Prod.snd) (find?_setEntry_of_ne hne v o.entries)
  keys := keys_setEntry key v o.entries

end Object

/-! ## 2. Arrays -/

/-- What a write makes of an array: it is long enough for the element, and the gap in front of it is filled. -/
structure Member.Written (i : Nat) (v : Value) (before after : Array Value) : Prop where
  size : after.size = max before.size (i + 1)
  element : after[i]? = some v
  gap : ∀ j, before.size ≤ j → j < i → after[j]? = some .undefined
  others : ∀ j, j < before.size → j ≠ i → after[j]? = before[j]?

theorem Member.written_writeAt (before : Array Value) (i : Nat) (v : Value) :
    Written i v before (writeAt before i v) := by
  unfold writeAt
  by_cases hi : i < before.size
  · rw [if_pos hi]
    refine ⟨?_, ?_, fun j hj hji => absurd hi (by omega), fun j _ hne => ?_⟩
    · rw [Array.size_setIfInBounds]
      omega
    · rw [Array.getElem?_setIfInBounds_self_of_lt hi]
    · rw [Array.getElem?_setIfInBounds_ne (Ne.symm hne)]
  · rw [if_neg hi]
    have hsize : (before ++ Array.replicate (i - before.size) Value.undefined).size = i := by
      rw [Array.size_append, Array.size_replicate]
      omega
    refine ⟨?_, ?_, fun j hj hji => ?_, fun j hj _ => ?_⟩
    · rw [Array.size_push, hsize]
      omega
    · rw [Array.getElem?_push, if_pos hsize.symm]
    · rw [Array.getElem?_push, if_neg (by omega), Array.getElem?_append_right hj, Array.getElem?_replicate,
        if_pos (by omega)]
    · rw [Array.getElem?_push, if_neg (by omega), Array.getElem?_append_left hj]

/-! ## 3. Cells -/

def Cell.isArray : Cell → Bool
  | .array _ => true
  | .object _ => false

/-- One cell has new contents; no other has changed, and none has been added. -/
def Heap.Replaces (h : Heap) (c : CellId) (cell : Cell) (h' : Heap) : Prop :=
  ∀ c', h'.cell? c' = if c' = c then some cell else h.cell? c'

namespace Heap

theorem replaces_modify {cell : Cell} (hc : h.cell? c = some cell) (f : Cell → Cell) :
    h.Replaces c (f cell) ⟨h.cells.modify c.index f⟩ := by
  intro c'
  show (h.cells.modify c.index f)[c'.index]? = _
  rw [Array.getElem?_modify]
  by_cases heq : c' = c
  · subst heq
    rw [if_pos rfl, if_pos rfl, show h.cells[c'.index]? = some cell from hc]
    rfl
  · have hindex : c.index ≠ c'.index := fun hindex => heq (congrArg CellId.mk hindex.symm)
    rw [if_neg hindex, if_neg heq]
    rfl

theorem replaces_modifyArray {vs : Array Value} (hc : h.cell? c = some (.array vs))
    (f : Array Value → Array Value) : h.Replaces c (.array (f vs)) (h.modifyArray c f) :=
  replaces_modify hc _

theorem replaces_modifyObject {o : Object} (hc : h.cell? c = some (.object o)) (f : Object → Object) :
    h.Replaces c (.object (f o)) (h.modifyObject c f) :=
  replaces_modify hc _

theorem Replaces.self {cell : Cell} (hh' : h.Replaces c cell h') : h'.cell? c = some cell :=
  (hh' c).trans (if_pos rfl)

theorem Replaces.other {cell : Cell} (hh' : h.Replaces c cell h') {c' : CellId} (hne : c' ≠ c) :
    h'.cell? c' = h.cell? c' :=
  (hh' c').trans (if_neg hne)

theorem array?_of_cell? {vs : Array Value} (hc : h.cell? c = some (.array vs)) : h.array? c = some vs := by
  rw [array?, hc]

theorem object?_of_cell? {o : Object} (hc : h.cell? c = some (.object o)) : h.object? c = some o := by
  rw [object?, hc]

end Heap

/-! ## 4. Places -/

inductive MemberPlace where
  | element (c : CellId) (i : Nat)
  | property (c : CellId) (key : String)

def Heap.memberPlace? (h : Heap) (object key : Value) : Option MemberPlace :=
  match object with
  | .array c => key.asIndex.map (.element c)
  | .object c => some (.property c (h.display key))
  | _ => none

/-- The key is a string, or any key will do. -/
def Value.NamesProperty (key : Value) (checks : RuntimeChecks) : Prop :=
  (∃ s, key = .string s) ∨ checks.member = false

def MemberPlace.Accepts (h : Heap) (key : Value) (checks : RuntimeChecks) : MemberPlace → Prop
  | element c i => i ≤ ((h.array? c).getD #[]).size + maxGap
  | property _ _ => key.NamesProperty checks

inductive Heap.Stores (h : Heap) (v : Value) (h' : Heap) : MemberPlace → Prop where
  | element {c : CellId} {i : Nat} {before after : Array Value} : h.cell? c = some (.array before) →
      Member.Written i v before after → h.Replaces c (.array after) h' → h.Stores v h' (.element c i)
  | property {c : CellId} {key : String} {before after : Object} : h.cell? c = some (.object before) →
      Object.Written key v before after → h.Replaces c (.object after) h' → h.Stores v h' (.property c key)

theorem memberGet_element {vs : Array Value} (hc : h.cell? c = some (.array vs)) {i : Nat}
    (hkey : key.asIndex = some i) : memberGet h (.array c) key checks = .ok (vs[i]?.getD .undefined) := by
  simp only [memberGet, ofArray, hkey, Heap.array?_of_cell? hc, Option.getD_some, Array.getD_eq_getD_getElem?]

theorem memberGet_property {o : Object} (hc : h.cell? c = some (.object o)) (hkey : key.NamesProperty checks) :
    memberGet h (.object c) key checks = .ok ((o.get? (h.display key)).getD .undefined) := by
  simp only [memberGet, Heap.object?_of_cell? hc, Option.getD_some]
  split
  next s => rfl
  next hstring =>
    obtain ⟨s, rfl⟩ | hchecks := hkey
    · exact absurd rfl (hstring s)
    · rw [hchecks, if_neg Bool.false_ne_true]

theorem memberSet_element {vs : Array Value} (hc : h.cell? c = some (.array vs)) {i : Nat}
    (hkey : key.asIndex = some i) (hi : i ≤ vs.size + maxGap) :
    memberSet (.array c) key v checks h = .ok () (h.modifyArray c fun vs => writeAt vs i v) := by
  have hgap : ¬maxGap < i - vs.size := by omega
  simp only [memberSet, setElement, hkey, Heap.array?_of_cell? hc, Option.map_some, Option.getD_some, if_neg hgap]

theorem memberSet_element_refused {vs : Array Value} (hc : h.cell? c = some (.array vs)) {i : Nat}
    (hkey : key.asIndex = some i) (hi : vs.size + maxGap < i) :
    ∃ fault, memberSet (.array c) key v checks h = .error fault h := by
  have hgap : maxGap < i - vs.size := by omega
  simp only [memberSet, setElement, hkey, Heap.array?_of_cell? hc, Option.map_some, Option.getD_some, if_pos hgap]
  exact ⟨_, rfl⟩

/-- A property is stored under the text of its key, unless the object has to be looked into for it. -/
theorem memberSet_property (hh : h.Closed) (hv : key.IsIn h) (hkey : key.NamesProperty checks) :
    memberSet (.object c) key v checks h =
      if c ∈ (h.drawing key).cells then .error .objectInUse h
      else .ok () (h.modifyObject c fun o => o.set (h.display key) v) := by
  simp only [memberSet, setProperty]
  split
  next s => rfl
  next hstring =>
    obtain ⟨s, rfl⟩ | hchecks := hkey
    · exact absurd rfl (hstring s)
    · rw [hchecks, if_neg Bool.false_ne_true, hh.displayWithout_eq hv]
      by_cases hheld : c ∈ (h.drawing key).cells
      · rw [if_pos hheld, if_pos hheld]
      · rw [if_neg hheld, if_neg hheld]

theorem memberSet_property_refused (hkey : ¬key.NamesProperty checks) :
    memberSet (.object c) key v checks h = .error (badKey key) h := by
  obtain ⟨hstring, hchecks⟩ := not_or.mp hkey
  simp only [memberSet, setProperty]
  split
  next s => exact absurd ⟨s, rfl⟩ hstring
  next =>
    rw [Bool.not_eq_false] at hchecks
    rw [if_pos hchecks]

/-! ## 5. Staying closed -/

/-- A reference leads to a cell of its kind still. -/
theorem Heap.Replaces.isIn {before after : Cell} (hh' : h.Replaces c after h') (hc : h.cell? c = some before)
    (hkind : before.isArray = after.isArray) {w : Value} (hw : w.IsIn h) : w.IsIn h' := by
  cases w with
  | array c' =>
    obtain ⟨vs, hvs⟩ := hw
    by_cases heq : c' = c
    · subst heq
      cases hc.symm.trans hvs
      cases after with
      | array vs' => exact ⟨vs', hh'.self⟩
      | object o => cases hkind
    · exact ⟨vs, (hh'.other heq).trans hvs⟩
  | object c' =>
    obtain ⟨o, ho⟩ := hw
    by_cases heq : c' = c
    · subst heq
      cases hc.symm.trans ho
      cases after with
      | array vs => cases hkind
      | object o' => exact ⟨o', hh'.self⟩
    · exact ⟨o, (hh'.other heq).trans ho⟩
  | _ => trivial

theorem mem_writeAt {vs : Array Value} {i : Nat} {w : Value} (hw : w ∈ writeAt vs i v) :
    w ∈ vs ∨ w = v ∨ w = .undefined := by
  have hwritten := written_writeAt vs i v
  obtain ⟨j, hj⟩ := Array.mem_iff_getElem?.mp hw
  have hsize : j < (writeAt vs i v).size := (Array.getElem?_eq_some_iff.mp hj).1
  rw [hwritten.size] at hsize
  by_cases heq : j = i
  · subst heq
    exact .inr (.inl (Option.some.inj (hj.symm.trans hwritten.element)))
  by_cases hlt : j < vs.size
  · exact .inl (Array.mem_of_getElem? ((hwritten.others j hlt heq).symm.trans hj))
  · exact .inr (.inr (Option.some.inj (hj.symm.trans (hwritten.gap j (by omega) (by omega)))))

/-- No reference leads out of the heap after a write of what is in it. -/
theorem Heap.Closed.modifyArray (hh : h.Closed) {vs : Array Value} (hc : h.cell? c = some (.array vs)) (i : Nat)
    (hv : v.IsIn h) : (h.modifyArray c fun vs => writeAt vs i v).Closed := by
  have hall : (h.modifyArray c fun vs => writeAt vs i v).All (Value.IsIn h) := by
    refine All.modifyArray hh c fun vs hvs w hw => ?_
    obtain hw | rfl | rfl := mem_writeAt hw
    · exact hvs w hw
    · exact hv
    · trivial
  exact hall.mono fun w hw => (replaces_modifyArray hc fun vs => writeAt vs i v).isIn hc rfl hw

theorem Heap.Closed.modifyObject (hh : h.Closed) {o : Object} (hc : h.cell? c = some (.object o)) (s : String)
    (hv : v.IsIn h) : (h.modifyObject c fun o => o.set s v).Closed := by
  have hall : (h.modifyObject c fun o => o.set s v).All (Value.IsIn h) :=
    All.modifyObject hh c fun o ho => ho.set hv
  exact hall.mono fun w hw => (replaces_modifyObject hc fun o => o.set s v).isIn hc rfl hw

/-! ## 6. Reading what was written -/

/-- A key that does not reach what is written keeps its text. -/
theorem Heap.Replaces.display_eq {cell : Cell} (hh' : h.Replaces c cell h')
    (hreach : (∃ s, key = .string s) ∨ ¬h.Reaches key c) : h'.display key = h.display key := by
  obtain ⟨s, rfl⟩ | hreach := hreach
  · rfl
  · refine display_congr fun c' hc' => hh'.other ?_
    rintro rfl
    exact hreach hc'

/-- The object does not stand in the text of a key that does not reach it. -/
theorem not_mem_cells (hreach : (∃ s, key = .string s) ∨ ¬h.Reaches key c) : c ∉ (h.drawing key).cells := by
  obtain ⟨s, rfl⟩ | hreach := hreach
  · exact List.not_mem_nil
  · exact fun hc => hreach (reaches_of_mem_cells h _ key [] _ hc)

/-- An accepted write to an element. -/
theorem write_element (hh : h.Closed) {vs : Array Value} (hc : h.cell? c = some (.array vs)) {i : Nat}
    (hkey : key.asIndex = some i) (hi : i ≤ vs.size + maxGap) :
    ∃ h', memberSet (.array c) key v checks h = .ok () h' ∧ h.Stores v h' (.element c i) ∧
      memberGet h' (.array c) key checks = .ok v ∧ (v.IsIn h → h'.Closed) := by
  have hwritten := written_writeAt vs i v
  have hreplaces := Heap.replaces_modifyArray hc fun vs => writeAt vs i v
  refine ⟨_, memberSet_element hc hkey hi, .element hc hwritten hreplaces, ?_, hh.modifyArray hc i⟩
  rw [memberGet_element hreplaces.self hkey, hwritten.element]
  rfl

/-- An accepted write to a property. -/
theorem write_property (hh : h.Closed) (hv : key.IsIn h) {o : Object} (hc : h.cell? c = some (.object o))
    (hkey : key.NamesProperty checks) (hreach : (∃ s, key = .string s) ∨ ¬h.Reaches key c) :
    ∃ h', memberSet (.object c) key v checks h = .ok () h' ∧ h.Stores v h' (.property c (h.display key)) ∧
      memberGet h' (.object c) key checks = .ok v ∧ (v.IsIn h → h'.Closed) := by
  have hwritten := o.written_set (h.display key) v
  have hreplaces := Heap.replaces_modifyObject hc fun o => o.set (h.display key) v
  refine ⟨_, ?_, .property hc hwritten hreplaces, ?_, hh.modifyObject hc _⟩
  · rw [memberSet_property hh hv hkey, if_neg (not_mem_cells hreach)]
  · rw [memberGet_property hreplaces.self hkey, hreplaces.display_eq hreach, hwritten.property]
    rfl

/-- Writes that name no place change nothing. -/
theorem memberSet_nowhere (hplace : h.memberPlace? object key = none) :
    (checks.member = false ∧ object ≠ .undefined ∧ object ≠ .null → memberSet object key v checks h = .ok () h) ∧
      (checks.member = true ∨ object = .undefined ∨ object = .null →
        ∃ fault, memberSet object key v checks h = .error fault h) := by
  cases object with
  | undefined => exact ⟨fun ⟨_, hne, _⟩ => absurd rfl hne, fun _ => ⟨_, rfl⟩⟩
  | null => exact ⟨fun ⟨_, _, hne⟩ => absurd rfl hne, fun _ => ⟨_, rfl⟩⟩
  | object c => cases hplace
  | array c =>
    have hkey : key.asIndex = none := Option.map_eq_none_iff.mp hplace
    simp only [memberSet, setElement, hkey]
    cases checks.member <;> simp
  | _ =>
    refine ⟨fun ⟨hchecks, _⟩ => ?_, fun hchecks => ?_⟩
    · simp only [memberSet, hchecks]
      rfl
    · have hchecks : checks.member = true := by simpa using hchecks
      simp only [memberSet, hchecks]
      exact ⟨_, rfl⟩

/-- **Members are read as they were written.**  In a heap that no reference leads out of, let the key be a string or
not reach the value that is written to.  A write to a place that accepts it (an element that is not too far past the
end; a property whose key is a string, or any key if members are not checked) stores the value there and nowhere
else, and a read by the same key finds it; the heap stays closed unless the value is not in it.  Any other write fails
or is passed over, and the heap stays what it is. -/
theorem members_read_as_written (hh : h.Closed) (hobject : object.IsIn h) (hkey : key.IsIn h)
    (hreach : (∃ s, key = .string s) ∨ ∀ l c, object.reference? = some (l, c) → ¬h.Reaches key c) :
    (∀ place, h.memberPlace? object key = some place → place.Accepts h key checks →
        ∃ h', memberSet object key v checks h = .ok () h' ∧ h.Stores v h' place ∧
          memberGet h' object key checks = .ok v ∧ (v.IsIn h → h'.Closed)) ∧
      (∀ place, h.memberPlace? object key = some place → ¬place.Accepts h key checks →
        ∃ fault, memberSet object key v checks h = .error fault h) ∧
      (h.memberPlace? object key = none →
        (checks.member = false ∧ object ≠ .undefined ∧ object ≠ .null → memberSet object key v checks h = .ok () h) ∧
          (checks.member = true ∨ object = .undefined ∨ object = .null →
            ∃ fault, memberSet object key v checks h = .error fault h)) := by
  refine ⟨fun place hplace haccepts => ?_, fun place hplace haccepts => ?_, memberSet_nowhere⟩
  · cases object with
    | array c =>
      obtain ⟨vs, hc⟩ := hobject
      obtain ⟨i, hi, rfl⟩ := Option.map_eq_some_iff.mp hplace
      rw [MemberPlace.Accepts, Heap.array?_of_cell? hc] at haccepts
      exact write_element hh hc hi haccepts
    | object c =>
      obtain ⟨o, hc⟩ := hobject
      cases hplace
      exact write_property hh hkey hc haccepts (hreach.imp_right fun hreach => hreach _ c rfl)
    | _ => cases hplace
  · cases object with
    | array c =>
      obtain ⟨vs, hc⟩ := hobject
      obtain ⟨i, hi, rfl⟩ := Option.map_eq_some_iff.mp hplace
      rw [MemberPlace.Accepts, Heap.array?_of_cell? hc] at haccepts
      exact memberSet_element_refused hc hi (Nat.lt_of_not_le haccepts)
    | object c =>
      cases hplace
      exact ⟨_, memberSet_property_refused haccepts⟩
    | _ => cases hplace

namespace Heap

def beside : Heap :=
  ⟨#[.object ⟨[("a", .null)]⟩, .array #[.bool true, .array ⟨1⟩]]⟩

theorem closed_beside : beside.Closed := by
  intro cell hcell
  simp only [beside, List.mem_toArray, List.mem_cons, List.not_mem_nil, or_false] at hcell
  obtain rfl | rfl := hcell
  · intro entry hentry
    cases List.mem_singleton.mp hentry
    trivial
  · intro v hv
    simp only [List.mem_toArray, List.mem_cons, List.not_mem_nil, or_false] at hv
    obtain rfl | rfl := hv
    · trivial
    · exact ⟨_, rfl⟩

theorem eq_of_reaches_beside {v : Value} {c : CellId} (hc : beside.Reaches v c)
    (hv : v = .array ⟨1⟩ ∨ v = .bool true) : c = ⟨1⟩ := by
  induction hc with
  | itself hl =>
    obtain rfl | rfl := hv
    · cases hl; rfl
    · cases hl
  | member hms hm _ ih =>
    obtain rfl | rfl := hv
    · cases hms
      simp only [List.map_cons, List.map_nil, List.mem_cons, List.not_mem_nil, or_false] at hm
      obtain rfl | rfl := hm
      · exact ih (.inr rfl)
      · exact ih (.inl rfl)
    · cases hms

end Heap

open Heap in
/-- The array is the key of the property; it is refused as a key if members are checked, and passed over on a value
without members. -/
theorem members_read_as_written_beside :
    beside.Closed ∧ (Value.object ⟨0⟩).IsIn beside ∧ (Value.array ⟨1⟩).IsIn beside ∧
      ¬beside.Reaches (.array ⟨1⟩) ⟨0⟩ ∧
      beside.memberPlace? (.object ⟨0⟩) (.array ⟨1⟩) = some (.property ⟨0⟩ "[true, <circular>]") ∧
      (∃ h', memberSet (.object ⟨0⟩) (.array ⟨1⟩) (.bool false) .none beside = .ok () h' ∧
        beside.Stores (.bool false) h' (.property ⟨0⟩ "[true, <circular>]") ∧
        memberGet h' (.object ⟨0⟩) (.array ⟨1⟩) .none = .ok (.bool false) ∧
        ((Value.bool false).IsIn beside → h'.Closed)) ∧
      (∃ fault, memberSet (.object ⟨0⟩) (.array ⟨1⟩) (.bool false) .all beside = .error fault beside) ∧
      memberSet (.bool true) (.array ⟨1⟩) (.bool false) .none beside = .ok () beside := by
  have hobject : (Value.object ⟨0⟩).IsIn beside := ⟨_, rfl⟩
  have hkey : (Value.array ⟨1⟩).IsIn beside := ⟨_, rfl⟩
  have hreach : ¬beside.Reaches (.array ⟨1⟩) ⟨0⟩ := fun hc => nomatch eq_of_reaches_beside hc (.inl rfl)
  have htext : beside.display (.array ⟨1⟩) = "[true, <circular>]" := by decide +kernel
  have hplace : beside.memberPlace? (.object ⟨0⟩) (.array ⟨1⟩) = some (.property ⟨0⟩ "[true, <circular>]") :=
    congrArg (fun s => some (MemberPlace.property ⟨0⟩ s)) htext
  have hapart : ∀ l c, (Value.object ⟨0⟩).reference? = some (l, c) → ¬beside.Reaches (.array ⟨1⟩) c := by
    intro l c hc
    cases hc
    exact hreach
  have hchecked : ¬(Value.array ⟨1⟩).NamesProperty .all := by
    rintro (⟨s, hs⟩ | hchecks)
    · cases hs
    · cases hchecks
  have hscalar : (Value.bool true).IsIn beside := trivial
  have hnowhere : ∀ l c, (Value.bool true).reference? = some (l, c) → ¬beside.Reaches (.array ⟨1⟩) c :=
    fun _ _ hc => nomatch hc
  refine ⟨closed_beside, hobject, hkey, hreach, hplace, ?_, ?_, ?_⟩
  · exact (members_read_as_written closed_beside hobject hkey (.inr hapart)).1 _ hplace (.inr rfl)
  · exact (members_read_as_written closed_beside hobject hkey (.inr hapart)).2.1 _ hplace hchecked
  · exact ((members_read_as_written closed_beside hscalar hkey (.inr hnowhere)).2.2 rfl).1 ⟨rfl, nofun, nofun⟩

end ExplicitControl
