import ExplicitControl.NameTable
import Mathlib.Data.List.Nodup

/-!
Name tables as interning makes them. Such a table holds the empty text first and no text twice, so a place
and its text determine each other, and interning its texts one after another makes the table again.
-/

namespace ExplicitControl

namespace NameTable

inductive Grown : NameTable → Prop where
  | initial : Grown initial
  | intern {t : NameTable} (s : String) : t.Grown → (s ∈ t.strings ∨ t.size < 4294967296) → Grown (t.intern s).2

/-- What holds of a table whose places and texts determine each other. -/
structure Proper (t : NameTable) : Prop where
  first : t.strings[0]? = some ""
  nodup : t.strings.toList.Nodup
  size_le : t.size ≤ 4294967296

/-! ## Looking up and interning -/

theorem find?_eq_none_iff {t : NameTable} {s : String} : t.find? s = none ↔ s ∉ t.strings := by
  rw [find?, Option.map_eq_none_iff, Array.idxOf?_eq_none_iff]

theorem intern_fresh {t : NameTable} {s : String} (h : s ∉ t.strings) :
    t.intern s = (⟨t.size.toUInt32⟩, ⟨t.strings.push s⟩) := by
  rw [intern, find?_eq_none_iff.mpr h]

theorem intern_present {t : NameTable} {s : String} (h : s ∈ t.strings) : (t.intern s).2 = t := by
  cases hf : t.find? s with
  | none => exact absurd h (find?_eq_none_iff.mp hf)
  | some n => rw [intern, hf]

theorem place_of_find? {t : NameTable} {s : String} {n : Name} (h : t.find? s = some n) :
    ∃ (i : Nat) (hi : i < t.strings.size), t.strings[i] = s ∧ n = ⟨i.toUInt32⟩ := by
  simp only [find?, Array.idxOf?, Option.map_eq_some_iff, Array.finIdxOf?_eq_some_iff] at h
  obtain ⟨_, ⟨i, ⟨hs, -⟩, rfl⟩, rfl⟩ := h
  exact ⟨i, i.isLt, hs, rfl⟩

/-- The place of a text is where the table holds it. -/
theorem Proper.find?_eq_some_iff {t : NameTable} (ht : t.Proper) {s : String} {n : Name} :
    t.find? s = some n ↔ t.strings[n.index.toNat]? = some s := by
  have place {i : Nat} (hi : i < t.strings.size) : i.toUInt32.toNat = i :=
    UInt32.toNat_ofNat_of_lt (Nat.lt_of_lt_of_le hi ht.size_le)
  constructor
  · intro h
    obtain ⟨i, hi, hs, rfl⟩ := place_of_find? h
    rw [place hi, Array.getElem?_eq_getElem hi, hs]
  · intro h
    obtain ⟨hlt, heq⟩ := Array.getElem?_eq_some_iff.mp h
    cases hf : t.find? s with
    | none => exact absurd (heq ▸ Array.getElem_mem hlt) (find?_eq_none_iff.mp hf)
    | some m =>
      obtain ⟨i, hi, hs, rfl⟩ := place_of_find? hf
      -- the text stands in one place only
      have hi' : i < t.strings.toList.length := hi
      have hlt' : n.index.toNat < t.strings.toList.length := hlt
      have hsame : i = n.index.toNat := ht.nodup.getElem_inj_iff.mp
        (show t.strings.toList[i] = t.strings.toList[n.index.toNat] by
          rw [Array.getElem_toList, Array.getElem_toList, hs, heq])
      rw [hsame]
      simp

theorem Proper.intern_eq {t : NameTable} (ht : t.Proper) {s : String} {n : Name}
    (h : t.strings[n.index.toNat]? = some s) : t.intern s = (n, t) := by
  rw [intern, ht.find?_eq_some_iff.mpr h]

theorem Proper.push {t : NameTable} (ht : t.Proper) {s : String} (h : s ∉ t.strings) (hroom : t.size < 4294967296) :
    Proper ⟨t.strings.push s⟩ where
  first := by
    have hpos : 0 < t.strings.size := (Array.getElem?_eq_some_iff.mp ht.first).1
    rw [Array.getElem?_push_lt hpos, ← Array.getElem?_eq_getElem hpos, ht.first]
  nodup := by
    rw [Array.toList_push]
    exact ht.nodup.append (List.nodup_singleton s) (by simpa using h)
  size_le := by
    rw [size, Array.size_push]
    exact hroom

theorem proper_initial : initial.Proper :=
  ⟨rfl, List.nodup_singleton "", by decide⟩

theorem Proper.intern {t : NameTable} (ht : t.Proper) {s : String} (h : s ∈ t.strings ∨ t.size < 4294967296) :
    (t.intern s).2.Proper := by
  by_cases hs : s ∈ t.strings
  · rwa [intern_present hs]
  · rw [intern_fresh hs]
    exact ht.push hs (h.resolve_left hs)

theorem Grown.proper {t : NameTable} (h : t.Grown) : t.Proper := by
  induction h with
  | initial => exact proper_initial
  | intern s _ hroom ih => exact ih.intern hroom

/-! ## A table from its texts -/

/-- New texts land at the places that follow, so they join the table as they are. -/
theorem internAll_fresh (rest : List String) : ∀ t : NameTable, (t.strings.toList ++ rest).Nodup →
    t.size + rest.length ≤ 4294967296 → t.internAll t.size rest = .ok ⟨t.strings ++ rest⟩ := by
  induction rest with
  | nil =>
    intro t _ _
    simp [internAll]
  | cons s rest ih =>
    intro t hnodup hsize
    have hs : s ∉ t.strings := fun hmem =>
      (List.nodup_append.mp hnodup).2.2 s (by simpa using hmem) s (List.mem_cons_self ..) rfl
    have hlt : t.size < 4294967296 := by
      rw [List.length_cons] at hsize
      omega
    have hplace : t.size.toUInt32.toNat = t.size := UInt32.toNat_ofNat_of_lt hlt
    have hrest := ih ⟨t.strings.push s⟩ (by simpa using hnodup) (by simp [size] at hsize ⊢; omega)
    rw [internAll, intern_fresh hs]
    simp only [hplace, if_true]
    simpa [size] using hrest

/-- The empty text is in the table from the start. -/
theorem ofList_empty (rest : List String) : ofList ("" :: rest) = initial.internAll initial.size rest := by
  have hfirst : initial.intern "" = (Name.empty, initial) := proper_initial.intern_eq rfl
  rw [ofList, internAll, hfirst]
  rfl

/-- **A proper table is made again** from its texts in the order of their places. -/
theorem Proper.ofList_strings {t : NameTable} (ht : t.Proper) : ofList t.strings.toList = .ok t := by
  obtain ⟨⟨entries⟩⟩ := t
  cases entries with
  | nil => exact absurd ht.first (by simp)
  | cons first rest =>
    obtain rfl : first = "" := by simpa using ht.first
    have hnodup : (initial.strings.toList ++ rest).Nodup := ht.nodup
    have hsize : initial.size + rest.length ≤ 4294967296 := by
      have := ht.size_le
      simp [size, initial] at this ⊢
      omega
    show ofList ("" :: rest) = _
    rw [ofList_empty, internAll_fresh rest initial hnodup hsize]
    simp [initial]

/-- A list whose texts land where the list has them makes a table by interning alone. -/
theorem grown_of_internAll (rest : List String) : ∀ {t t' : NameTable}, t.Grown →
    t.internAll t.size rest = .ok t' → t'.Grown := by
  induction rest with
  | nil =>
    intro t t' ht h
    obtain rfl : t = t' := by simpa [internAll] using h
    exact ht
  | cons s rest ih =>
    intro t t' ht h
    simp only [internAll] at h
    split at h
    next hplace =>
      -- a text that the table has already lies at a place before its end
      have hs : s ∉ t.strings := by
        intro hmem
        cases hf : t.find? s with
        | none => exact find?_eq_none_iff.mp hf hmem
        | some n =>
          rw [intern, hf] at hplace
          have := (Array.getElem?_eq_some_iff.mp (ht.proper.find?_eq_some_iff.mp hf)).1
          exact absurd hplace (Nat.ne_of_lt this)
      rw [intern_fresh hs] at hplace
      have hlt : t.size < 4294967296 := hplace ▸ UInt32.toNat_lt t.size.toUInt32
      have hgrown := ht.intern s (.inr hlt)
      rw [intern_fresh hs] at h hgrown
      exact ih hgrown (by simpa [size] using h)
    next => cases h

theorem grown_of_ofList {entries : List String} {t : NameTable} (h : ofList entries = .ok t) : t.Grown := by
  cases entries with
  | nil =>
    obtain rfl : initial = t := by simpa [ofList, internAll] using h
    exact .initial
  | cons first rest =>
    by_cases hfirst : first = ""
    · subst hfirst
      exact grown_of_internAll rest .initial (ofList_empty rest ▸ h)
    · have hfresh : first ∉ initial.strings := by simpa [initial] using hfirst
      rw [ofList, internAll, intern_fresh hfresh] at h
      cases h

end NameTable

end ExplicitControl
