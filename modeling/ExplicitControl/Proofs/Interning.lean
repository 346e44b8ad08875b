import ExplicitControl.Proofs.Building
import ExplicitControl.Proofs.Installation
import Mathlib.Data.Finset.Card
import Mathlib.Data.List.Nodup

/-!
# Names that stand for texts

A table that has only ever been interned in holds the empty text first and no text twice, so that looking for a text
and reading a place undo each other.  Whoever has interned a text gets the same name for it at any later time, nobody
gets that name for another text, and the name is read as the text again, whatever has been interned since: by others,
or by machines that were built on the table.  A map from texts to places, kept beside them, never disagrees with them.
A list of texts is such a table, with each text at its own place, if and only if it starts with the empty text and
holds none twice, or is empty.
-/

namespace ExplicitControl

namespace NameTable

/-! ## 1. Interning one text after another -/

/-- The texts are fewer than the places, repetitions not counted.  The empty text has its place without being one of
them. -/
def Few (texts : List String) : Prop :=
  texts.toFinset.card < 4294967296

variable {t t' : NameTable} {texts later : List String} {s : String} {n : Name}

theorem withTexts_append (t : NameTable) (texts later : List String) :
    t.withTexts (texts ++ later) = (t.withTexts texts).withTexts later := by
  induction texts generalizing t with
  | nil => rfl
  | cons s rest ih => exact ih _

theorem withTexts_concat (t : NameTable) (texts : List String) (s : String) :
    t.withTexts (texts ++ [s]) = ((t.withTexts texts).intern s).2 :=
  withTexts_append t texts [s]

/-- Interning puts texts behind those that are there. -/
theorem begins_withTexts (t : NameTable) (texts : List String) :
    t.strings.toList <+: (t.withTexts texts).strings.toList := by
  induction texts generalizing t with
  | nil => exact List.prefix_refl _
  | cons s rest ih => exact (begins_intern t s).trans (ih _)

theorem mem_intern {x : String} : x ∈ (t.intern s).2.strings ↔ x ∈ t.strings ∨ x = s := by
  by_cases hs : s ∈ t.strings
  · rw [intern_present hs]
    exact ⟨.inl, fun h => h.elim id fun heq => heq ▸ hs⟩
  · rw [intern_fresh hs, Array.mem_push]

theorem mem_withTexts {x : String} : x ∈ (t.withTexts texts).strings ↔ x ∈ t.strings ∨ x ∈ texts := by
  induction texts generalizing t with
  | nil => simp [withTexts]
  | cons s rest ih =>
    show x ∈ ((t.intern s).2.withTexts rest).strings ↔ _
    rw [ih, mem_intern, List.mem_cons, or_assoc]

theorem mem_withTexts_initial {x : String} : x ∈ (initial.withTexts texts).strings ↔ x = "" ∨ x ∈ texts := by
  rw [mem_withTexts]
  simp [initial]

theorem Few.of_append (h : Few (texts ++ later)) : Few texts :=
  Nat.lt_of_le_of_lt (Finset.card_le_card (by
    rw [List.toFinset_append]
    exact Finset.subset_union_left)) h

/-- A table without repetitions is as large as the number of different texts that have been interned in it. -/
theorem size_withTexts (h : (initial.withTexts texts).strings.toList.Nodup) :
    (initial.withTexts texts).size = (insert "" texts.toFinset).card := by
  rw [size, ← Array.length_toList, ← List.toFinset_card_of_nodup h]
  congr 1
  ext x
  simpa using mem_withTexts_initial

/-- A new text finds a place as long as there are few. -/
theorem room_withTexts (h : (initial.withTexts texts).strings.toList.Nodup) (hfew : Few (texts ++ [s])) :
    s ∈ (initial.withTexts texts).strings ∨ (initial.withTexts texts).size < 4294967296 := by
  by_cases hs : s ∈ (initial.withTexts texts).strings
  · exact .inl hs
  have hnew : s ∉ insert "" texts.toFinset := by
    simpa using fun hmem => hs (mem_withTexts_initial.mpr hmem)
  have hall : insert s (insert "" texts.toFinset) = insert "" (texts ++ [s]).toFinset := by
    ext x
    simp only [Finset.mem_insert, List.mem_toFinset, List.mem_append, List.mem_singleton]
    tauto
  have hcard : (insert "" texts.toFinset).card + 1 ≤ (texts ++ [s]).toFinset.card + 1 := by
    rw [← Finset.card_insert_of_notMem hnew, hall]
    exact Finset.card_insert_le _ _
  rw [size_withTexts h]
  unfold Few at hfew
  omega

/-- **Places and texts determine each other** in a table that has been interned in. -/
theorem proper_withTexts (hfew : Few texts) : (initial.withTexts texts).Proper := by
  induction texts using List.reverseRecOn with
  | nil => exact proper_initial
  | append_singleton texts s ih =>
    have hbefore := ih hfew.of_append
    rw [withTexts_concat]
    exact hbefore.intern (room_withTexts hbefore.nodup hfew)

/-- A text that has been interned is found where it was put. -/
theorem find?_withTexts (t : NameTable) (before : List String) (s : String) (after : List String) :
    (t.withTexts (before ++ s :: after)).find? s = some ((t.withTexts before).intern s).1 := by
  have hself := find?_intern_self (t.withTexts before) s
  rw [withTexts_append, withTexts]
  exact find?_withTexts_of_find? hself

theorem getElem?_withTexts {before after : List String} (hfew : Few (before ++ s :: after)) :
    (initial.withTexts (before ++ s :: after)).strings[((initial.withTexts before).intern s).1.index.toNat]? = some s :=
  (proper_withTexts hfew).find?_eq_some_iff.mp (find?_withTexts _ before s after)

/-- A table that begins with another one reads its names in the same way. -/
theorem lookup_of_begins (h : t.strings.toList <+: t'.strings.toList) (hn : t.Holds n) : t'.lookup n = t.lookup n := by
  obtain ⟨s, hs, hs'⟩ := getElem?_of_begins h hn
  rw [lookup_of_getElem? hs, lookup_of_getElem? hs']

/-- Looking for a text and reading a place undo each other. -/
theorem Proper.getElem?_eq_some_iff (ht : t.Proper) (i : Nat) (s : String) :
    t.strings[i]? = some s ↔ ∃ n, t.find? s = some n ∧ n.index.toNat = i := by
  constructor
  · intro h
    have hlt := (Array.getElem?_eq_some_iff.mp h).1
    have hplace : i.toUInt32.toNat = i := UInt32.toNat_ofNat_of_lt (Nat.lt_of_lt_of_le hlt ht.size_le)
    exact ⟨⟨i.toUInt32⟩, ht.find?_eq_some_iff.mpr (hplace.symm ▸ h), hplace⟩
  · rintro ⟨n, hn, rfl⟩
    exact ht.find?_eq_some_iff.mp hn

/-- What a table owes to those who have interned texts in it, one after another, from the initial table on. -/
structure Keeps (t : NameTable) (texts : List String) : Prop where
  first : t.strings[0]? = some ""
  nodup : t.strings.toList.Nodup
  /-- It holds nothing but what has been interned. -/
  holds : ∀ s, s ∈ t.strings ↔ s = "" ∨ s ∈ texts
  /-- A text has a place if and only if the place has the text. -/
  inverse : ∀ (i : Nat) (s : String), t.strings[i]? = some s ↔ ∃ n, t.find? s = some n ∧ n.index.toNat = i
  /-- A text is given the name that it was given at any time before, and nothing is added. -/
  again : ∀ before s after, texts = before ++ s :: after →
    t.intern s = (((initial.withTexts before).intern s).1, t)
  distinct : ∀ s ∈ texts, ∀ s' ∈ texts, (t.intern s).1 = (t.intern s').1 → s = s'
  lookup_intern : ∀ s ∈ texts, t.lookup (t.intern s).1 = s

theorem keeps_withTexts (hfew : Few texts) : (initial.withTexts texts).Keeps texts := by
  have hproper := proper_withTexts hfew
  have again : ∀ before s after, texts = before ++ s :: after →
      (initial.withTexts texts).intern s = (((initial.withTexts before).intern s).1, initial.withTexts texts) := by
    rintro before s after rfl
    rw [intern, find?_withTexts]
  have lookup_intern : ∀ s ∈ texts, (initial.withTexts texts).lookup ((initial.withTexts texts).intern s).1 = s := by
    intro s hs
    obtain ⟨before, after, rfl⟩ := List.append_of_mem hs
    rw [again before s after rfl]
    exact lookup_of_getElem? (getElem?_withTexts hfew)
  exact {
    first := hproper.first
    nodup := hproper.nodup
    holds := fun _ => mem_withTexts_initial
    inverse := hproper.getElem?_eq_some_iff
    again
    distinct := fun s hs s' hs' heq => by rw [← lookup_intern s hs, heq, lookup_intern s' hs']
    lookup_intern }

/-! ## 2. A map beside the texts -/

theorem find?_intern_of_ne {x : String} (h : x ≠ s) : (t.intern s).2.find? x = t.find? x := by
  cases hx : t.find? x with
  | some n => exact find?_intern_of_find? hx
  | none =>
    rw [find?_eq_none_iff] at hx ⊢
    rw [mem_intern]
    exact fun hmem => hmem.elim hx h

/-- A table that need not be searched: beside the texts it has a map from them to their places. -/
structure Mapped where
  map : Std.HashMap String UInt32
  strings : Array String

namespace Mapped

def initial : Mapped :=
  ⟨(∅ : Std.HashMap String UInt32).insert "" 0, #[""]⟩

def intern (m : Mapped) (s : String) : Name × Mapped :=
  match m.map[s]? with
  | some index => (⟨index⟩, m)
  | none =>
    let index := m.strings.size.toUInt32
    (⟨index⟩, ⟨m.map.insert s index, m.strings.push s⟩)

def withTexts (m : Mapped) : List String → Mapped
  | [] => m
  | s :: rest => (m.intern s).2.withTexts rest

structure StandsFor (m : Mapped) (t : NameTable) : Prop where
  strings : m.strings = t.strings
  map : ∀ s, m.map[s]? = (t.find? s).map Name.index

variable {m : Mapped}

theorem standsFor_initial : initial.StandsFor NameTable.initial := by
  refine ⟨rfl, fun s => ?_⟩
  rw [initial, Std.HashMap.getElem?_insert]
  by_cases hs : "" = s
  · subst hs
    have hempty : NameTable.initial.find? "" = some Name.empty := proper_initial.find?_eq_some_iff.mpr rfl
    simp [hempty, Name.empty]
  · have hnone : NameTable.initial.find? s = none :=
      find?_eq_none_iff.mpr (by simpa [NameTable.initial] using Ne.symm hs)
    simp [hs, hnone]

/-- Both tables give a text the same name, and then stand for each other again. -/
theorem StandsFor.intern (h : m.StandsFor t) (s : String) :
    (m.intern s).1 = (t.intern s).1 ∧ (m.intern s).2.StandsFor (t.intern s).2 := by
  have hs := h.map s
  cases hfind : t.find? s with
  | some n =>
    rw [hfind, Option.map_some] at hs
    rw [Mapped.intern, hs, NameTable.intern, hfind]
    exact ⟨rfl, h⟩
  | none =>
    rw [hfind, Option.map_none] at hs
    have hfresh := intern_fresh (find?_eq_none_iff.mp hfind)
    have hself := find?_intern_self t s
    rw [Mapped.intern, hs, h.strings]
    refine ⟨by rw [hfresh]; rfl, by rw [hfresh], fun x => ?_⟩
    rw [Std.HashMap.getElem?_insert]
    by_cases hx : s = x
    · subst hx
      rw [hself, hfresh]
      simp [size]
    · rw [find?_intern_of_ne (Ne.symm hx), ← h.map x]
      simp [hx]

theorem StandsFor.withTexts (h : m.StandsFor t) (texts : List String) :
    (m.withTexts texts).StandsFor (t.withTexts texts) := by
  induction texts generalizing m t with
  | nil => exact h
  | cons s rest ih => exact ih (h.intern s).2

/-- What a table with a map owes to those who could have a table that is searched. -/
structure Serves (m : Mapped) (t : NameTable) : Prop where
  strings : m.strings = t.strings
  answers : ∀ s, (m.intern s).1 = (t.intern s).1
  /-- The map and the texts undo each other. -/
  inverse : ∀ (i : Nat) (s : String), m.strings[i]? = some s ↔ ∃ index, m.map[s]? = some index ∧ index.toNat = i

theorem serves_withTexts (hfew : Few texts) :
    (initial.withTexts texts).Serves (NameTable.initial.withTexts texts) := by
  have hstands := standsFor_initial.withTexts texts
  refine ⟨hstands.strings, fun s => (hstands.intern s).1, fun i s => ?_⟩
  rw [hstands.strings, hstands.map, (keeps_withTexts hfew).inverse]
  simp only [Option.map_eq_some_iff, exists_exists_and_eq_and]

end Mapped

/-! ## 3. Lists of texts -/

def Reproduced (entries : List String) (i : Nat) : Prop :=
  ∀ s, entries[i]? = some s → ((initial.withTexts (entries.take i)).intern s).1.index.toNat = i

variable {entries done rest : List String} {i : Nat}

theorem reproduced_append_cons : Reproduced (done ++ s :: rest) done.length ↔
    ((initial.withTexts done).intern s).1.index.toNat = done.length := by
  simp [Reproduced]

/-- All the entries are interned if each of them is reproduced, and only then. -/
theorem internAll_eq_ok_iff (done rest : List String) :
    (initial.withTexts done).internAll done.length rest = .ok t ↔
      t = initial.withTexts (done ++ rest) ∧ ∀ i, done.length ≤ i → Reproduced (done ++ rest) i := by
  induction rest generalizing done with
  | nil =>
    have hnone : ∀ i, done.length ≤ i → Reproduced (done ++ []) i := fun i hi s hs => by simp [hi] at hs
    rw [internAll, List.append_nil, Except.ok.injEq, eq_comm]
    exact ⟨fun h => ⟨h, by simpa using hnone⟩, fun h => h.1⟩
  | cons s rest ih =>
    have hnext := ih (done ++ [s])
    rw [withTexts_concat, List.length_append, List.length_singleton, List.append_assoc, List.singleton_append] at hnext
    rw [internAll]
    dsimp only
    split
    next hplace =>
      rw [hnext]
      refine and_congr_right fun _ => ⟨fun h i hi => ?_, fun h i hi => h i (Nat.le_of_succ_le hi)⟩
      obtain rfl | hlt := hi.eq_or_lt
      · exact reproduced_append_cons.mpr hplace
      · exact h i hlt
    next hplace =>
      constructor
      · intro h
        cases h
      · rintro ⟨-, hall⟩
        exact absurd (reproduced_append_cons.mp (hall _ (Nat.le_refl _))) hplace

/-- The first entry that is not reproduced is told, and only that. -/
theorem internAll_eq_error_iff (done rest : List String) :
    (initial.withTexts done).internAll done.length rest = .error ⟨i, s⟩ ↔
      done.length ≤ i ∧ (done ++ rest)[i]? = some s ∧ ¬ Reproduced (done ++ rest) i ∧
        ∀ j, done.length ≤ j → j < i → Reproduced (done ++ rest) j := by
  induction rest generalizing done with
  | nil =>
    rw [internAll]
    constructor
    · intro h
      cases h
    · rintro ⟨hle, hs, -⟩
      simp [hle] at hs
  | cons x rest ih =>
    have hnext := ih (done ++ [x])
    rw [withTexts_concat, List.length_append, List.length_singleton, List.append_assoc, List.singleton_append] at hnext
    have hhere : (done ++ x :: rest)[done.length]? = some x := by simp
    rw [internAll]
    dsimp only
    split
    next hplace =>
      have hok : Reproduced (done ++ x :: rest) done.length := reproduced_append_cons.mpr hplace
      rw [hnext]
      constructor
      · rintro ⟨hle, hs, hnot, hbefore⟩
        refine ⟨Nat.le_of_succ_le hle, hs, hnot, fun j hj hji => ?_⟩
        obtain rfl | hlt := hj.eq_or_lt
        · exact hok
        · exact hbefore j hlt hji
      · rintro ⟨hle, hs, hnot, hbefore⟩
        refine ⟨hle.lt_of_ne ?_, hs, hnot, fun j hj hji => hbefore j (Nat.le_of_succ_le hj) hji⟩
        rintro rfl
        exact hnot hok
    next hplace =>
      have hnot : ¬ Reproduced (done ++ x :: rest) done.length := fun h => hplace (reproduced_append_cons.mp h)
      constructor
      · intro h
        cases h
        exact ⟨Nat.le_refl _, hhere, hnot, fun j hj hji => absurd hji (Nat.not_lt.mpr hj)⟩
      · rintro ⟨hle, hs, -, hbefore⟩
        obtain rfl | hlt := hle.eq_or_lt
        · cases hhere.symm.trans hs
          rfl
        · exact absurd (hbefore _ (Nat.le_refl _) hlt) hnot

theorem ofList_eq_ok_iff : ofList entries = .ok t ↔ t = initial.withTexts entries ∧ ∀ i, Reproduced entries i :=
  (internAll_eq_ok_iff [] entries).trans (by simp)

theorem ofList_eq_error_iff : ofList entries = .error ⟨i, s⟩ ↔
    entries[i]? = some s ∧ ¬ Reproduced entries i ∧ ∀ j < i, Reproduced entries j :=
  (internAll_eq_error_iff [] entries).trans (by simp)

/-- The first entry of a list that is reproduced is the empty text. -/
theorem Reproduced.first_eq {first : String} (h : Reproduced (first :: rest) 0) : first = "" := by
  by_contra hne
  have hfresh : first ∉ initial.strings := by simpa [initial] using hne
  have hplace := h first rfl
  rw [List.take_zero, withTexts, intern_fresh hfresh] at hplace
  cases hplace

/-- No entry of a list that is reproduced is there twice. -/
theorem nodup_of_reproduced (hfew : Few entries) (h : ∀ i, Reproduced entries i) : entries.Nodup := by
  rw [List.nodup_iff_getElem?_ne_getElem?]
  intro i j hij hj heq
  have hj' : entries[j]? = some entries[j] := List.getElem?_eq_getElem hj
  have hi' : entries[i]? = some entries[j] := heq.trans hj'
  -- What is interned for the second time gets its first place.
  have hsplit : entries.take j = entries.take i ++ entries[j] :: (entries.take j).drop (i + 1) := by
    have hlt : i < (entries.take j).length := by simpa using ⟨hij, hij.trans hj⟩
    have hget : (entries.take j)[i] = entries[j] := by
      have := (List.getElem?_eq_some_iff.mp hi').2
      simpa using this
    conv_lhs => rw [← List.take_append_drop i (entries.take j), List.drop_eq_getElem_cons hlt, hget]
    rw [List.take_take, Nat.min_eq_left hij.le]
  have hfew' : Few (entries.take j) := by
    rw [← List.take_append_drop j entries] at hfew
    exact hfew.of_append
  have hagain := (keeps_withTexts hfew').again _ _ _ hsplit
  have hplace := h j _ hj'
  rw [hagain] at hplace
  exact absurd ((h i _ hi').symm.trans hplace) hij.ne

/-- **A list is a table** if it is empty, or starts with the empty text and holds no text twice. -/
theorem ofList_isOk_iff (hfew : Few entries) :
    (∃ t, ofList entries = .ok t) ↔ entries = [] ∨ entries.head? = some "" ∧ entries.Nodup := by
  constructor
  · rintro ⟨t, ht⟩
    have hall := (ofList_eq_ok_iff.mp ht).2
    cases entries with
    | nil => exact .inl rfl
    | cons first rest =>
      exact .inr ⟨congrArg some (hall 0).first_eq, nodup_of_reproduced hfew hall⟩
  · rintro (rfl | ⟨hfirst, hnodup⟩)
    · exact ⟨_, rfl⟩
    · obtain ⟨rest, rfl⟩ := List.head?_eq_some_iff.mp hfirst
      have hsize : initial.size + rest.length ≤ 4294967296 := by
        unfold Few at hfew
        rw [List.toFinset_card_of_nodup hnodup, List.length_cons] at hfew
        show 1 + rest.length ≤ _
        omega
      exact ⟨_, (ofList_empty rest).trans (internAll_fresh rest initial hnodup hsize)⟩

/-- An entry that is reproduced is found at its place in the table of the list. -/
theorem getElem?_ofList (hfew : Few entries) (ht : ofList entries = .ok t) (hs : entries[i]? = some s) :
    t.strings[i]? = some s := by
  obtain ⟨rfl, hall⟩ := ofList_eq_ok_iff.mp ht
  obtain ⟨hlt, hget⟩ := List.getElem?_eq_some_iff.mp hs
  have hsplit : entries = entries.take i ++ s :: entries.drop (i + 1) := by
    conv_lhs => rw [← List.take_append_drop i entries, List.drop_eq_getElem_cons hlt, hget]
  have hplace := getElem?_withTexts (hsplit ▸ hfew)
  rwa [hall i s hs, ← hsplit] at hplace

/-! ## 4. Tables in use -/

/-- The table was `own` once.  Since then `texts` have been interned in it, in order: one by one, or by machines that
were built on it for a tree, each of which interns its globals as listed. -/
inductive SharedSince (tree : Tree) (own : NameTable) : List String → NameTable → Prop where
  | start : SharedSince tree own [] own
  | intern {texts : List String} {t : NameTable} (s : String) : SharedSince tree own texts t →
      SharedSince tree own (texts ++ [s]) (t.intern s).2
  | build {σ : Type} {texts : List String} {t : NameTable} {entries : List (String × Value)}
      {hosts : List EmbeddedFunction} (config : Config) (output : Output) (clock : Nat → Nat) (rule : PauseRule σ)
      (memory : σ) : SharedSince tree own texts t → entries.Perm (Machine.globals hosts).entries →
      SharedSince tree own (texts ++ entries.map Prod.fst)
        (Machine.buildWith t entries tree config hosts output clock rule memory).setting.names

/-- To install globals is to intern their names, as far as the table is concerned. -/
theorem names_install (env : Env) (entries : List (String × Value)) (t : NameTable) (scopes : Scopes) :
    (Machine.install env entries t scopes).1 = t.withTexts (entries.map Prod.fst) := by
  induction entries generalizing t scopes with
  | nil => rfl
  | cons entry rest ih => exact ih _ _

theorem SharedSince.eq {tree : Tree} {own : NameTable} (h : SharedSince tree own texts t) :
    t = own.withTexts texts := by
  induction h with
  | start => rfl
  | intern s _ ih => rw [withTexts_concat, ← ih]
  | build config output clock rule memory _ _ ih =>
    rw [withTexts_append, ← ih]
    exact names_install _ _ _ _

/-- **Names stand for texts.**  As long as there are fewer different texts than places, a table keeps every promise
of `Keeps` after any sequence of interning, and one with a map serves as well.  Whatever is interned later, by
anyone or by machines that are built on the table, is only put behind, and names that were there are read as
before.  A list of texts is a table if it is empty, or starts with the empty text and holds none twice; then each
entry has its own place.  Any other list is refused at the first entry that would not have its own place. -/
theorem names_stand_for_texts :
    (∀ texts, Few texts → (initial.withTexts texts).Keeps texts ∧
      (Mapped.initial.withTexts texts).Serves (initial.withTexts texts)) ∧
    (∀ (tree : Tree) (texts later : List String) (t : NameTable),
      SharedSince tree (initial.withTexts texts) later t →
        (Few (texts ++ later) → t.Keeps (texts ++ later)) ∧
        (initial.withTexts texts).strings.toList <+: t.strings.toList ∧
        ∀ n, (initial.withTexts texts).Holds n → t.lookup n = (initial.withTexts texts).lookup n) ∧
    ∀ entries, Few entries →
      ((∃ t, ofList entries = .ok t) ↔ entries = [] ∨ entries.head? = some "" ∧ entries.Nodup) ∧
      (∀ t, ofList entries = .ok t →
        t.Keeps entries ∧ ∀ i s, entries[i]? = some s → t.strings[i]? = some s ∧ (t.intern s).1.index.toNat = i) ∧
      ∀ i s, ofList entries = .error ⟨i, s⟩ ↔
        entries[i]? = some s ∧ ¬ Reproduced entries i ∧ ∀ j < i, Reproduced entries j := by
  refine ⟨fun _ hfew => ⟨keeps_withTexts hfew, Mapped.serves_withTexts hfew⟩, fun tree texts later t hshared => ?_,
    fun entries hfew => ?_⟩
  · obtain rfl := hshared.eq
    have hbegins := begins_withTexts (initial.withTexts texts) later
    refine ⟨fun hfew => ?_, hbegins, fun n => lookup_of_begins hbegins⟩
    rw [← withTexts_append]
    exact keeps_withTexts hfew
  · refine ⟨ofList_isOk_iff hfew, fun t ht => ?_, fun _ _ => ofList_eq_error_iff⟩
    have hkeeps : t.Keeps entries := (ofList_eq_ok_iff.mp ht).1 ▸ keeps_withTexts hfew
    refine ⟨hkeeps, fun i s hs => ?_⟩
    have hplace := getElem?_ofList hfew ht hs
    obtain ⟨n, hn, hi⟩ := (hkeeps.inverse i s).mp hplace
    refine ⟨hplace, ?_⟩
    rw [NameTable.intern, hn]
    exact hi

/-- A text is interned again after a machine has been built on the table; one list of texts is a table, another has a
repetition. -/
theorem names_stand_for_texts_display :
    let globals := (Machine.globals []).entries
    let t := (Machine.displayHi (initial.withTexts ["x"]) globals).setting.names
    (SharedSince Tree.displayHi (initial.withTexts ["x"]) (globals.map Prod.fst) t ∧
      Few ("x" :: globals.map Prod.fst) ∧ t.intern "x" = ((initial.intern "x").1, t) ∧
      t.lookup (initial.intern "x").1 = "x") ∧
    (Few ["", "x"] ∧ ∃ t, ofList ["", "x"] = .ok t ∧ (t.intern "x").1.index.toNat = 1) ∧
    Few ["", "x", "x"] ∧ ofList ["", "x", "x"] = .error ⟨2, "x"⟩ ∧ ¬ Reproduced ["", "x", "x"] 2 := by
  intro globals t
  obtain ⟨-, hlater, hlists⟩ := names_stand_for_texts
  have few_of_length : ∀ texts : List String, texts.length < 4294967296 → Few texts := fun texts h =>
    Nat.lt_of_le_of_lt texts.toFinset_card_le h
  have horder : globals.Perm (Machine.globals []).entries := .refl _
  have hstart : SharedSince Tree.displayHi (initial.withTexts ["x"]) [] (initial.withTexts ["x"]) := .start
  have hshared : SharedSince Tree.displayHi (initial.withTexts ["x"]) (globals.map Prod.fst) t :=
    hstart.build .standard default (fun _ => 0) .never () horder
  have hfew : Few ("x" :: globals.map Prod.fst) := few_of_length _ (by decide +kernel)
  have hkeeps : t.Keeps ("x" :: globals.map Prod.fst) := (hlater _ ["x"] _ t hshared).1 hfew
  have hagain : t.intern "x" = ((initial.intern "x").1, t) := hkeeps.again [] "x" _ rfl
  have hlookup := hkeeps.lookup_intern "x" List.mem_cons_self
  rw [hagain] at hlookup
  have hgood : Few ["", "x"] := few_of_length _ (by decide)
  obtain ⟨hok, hplaces, -⟩ := hlists ["", "x"] hgood
  obtain ⟨t', ht'⟩ := hok.mpr (.inr ⟨rfl, by decide⟩)
  have hbad : Few ["", "x", "x"] := few_of_length _ (by decide)
  have herror : ofList ["", "x", "x"] = .error ⟨2, "x"⟩ := by cbv
  exact ⟨⟨hshared, hfew, hagain, hlookup⟩, ⟨hgood, t', ht', ((hplaces t' ht').2 1 "x" rfl).2⟩, hbad, herror,
    (((hlists _ hbad).2.2 2 "x").mp herror).2.1⟩

end NameTable

end ExplicitControl
