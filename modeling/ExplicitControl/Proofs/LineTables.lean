import ExplicitControl.Diagnostic.LineTable
import ExplicitControl.Proofs.Boundaries
import Mathlib.Data.Prod.Lex

/-!
# Places of offsets

The table of a text knows where its lines start, and everything else is computed from that: the line of an offset, its
column, and the text of a line.  Here these are what they should be.  The lines are the pieces of the text between its
newlines, and an offset between two characters can be found again from its place.  A later offset has a later place,
unless it lies inside a character, which is told as the start of its line.

Offsets are numbers of 32 bits, so a text has less than `2 ^ 32` bytes.  That is enough for every line and column when
they are counted from zero, but not when they are counted from one: the last place of the longest texts is lost.
-/

namespace ExplicitControl

namespace LineTable

open Text

variable {before after cs : List Char} {n : Nat}

/-! ## 1. Where lines start -/

theorem startsAfter_append (offset : Nat) (before after : List Char) :
    startsAfter offset (before ++ after) =
      startsAfter offset before ++ startsAfter (offset + byteLength before) after := by
  induction before generalizing offset with
  | nil => simp [startsAfter]
  | cons c before ih =>
    rw [byteLength_cons, ← Nat.add_assoc]
    simp only [List.cons_append, startsAfter, ih]
    split <;> rfl

theorem length_startsAfter (offset : Nat) (cs : List Char) : (startsAfter offset cs).length = cs.count '\n' := by
  induction cs generalizing offset with
  | nil => rfl
  | cons c cs ih =>
    rw [startsAfter, List.count_cons]
    by_cases hc : c = '\n'
    · simp [hc, ih]
    · simp [hc, ih]

theorem le_of_mem_startsAfter {offset start : Nat} (h : start ∈ startsAfter offset cs) :
    start ≤ offset + byteLength cs := by
  induction cs generalizing offset with
  | nil => cases h
  | cons c cs ih =>
    rw [byteLength_cons, ← Nat.add_assoc]
    rw [startsAfter] at h
    split at h
    · obtain rfl | h := List.mem_cons.mp h
      · exact Nat.le_add_right _ _
      · exact ih h
    · exact ih h

/-- No line starts before the first character has ended. -/
theorem le_of_mem_startsAfter_cons {offset start : Nat} {c : Char} (h : start ∈ startsAfter offset (c :: cs)) :
    offset + c.utf8Size ≤ start := by
  induction cs generalizing offset c with
  | nil =>
    rw [startsAfter] at h
    split at h
    · exact (List.mem_singleton.mp h).ge
    · cases h
  | cons d cs ih =>
    rw [startsAfter] at h
    split at h
    · obtain rfl | h := List.mem_cons.mp h
      · exact Nat.le_refl _
      · exact Nat.le_trans (Nat.le_add_right _ _) (ih h)
    · exact Nat.le_trans (Nat.le_add_right _ _) (ih h)

theorem pos_of_mem_startsAfter {offset start : Nat} (h : start ∈ startsAfter offset cs) : offset < start := by
  cases cs with
  | nil => cases h
  | cons c cs => exact Nat.lt_of_lt_of_le (Nat.lt_add_of_pos_right c.utf8Size_pos) (le_of_mem_startsAfter_cons h)

theorem starts_append (before after : List Char) : (ofChars (before ++ after)).starts =
    0 :: (startsAfter 0 before ++ startsAfter (byteLength before) after) := by
  rw [ofChars, startsAfter_append, Nat.zero_add]

@[simp] theorem source_ofChars (cs : List Char) : (ofChars cs).source = cs :=
  rfl

theorem lineCount_ofChars (cs : List Char) : (ofChars cs).lineCount = cs.count '\n' + 1 := by
  rw [lineCount, ofChars, List.length_cons, length_startsAfter]

/-- The last line that has begun before a boundary starts behind the last newline before it. -/
theorem getElem?_starts (before after : List Char) :
    (ofChars (before ++ after)).starts[before.count '\n']? = some (byteLength (wholeLines before)) := by
  rw [← wholeLines_append_lastLine_append before after, starts_append, ← count_wholeLines]
  obtain h | ⟨ended, h⟩ := wholeLines_eq before
  · rw [h]
    rfl
  · have hlast : startsAfter 0 (ended ++ ['\n']) = startsAfter 0 ended ++ [byteLength (ended ++ ['\n'])] := by
      simp [startsAfter_append, startsAfter]
    have hcount : (ended ++ ['\n']).count '\n' = (startsAfter 0 ended).length + 1 := by
      simp [length_startsAfter]
    rw [h, hcount, List.getElem?_cons_succ, hlast, List.append_assoc, List.getElem?_append_right (Nat.le_refl _)]
    simp

/-! ## 2. Numbers that count from one -/

theorem toNat_fromOne {n : Nat} (h : n < 4294967295) : (fromOne n).toNat = n + 1 := by
  have hmod : (n + 1) % 4294967296 = n + 1 := Nat.mod_eq_of_lt (by omega)
  rw [fromOne, if_pos (by omega), UInt32.toNat_add, UInt32.toNat_ofNat_of_lt' (show n < 4294967296 by omega)]
  exact hmod

/-- The last number of 32 bits has no successor. -/
theorem fromOne_last : fromOne 4294967295 = 0 := rfl

/-- Counting from zero again leads back, also where the sum has wrapped around. -/
theorem toNat_fromOne_sub_one {n : Nat} (h : n < 4294967296) : (fromOne n - 1).toNat = n := by
  rw [fromOne, if_pos h, UInt32.add_sub_cancel, UInt32.toNat_ofNat_of_lt' h]

/-! ## 3. Places -/

/-- The line of an offset counts the newlines before the last boundary that is not behind the offset. -/
theorem linesBefore_ofChars (hle : byteLength before ≤ n)
    (hnext : ∀ c rest, after = c :: rest → n < byteLength before + c.utf8Size) :
    (ofChars (before ++ after)).linesBefore n = before.count '\n' := by
  have hbefore : (startsAfter 0 before).countP (fun start => start ≤ n) = before.count '\n' := by
    rw [List.countP_eq_length.mpr fun start hstart => ?_, length_startsAfter]
    have := le_of_mem_startsAfter hstart
    simp only [decide_eq_true_eq]
    omega
  have hafter : (startsAfter (byteLength before) after).countP (fun start => start ≤ n) = 0 := by
    rw [List.countP_eq_zero]
    intro start hstart
    cases after with
    | nil => cases hstart
    | cons c rest =>
      have := hnext c rest rfl
      have := le_of_mem_startsAfter_cons hstart
      simp only [decide_eq_true_eq]
      omega
  rw [linesBefore, starts_append, List.countP_cons_of_pos (by simp), List.countP_append, hbefore, hafter, Nat.add_zero,
    Nat.add_sub_cancel]

theorem linesBefore_byteLength (before after : List Char) :
    (ofChars (before ++ after)).linesBefore (byteLength before) = before.count '\n' :=
  linesBefore_ofChars (Nat.le_refl _) fun c _ _ => Nat.lt_add_of_pos_right c.utf8Size_pos

theorem linesBefore_of_le (h : byteLength cs ≤ n) : (ofChars cs).linesBefore n = cs.count '\n' := by
  have hend : (ofChars (cs ++ [])).linesBefore n = cs.count '\n' := linesBefore_ofChars h nofun
  rwa [List.append_nil] at hend

theorem linesBefore_mono (t : LineTable) {a b : Nat} (h : a ≤ b) : t.linesBefore a ≤ t.linesBefore b :=
  Nat.sub_le_sub_right (List.countP_mono_left fun start _ hstart => by
    simp only [decide_eq_true_eq] at hstart ⊢
    exact Nat.le_trans hstart h) 1

theorem startOf_fromOne (h : byteLength (before ++ after) < 4294967296) :
    (ofChars (before ++ after)).startOf (fromOne (before.count '\n')) = byteLength (wholeLines before) := by
  have hcount := count_add_length_lastLine_le before
  rw [byteLength_append] at h
  rw [startOf, toNat_fromOne_sub_one (by omega), List.getD_eq_getElem?_getD, getElem?_starts, Option.getD_some]

section

variable (h : byteLength (before ++ after) < 4294967296)
include h

theorem charsBefore_byteLength :
    (ofChars (before ++ after)).charsBefore (byteLength before) = (lastLine before).length := by
  have hwhole := byteLength_wholeLines_le before
  have hslice : sliceBytes (before ++ after) (byteLength (wholeLines before)) (byteLength before) =
    some (lastLine before) :=
    sliceBytes_eq_some_iff.mpr ⟨wholeLines before, after, by simp, rfl, by simp⟩
  have hstop : max (min (byteLength before) (byteLength (before ++ after))) (byteLength (wholeLines before)) =
      byteLength before := by
    rw [byteLength_append]
    omega
  rw [charsBefore, lineOf, linesBefore_byteLength, startOf_fromOne h, source_ofChars, hstop, hslice]
  rfl

/-- **The place of a boundary** counts the newlines before it, and the characters behind the last of them. -/
theorem lineCol_byteLength : (ofChars (before ++ after)).lineCol (byteLength before) =
    ⟨fromOne (before.count '\n'), fromOne (lastLine before).length⟩ := by
  rw [lineCol, lineOf, linesBefore_byteLength, charsBefore_byteLength h]

end

/-- An offset past the end stands for the end. -/
theorem charsBefore_of_le (h : byteLength cs ≤ n) :
    (ofChars cs).charsBefore n = (ofChars cs).charsBefore (byteLength cs) := by
  rw [charsBefore, charsBefore, lineOf, lineOf, linesBefore_of_le h, linesBefore_of_le (Nat.le_refl _), source_ofChars,
    Nat.min_eq_right h, Nat.min_self]

theorem lineCol_of_le (h : byteLength cs ≤ n) : (ofChars cs).lineCol n = (ofChars cs).lineCol (byteLength cs) := by
  rw [lineCol, lineCol, lineOf, lineOf, linesBefore_of_le h, linesBefore_of_le (Nat.le_refl _), charsBefore_of_le h]

theorem linesBefore_min (cs : List Char) (n : Nat) :
    (ofChars cs).linesBefore (min n (byteLength cs)) = (ofChars cs).linesBefore n := by
  obtain h | h := Nat.le_total n (byteLength cs)
  · rw [Nat.min_eq_left h]
  · rw [Nat.min_eq_right h, linesBefore_of_le h, linesBefore_of_le (Nat.le_refl _)]

theorem charsBefore_min (cs : List Char) (n : Nat) :
    (ofChars cs).charsBefore (min n (byteLength cs)) = (ofChars cs).charsBefore n := by
  obtain h | h := Nat.le_total n (byteLength cs)
  · rw [Nat.min_eq_left h]
  · rw [Nat.min_eq_right h, charsBefore_of_le h]

/-- An offset inside a character is told as the start of its line. -/
theorem charsBefore_of_isInside (hsize : byteLength cs < 4294967296) (h : IsInside cs n) :
    (ofChars cs).charsBefore n = 0 := by
  obtain ⟨before, after, rfl, hle, hnext⟩ := exists_last_boundary cs n
  have hwhole := byteLength_wholeLines_le before
  have hstop : max (min n (byteLength (before ++ after))) (byteLength (wholeLines before)) = n := by
    have := h.1
    omega
  have hslice : sliceBytes (before ++ after) (byteLength (wholeLines before)) n = none := by
    rw [Option.eq_none_iff_forall_ne_some]
    exact fun mid hmid => h.2 (isBoundary_of_sliceBytes hmid).2
  rw [charsBefore, lineOf, linesBefore_ofChars hle hnext, startOf_fromOne hsize, source_ofChars, hstop, hslice]
  rfl

/-- **The place of any offset** is on the last line of what stands before some boundary, and not behind that
boundary. -/
theorem exists_place (hsize : byteLength cs < 4294967296) (n : Nat) : ∃ before after, cs = before ++ after ∧
    byteLength before ≤ n ∧ (ofChars cs).linesBefore n = before.count '\n' ∧
    (ofChars cs).charsBefore n ≤ (lastLine before).length := by
  by_cases hinside : IsInside cs n
  · obtain ⟨before, after, rfl, hle, hnext⟩ := exists_last_boundary cs n
    refine ⟨before, after, rfl, hle, linesBefore_ofChars hle hnext, ?_⟩
    rw [charsBefore_of_isInside hsize hinside]
    exact Nat.zero_le _
  · obtain ⟨before, ⟨after, rfl⟩, hbytes⟩ := isBoundary_min hinside
    rw [← linesBefore_min, ← charsBefore_min, ← hbytes]
    exact ⟨before, after, rfl, by omega, linesBefore_byteLength before after, (charsBefore_byteLength hsize).le⟩

/-! ## 4. The places that are lost -/

/-- The line or the column of the offset, counted from zero, is the last number of 32 bits.  Counted from one it is told
as zero, by a sum that wraps around. -/
def Overflows (t : LineTable) (offset : Nat) : Prop :=
  t.linesBefore offset = 4294967295 ∨ t.charsBefore offset = 4294967295

instance (t : LineTable) (offset : Nat) : Decidable (t.Overflows offset) :=
  inferInstanceAs (Decidable (_ ∨ _))

section

variable (hsize : byteLength cs < 4294967296)
include hsize

/-- **Which places are lost:** those of offsets that are not before the end of a text of `2 ^ 32 - 1` bytes, if all of
these are newlines, or all of them characters of one line. -/
theorem overflows_iff : (ofChars cs).Overflows n ↔
    4294967295 ≤ n ∧ (cs.count '\n' = 4294967295 ∨ '\n' ∉ cs ∧ cs.length = 4294967295) := by
  constructor
  · intro h
    obtain ⟨before, after, rfl, hle, hlines, hchars⟩ := exists_place hsize n
    have hcount := count_add_length_lastLine_le before
    rw [byteLength_append] at hsize
    -- What stands before the offset already has all bytes of the text.
    have hall : 4294967295 ≤ byteLength before := by
      obtain h | h := h <;> omega
    obtain rfl : after = [] := by
      cases after with
      | nil => rfl
      | cons c rest =>
        have hpos := c.utf8Size_pos
        rw [byteLength_cons] at hsize
        omega
    rw [List.append_nil] at *
    refine ⟨by omega, h.imp (fun h => by omega) fun h => ⟨List.count_eq_zero.mp (by omega), ?_⟩⟩
    have hlength := length_le_byteLength before
    have hlast : (lastLine before).length ≤ before.length := (List.rtakeWhile_suffix _ _).length_le
    omega
  · rintro ⟨hn, h⟩
    have hend : byteLength cs ≤ n := by omega
    refine h.imp (fun hcount => by rw [linesBefore_of_le hend, hcount]) fun ⟨hline, hlength⟩ => ?_
    have hlast : lastLine cs = cs := lastLine_append [] hline
    have hchars : (ofChars (cs ++ [])).charsBefore (byteLength cs) = (lastLine cs).length :=
      charsBefore_byteLength (by simpa using hsize)
    rw [List.append_nil, hlast, hlength] at hchars
    rw [charsBefore_of_le hend, hchars]

theorem not_overflows_of_lt (h : byteLength cs < 4294967295) : ¬ (ofChars cs).Overflows n := fun hover => by
  obtain ⟨-, hcount | ⟨-, hlength⟩⟩ := (overflows_iff hsize).mp hover
  · have := List.count_le_length (a := '\n') (l := cs)
    have := length_le_byteLength cs
    omega
  · have := length_le_byteLength cs
    omega

/-- Every other place is one more than what is counted from zero. -/
theorem toNat_lineCol (h : ¬ (ofChars cs).Overflows n) :
    ((ofChars cs).lineCol n).line.toNat = (ofChars cs).linesBefore n + 1 ∧
    ((ofChars cs).lineCol n).column.toNat = (ofChars cs).charsBefore n + 1 := by
  obtain ⟨before, after, rfl, -, hlines, hchars⟩ := exists_place hsize n
  have hcount := count_add_length_lastLine_le before
  rw [byteLength_append] at hsize
  obtain ⟨hline, hcolumn⟩ := not_or.mp h
  exact ⟨toNat_fromOne (by omega), toNat_fromOne (by omega)⟩

end

/-! ## 5. Lines -/

section

variable {mid : List Char} (hmid : '\n' ∉ mid)
include hmid

theorem starts_behind_last (before : List Char) :
    (ofChars (before ++ mid)).starts[1 + before.count '\n']? = none := by
  rw [List.getElem?_eq_none_iff, starts_append, List.length_cons, List.length_append, length_startsAfter,
    length_startsAfter, List.count_eq_zero_of_not_mem hmid]
  omega

theorem starts_behind_newline (before rest : List Char) :
    (ofChars (before ++ mid ++ '\n' :: rest)).starts[1 + before.count '\n']? =
      some (byteLength (before ++ mid) + 1) := by
  have hcount : (before ++ mid ++ ['\n']).count '\n' = 1 + before.count '\n' := by
    rw [List.count_append, List.count_append, List.count_eq_zero_of_not_mem hmid, List.count_singleton_self]
    omega
  have hbytes : byteLength (before ++ mid ++ ['\n']) = byteLength (before ++ mid) + 1 := by
    rw [byteLength_append _ ['\n']]
    rfl
  have hstart := getElem?_starts (before ++ mid ++ ['\n']) rest
  rwa [hcount, wholeLines_concat_newline, hbytes, ← List.append_cons] at hstart

end

theorem sliceBytes_line (before mid rest : List Char) :
    sliceBytes (before ++ mid ++ rest) (byteLength (wholeLines before)) (byteLength (before ++ mid)) =
      some (lastLine before ++ mid) :=
  sliceBytes_eq_some_iff.mpr
    ⟨wholeLines before, rest, by simp [← List.append_assoc], rfl, by simp [← List.append_assoc]⟩

/-- **The line of a boundary** is what stands behind the last newline before it and before the next one. -/
theorem lineText?_ofChars (before after : List Char) :
    (ofChars (before ++ after)).lineText? (1 + before.count '\n') =
      some (lastLine before ++ after.takeWhile fun c => c != '\n') := by
  have hline : (1 + before.count '\n') ≠ 0 := by omega
  have hmid : '\n' ∉ after.takeWhile fun c => c != '\n' := fun h => by simpa using List.mem_takeWhile_imp h
  have hsplit := List.takeWhile_append_dropWhile (p := fun c => c != '\n') (l := after)
  generalize after.takeWhile (fun c => c != '\n') = mid at hmid hsplit ⊢
  have hslice := sliceBytes_line before mid
  rw [lineText?, if_neg hline, Nat.add_sub_cancel_left, getElem?_starts]
  -- The line ends at the end of the text, or before the newline with which the rest starts.
  cases hrest : after.dropWhile fun c => c != '\n' with
  | nil =>
    obtain rfl : mid = after := by rwa [hrest, List.append_nil] at hsplit
    rw [starts_behind_last hmid]
    simpa using hslice []
  | cons c rest =>
    obtain rfl : c = '\n' := by
      have hhead := List.head?_dropWhile_not (fun c => c != '\n') after
      simpa [hrest] using hhead
    rw [hrest] at hsplit
    subst hsplit
    rw [source_ofChars, ← List.append_assoc, starts_behind_newline hmid]
    exact hslice _

theorem getElem?_splitOn_zero (cs : List Char) :
    (cs.splitOn '\n')[0]? = some (cs.takeWhile fun c => c != '\n') := by
  induction cs with
  | nil => rfl
  | cons c cs ih =>
    rw [List.splitOn_cons_eq_if_modifyHead, List.takeWhile_cons]
    by_cases hc : c = '\n'
    · simp [hc]
    · simp [hc, ih]

theorem length_splitOn (cs : List Char) : (cs.splitOn '\n').length = cs.count '\n' + 1 := by
  induction cs with
  | nil => rfl
  | cons c cs ih =>
    rw [List.splitOn_cons_eq_if_modifyHead, List.count_cons]
    by_cases hc : c = '\n'
    · simp [hc, ih]
    · simp [hc, ih]

/-- The piece between two newlines that a boundary lies in. -/
theorem getElem?_splitOn (before after : List Char) : ((before ++ after).splitOn '\n')[before.count '\n']? =
    some (lastLine before ++ after.takeWhile fun c => c != '\n') := by
  have hlast := takeWhile_append_of_notMem (newline_notMem_lastLine before) after
  rw [← wholeLines_append_lastLine_append before after, ← count_wholeLines, ← hlast]
  obtain h | ⟨ended, h⟩ := wholeLines_eq before
  · rw [h]
    exact getElem?_splitOn_zero _
  · rw [h, ← List.append_cons, List.splitOn_append_cons_self, List.count_append, List.count_singleton_self,
      ← length_splitOn, List.getElem?_append_right (Nat.le_refl _), Nat.sub_self]
    exact getElem?_splitOn_zero _

theorem exists_of_le_count {i : Nat} (h : i ≤ cs.count '\n') :
    ∃ before after, cs = before ++ after ∧ before.count '\n' = i := by
  induction cs generalizing i with
  | nil => exact ⟨[], [], rfl, (Nat.le_zero.mp h).symm⟩
  | cons c cs ih =>
    cases i with
    | zero => exact ⟨[], c :: cs, rfl, rfl⟩
    | succ i =>
      rw [List.count_cons] at h
      by_cases hc : c = '\n'
      · obtain ⟨before, after, rfl, hi⟩ := ih (i := i) (by simpa [hc] using h)
        exact ⟨c :: before, after, rfl, by simp [hc, hi]⟩
      · obtain ⟨before, after, rfl, hi⟩ := ih (i := i + 1) (by simpa [hc] using h)
        exact ⟨c :: before, after, rfl, by simp [hc, hi]⟩

/-- **The lines of a text** are the pieces between its newlines. -/
theorem lineText?_eq_getElem? (cs : List Char) (i : Nat) : (ofChars cs).lineText? (1 + i) = (cs.splitOn '\n')[i]? := by
  by_cases h : i ≤ cs.count '\n'
  · obtain ⟨before, after, rfl, rfl⟩ := exists_of_le_count h
    rw [lineText?_ofChars, getElem?_splitOn]
  · have hstarts : (ofChars cs).starts[1 + i - 1]? = none := by
      rw [List.getElem?_eq_none_iff, ← lineCount, lineCount_ofChars]
      omega
    have hpieces : (cs.splitOn '\n')[i]? = none := by
      rw [List.getElem?_eq_none_iff, length_splitOn]
      omega
    rw [lineText?, if_neg (by omega), hstarts, hpieces]

theorem lineText?_eq_none {line : Nat} (h : line = 0 ∨ (ofChars cs).lineCount < line) :
    (ofChars cs).lineText? line = none := by
  obtain rfl | h := h
  · rfl
  · obtain ⟨i, rfl⟩ := Nat.exists_eq_add_of_le (Nat.one_le_of_lt h)
    rw [lineText?_eq_getElem?, List.getElem?_eq_none_iff, length_splitOn]
    rw [lineCount_ofChars] at h
    omega

theorem map_lineText? (cs : List Char) :
    (List.range' 1 (ofChars cs).lineCount).map (ofChars cs).lineText? = (cs.splitOn '\n').map some := by
  refine List.ext_getElem (by simp [lineCount_ofChars, length_splitOn]) fun i hi _ => ?_
  rw [List.getElem_map, List.getElem_range', Nat.one_mul, lineText?_eq_getElem?, List.getElem_map,
    List.getElem?_eq_getElem]

/-! ## 6. From places back to offsets -/

/-- The offset that is reached from the start of a line by walking over the characters before a column. -/
def walk? (t : LineTable) (place : LineCol) : Option Nat :=
  (dropBytes (t.startOf place.line) t.source).map fun rest =>
    t.startOf place.line + byteLength (rest.take (place.column.toNat - 1))

/-- What the place of the boundary behind some characters tells. -/
structure LeadsBack (t : LineTable) (before : String) : Prop where
  line : (t.lineCol before.utf8ByteSize).line.toNat = 1 + before.toList.count '\n'
  column : (t.lineCol before.utf8ByteSize).column.toNat = 1 + (lastLine before.toList).length
  walk : t.walk? (t.lineCol before.utf8ByteSize) = some before.utf8ByteSize
  /-- There is such a line, and it is long enough. -/
  text : ∃ text, t.lineText? (t.lineCol before.utf8ByteSize).line.toNat = some text ∧
    (t.lineCol before.utf8ByteSize).column.toNat - 1 ≤ text.length

theorem LeadsBack.column_ne_zero {t : LineTable} {before : String} (h : t.LeadsBack before) :
    (t.lineCol before.utf8ByteSize).column ≠ 0 := fun hzero => by
  have hcolumn := h.column
  rw [hzero, UInt32.toNat_zero] at hcolumn
  omega

/-- The table of a text in two parts, with the boundary between them as an offset. -/
theorem ofString_append (before after : String) :
    ofString (before ++ after) = ofChars (before.toList ++ after.toList) :=
  congrArg ofChars String.toList_append

section

variable {before after : String} (hsize : (before ++ after).utf8ByteSize < 4294967296)
include hsize

theorem leadsBack (h : ¬ (ofString (before ++ after)).Overflows before.utf8ByteSize) :
    (ofString (before ++ after)).LeadsBack before := by
  rw [← byteLength_toList, String.toList_append] at hsize
  rw [ofString_append] at h ⊢
  rw [← byteLength_toList] at h
  obtain ⟨hline, hcolumn⟩ := toNat_lineCol hsize h
  rw [linesBefore_byteLength] at hline
  rw [charsBefore_byteLength hsize] at hcolumn
  have htext := lineText?_ofChars before.toList after.toList
  have hstart := startOf_fromOne hsize
  have hplace := lineCol_byteLength hsize
  have hdrop : dropBytes (byteLength (wholeLines before.toList)) (before.toList ++ after.toList) =
      some (lastLine before.toList ++ after.toList) :=
    dropBytes_eq_some_iff.mpr ⟨_, (wholeLines_append_lastLine_append _ _).symm, rfl⟩
  have hbytes : byteLength (wholeLines before.toList) + byteLength (lastLine before.toList) =
      byteLength before.toList := by
    rw [← byteLength_append, wholeLines_append_lastLine]
  constructor
  all_goals rw [← byteLength_toList]
  case line => rw [hline, Nat.add_comm]
  case column => rw [hcolumn, Nat.add_comm]
  case walk =>
    rw [walk?, hcolumn, hplace]
    dsimp only
    rw [hstart, source_ofChars, hdrop, Option.map_some, Nat.add_sub_cancel, List.take_left, hbytes]
  case text =>
    refine ⟨_, by rw [hline, Nat.add_comm]; exact htext, ?_⟩
    rw [hcolumn, List.length_append]
    exact Nat.le_add_right _ _

/-- A place that is lost does not lead back: its line or its column is zero. -/
theorem not_leadsBack (h : (ofString (before ++ after)).Overflows before.utf8ByteSize) :
    ¬ (ofString (before ++ after)).LeadsBack before := fun hback => by
  rw [← byteLength_toList, String.toList_append] at hsize
  rw [ofString_append] at h hback
  obtain ⟨hline, hcolumn, -, -⟩ := hback
  rw [← byteLength_toList] at h hline hcolumn
  have hlineBound := UInt32.toNat_lt ((ofChars (before.toList ++ after.toList)).lineCol (byteLength before.toList)).line
  have hcolumnBound :=
    UInt32.toNat_lt ((ofChars (before.toList ++ after.toList)).lineCol (byteLength before.toList)).column
  rw [Overflows, linesBefore_byteLength, charsBefore_byteLength hsize] at h
  omega

end

/-- **Offsets and places.**  A boundary of a text has as its line one more than the newlines before it, and as its
column one more than the characters behind the last of them; walking over these from the start of the line leads back
to it, and the line is long enough for that.  The one exception is the end of a text of `2 ^ 32 - 1` newlines, or of as
many characters in one line.  Whatever is past the end has the place of the end.  The lines, as long as they have
numbers of 32 bits, joined with newlines, are the text, and there are no other lines. -/
theorem offsets_and_places (source : String) (h : source.utf8ByteSize < 4294967296) :
    (∀ before after, source = before ++ after →
      ((ofString source).LeadsBack before ↔ ¬ (ofString source).Overflows before.utf8ByteSize)) ∧
    (∀ offset, (ofString source).Overflows offset ↔ 4294967295 ≤ offset ∧
      (source.toList.count '\n' = 4294967295 ∨ '\n' ∉ source.toList ∧ source.toList.length = 4294967295)) ∧
    (∀ offset, source.utf8ByteSize ≤ offset →
      (ofString source).lineCol offset = (ofString source).lineCol source.utf8ByteSize) ∧
    ((ofString source).lineCount < 4294967296 →
      ∃ texts, (List.range' 1 (ofString source).lineCount).map (ofString source).lineText? = texts.map some ∧
        ['\n'].intercalate texts = source.toList) ∧
    ∀ line, line = 0 ∨ (ofString source).lineCount < line → (ofString source).lineText? line = none := by
  have hbytes : byteLength source.toList < 4294967296 := by rwa [byteLength_toList]
  refine ⟨?_, fun offset => overflows_iff hbytes, fun offset hend => ?_,
    fun _ => ⟨_, map_lineText? _, List.intercalate_splitOn _⟩, fun _ => lineText?_eq_none⟩
  · rintro before after rfl
    exact ⟨fun hback hover => not_leadsBack h hover hback, leadsBack h⟩
  · rw [← byteLength_toList] at hend ⊢
    exact lineCol_of_le hend

/-- Two lines, of characters of two bytes: one offset is found again, one is past the end, one line is not there. -/
theorem offsets_and_places_umlauts :
    "ä\nöü".utf8ByteSize < 4294967296 ∧
    ("ä\nöü" = "ä\nö" ++ "ü" ∧ (ofString "ä\nöü").LeadsBack "ä\nö") ∧
    ("ä\nöü".utf8ByteSize ≤ 100 ∧ (ofString "ä\nöü").lineCol 100 = (ofString "ä\nöü").lineCol "ä\nöü".utf8ByteSize) ∧
    ((ofString "ä\nöü").lineCount < 4294967296 ∧
      ∃ texts, (List.range' 1 (ofString "ä\nöü").lineCount).map (ofString "ä\nöü").lineText? = texts.map some ∧
        ['\n'].intercalate texts = "ä\nöü".toList) ∧
    (3 = 0 ∨ (ofString "ä\nöü").lineCount < 3) ∧ (ofString "ä\nöü").lineText? 3 = none := by
  have hsize : "ä\nöü".utf8ByteSize < 4294967296 := by decide
  obtain ⟨hplaces, -, hend, hlines, hnone⟩ := offsets_and_places "ä\nöü" hsize
  have hsplit : "ä\nöü" = "ä\nö" ++ "ü" := by decide
  have hover : ¬ (ofString "ä\nöü").Overflows "ä\nö".utf8ByteSize := by decide
  have hle : "ä\nöü".utf8ByteSize ≤ 100 := by decide
  have hcount : (ofString "ä\nöü").lineCount < 4294967296 := by decide
  have hnoLine : 3 = 0 ∨ (ofString "ä\nöü").lineCount < 3 := .inr (by decide)
  exact ⟨hsize, ⟨hsplit, (hplaces _ _ hsplit).mpr hover⟩, ⟨hle, hend 100 hle⟩, ⟨hcount, hlines hcount⟩, hnoLine,
    hnone 3 hnoLine⟩

/-- The end of a text of nothing but newlines. -/
theorem lineCol_newlines {n : Nat} (h : n < 4294967296) :
    (ofChars (List.replicate n '\n')).lineCol n = ⟨fromOne n, 1⟩ := by
  have hbytes : byteLength (List.replicate n '\n') = n := byteLength_replicate n rfl
  have hlast : lastLine (List.replicate n '\n') = [] := by
    have hcount := count_add_length_lastLine_le (List.replicate n '\n')
    rw [List.count_replicate_self, hbytes] at hcount
    exact List.length_eq_zero_iff.mp (by omega)
  have hwhole : byteLength (List.replicate n '\n' ++ []) < 4294967296 := by rwa [List.append_nil, hbytes]
  have hplace := lineCol_byteLength hwhole
  rw [List.append_nil, hbytes, List.count_replicate_self, hlast] at hplace
  exact hplace

/-- The end of a text of one line of letters. -/
theorem lineCol_letters {n : Nat} (h : n < 4294967296) :
    (ofChars (List.replicate n 'a')).lineCol n = ⟨1, fromOne n⟩ := by
  have hbytes : byteLength (List.replicate n 'a') = n := byteLength_replicate n rfl
  have hline : '\n' ∉ List.replicate n 'a' := fun hmem => absurd (List.eq_of_mem_replicate hmem) (by decide)
  have hlast : lastLine (List.replicate n 'a') = List.replicate n 'a' := lastLine_append [] hline
  have hwhole : byteLength (List.replicate n 'a' ++ []) < 4294967296 := by rwa [List.append_nil, hbytes]
  have hplace := lineCol_byteLength hwhole
  rw [List.append_nil, hbytes, List.count_eq_zero_of_not_mem hline, hlast, List.length_replicate] at hplace
  exact hplace

/-- A text can have so many letters in one line that its end is told to be in column zero, which leads nowhere. -/
theorem last_letter_without_column :
    (String.ofList (List.replicate 4294967295 'a')).utf8ByteSize = 4294967295 ∧
    (ofString (String.ofList (List.replicate 4294967295 'a'))).lineCol 4294967295 = ⟨1, 0⟩ ∧
    ¬ (ofString (String.ofList (List.replicate 4294967295 'a'))).LeadsBack
      (String.ofList (List.replicate 4294967295 'a')) := by
  have hsize : (String.ofList (List.replicate 4294967295 'a')).utf8ByteSize = 4294967295 := by
    rw [← byteLength_ofList, byteLength_replicate _ rfl]
  have hplace : (ofString (String.ofList (List.replicate 4294967295 'a'))).lineCol 4294967295 = ⟨1, 0⟩ := by
    rw [ofString, String.toList_ofList, lineCol_letters (by decide), fromOne_last]
  exact ⟨hsize, hplace, fun hback => hback.column_ne_zero (by rw [hsize, hplace])⟩

/-! ## 7. The order of places -/

/-- Places are read line by line, and a line from its first column on. -/
instance : LE LineCol :=
  ⟨fun p q => toLex (p.line, p.column) ≤ toLex (q.line, q.column)⟩

theorem lineCol_le_iff {p q : LineCol} : p ≤ q ↔ p.line < q.line ∨ p.line = q.line ∧ p.column ≤ q.column :=
  Prod.Lex.toLex_le_toLex

section

variable {a b : Nat} (hsize : byteLength cs < 4294967296)
include hsize

/-- Of two boundaries, the later one is not placed before the other. -/
theorem before_le_of_begins {first second : List Char} (hfirst : first <+: cs) (hsecond : second <+: cs)
    (h : byteLength first ≤ byteLength second) :
    (ofChars cs).linesBefore (byteLength first) < (ofChars cs).linesBefore (byteLength second) ∨
    (ofChars cs).linesBefore (byteLength first) = (ofChars cs).linesBefore (byteLength second) ∧
      (ofChars cs).charsBefore (byteLength first) ≤ (ofChars cs).charsBefore (byteLength second) := by
  obtain ⟨mid, rfl⟩ := begins_of_byteLength_le hfirst hsecond h
  obtain ⟨after, rfl⟩ := hsecond
  have hlines := linesBefore_byteLength first (mid ++ after)
  have hwhole : byteLength (first ++ (mid ++ after)) < 4294967296 := by rwa [← List.append_assoc]
  have hchars := charsBefore_byteLength hwhole
  rw [← List.append_assoc] at hlines hchars
  rw [hlines, hchars, linesBefore_byteLength, charsBefore_byteLength hsize, List.count_append]
  by_cases hmid : '\n' ∈ mid
  · have := List.count_pos_iff.mpr hmid
    exact .inl (by omega)
  · rw [List.count_eq_zero_of_not_mem hmid, lastLine_append first hmid, List.length_append]
    exact .inr ⟨by omega, Nat.le_add_right _ _⟩

/-- Counted from zero, an offset that is not inside a character is not placed before any offset below it. -/
theorem before_le (h : a ≤ b) (hb : ¬ IsInside cs b) : (ofChars cs).linesBefore a < (ofChars cs).linesBefore b ∨
    (ofChars cs).linesBefore a = (ofChars cs).linesBefore b ∧
      (ofChars cs).charsBefore a ≤ (ofChars cs).charsBefore b := by
  by_cases ha : IsInside cs a
  · rw [charsBefore_of_isInside hsize ha]
    obtain hlt | heq := (linesBefore_mono (ofChars cs) h).lt_or_eq
    · exact .inl hlt
    · exact .inr ⟨heq, Nat.zero_le _⟩
  · obtain ⟨first, hfirst, hfirstBytes⟩ := isBoundary_min ha
    obtain ⟨second, hsecond, hsecondBytes⟩ := isBoundary_min hb
    have horder := before_le_of_begins hsize hfirst hsecond (by omega)
    rwa [hfirstBytes, hsecondBytes, linesBefore_min, linesBefore_min, charsBefore_min, charsBefore_min] at horder

section

variable (h : a ≤ b) (hb : ¬ (ofChars cs).Overflows b)
include h hb

/-- Where the later offset has a line, every earlier one has. -/
theorem toNat_line : ((ofChars cs).lineCol a).line.toNat = (ofChars cs).linesBefore a + 1 := by
  have hline := (toNat_lineCol hsize hb).1
  have hbound := UInt32.toNat_lt ((ofChars cs).lineCol b).line
  have hmono := linesBefore_mono (ofChars cs) h
  exact toNat_fromOne (by omega)

theorem line_le : ((ofChars cs).lineCol a).line ≤ ((ofChars cs).lineCol b).line := by
  rw [UInt32.le_iff_toNat_le, toNat_line hsize h hb, (toNat_lineCol hsize hb).1]
  exact Nat.succ_le_succ (linesBefore_mono _ h)

theorem lineCol_le (hnot : ¬ IsInside cs b) : (ofChars cs).lineCol a ≤ (ofChars cs).lineCol b := by
  have hlineA := toNat_line hsize h hb
  obtain ⟨hline, hcolumn⟩ := toNat_lineCol hsize hb
  rw [lineCol_le_iff, UInt32.lt_iff_toNat_lt, ← UInt32.toNat_inj, UInt32.le_iff_toNat_le]
  obtain hlt | ⟨heq, hchars⟩ := before_le hsize h hnot
  · exact .inl (by omega)
  -- On one line the earlier column is not lost either.
  · have hbound := UInt32.toNat_lt ((ofChars cs).lineCol b).column
    have hcolumnA : ((ofChars cs).lineCol a).column.toNat = (ofChars cs).charsBefore a + 1 := toNat_fromOne (by omega)
    exact .inr ⟨by omega, by omega⟩

end

theorem column_of_isInside (h : IsInside cs n) : ((ofChars cs).lineCol n).column = 1 := by
  rw [lineCol, charsBefore_of_isInside hsize h]
  rfl

end

/-- **Places are in the order of offsets,** but for offsets inside a character, as long as the later one has a place.
The line of a later offset is never an earlier one.  An offset that is not inside a character is not placed before any
offset below it; one that is has the first column of its line. -/
theorem places_in_order (source : String) (h : source.utf8ByteSize < 4294967296) (a b : Nat) (hle : a ≤ b)
    (hb : ¬ (ofString source).Overflows b) :
    ((ofString source).lineCol a).line ≤ ((ofString source).lineCol b).line ∧
    (¬ IsInside source.toList b → (ofString source).lineCol a ≤ (ofString source).lineCol b) ∧
    (IsInside source.toList b → ((ofString source).lineCol b).column = 1) := by
  have hsize : byteLength source.toList < 4294967296 := by rwa [byteLength_toList]
  exact ⟨line_le hsize hle hb, lineCol_le hsize hle hb, column_of_isInside hsize⟩

/-- An umlaut is placed behind a letter, but an offset inside of it is placed before that. -/
theorem places_in_order_umlaut :
    "aä".utf8ByteSize < 4294967296 ∧
    (1 ≤ 3 ∧ ¬ (ofString "aä").Overflows 3 ∧ ¬ IsInside "aä".toList 3 ∧
      (ofString "aä").lineCol 1 ≤ (ofString "aä").lineCol 3) ∧
    1 ≤ 2 ∧ ¬ (ofString "aä").Overflows 2 ∧ IsInside "aä".toList 2 ∧ ((ofString "aä").lineCol 2).column = 1 := by
  have hsize : "aä".utf8ByteSize < 4294967296 := by decide
  have hthird : ¬ (ofString "aä").Overflows 3 := by decide
  have hsecond : ¬ (ofString "aä").Overflows 2 := by decide
  have hend : ¬ IsInside "aä".toList 3 := by decide
  have hinside : IsInside "aä".toList 2 := by decide
  exact ⟨hsize, ⟨by decide, hthird, hend, (places_in_order "aä" hsize 1 3 (by decide) hthird).2.1 hend⟩, by decide,
    hsecond, hinside, (places_in_order "aä" hsize 1 2 (by decide) hsecond).2.2 hinside⟩

/-- Offsets inside a character are out of order: the second byte of an umlaut is placed before the letter in front. -/
theorem umlaut_out_of_order : "aä".utf8ByteSize < 4294967296 ∧ 1 ≤ 2 ∧
    ¬ (ofString "aä").lineCol 1 ≤ (ofString "aä").lineCol 2 := by
  have hfirst : (ofString "aä").lineCol 1 = ⟨1, 2⟩ := by decide
  have hsecond : (ofString "aä").lineCol 2 = ⟨1, 1⟩ := by decide
  refine ⟨by decide, by decide, ?_⟩
  rw [hfirst, hsecond, lineCol_le_iff]
  decide

end LineTable

end ExplicitControl
