import ExplicitControl.Text.Bytes
import Mathlib.Data.List.DropRight
import Mathlib.Data.List.Infix

/-!
# Where a text may be cut

An offset is a boundary of a text if some characters at its beginning take up exactly that many bytes.  A text can be
cut at its boundaries and nowhere else, and the parts between two boundaries are the characters between them.  Every
offset lies at a boundary, inside a character, or past the end; the last line of what is before a boundary is what
columns are counted in.
-/

namespace ExplicitControl.Text

variable {cs before after mid : List Char} {n start stop : Nat}

/-! ## 1. Bytes of characters -/

theorem foldl_utf8Size (cs : List Char) (n : Nat) :
    cs.foldl (fun n c => n + c.utf8Size) n = n + byteLength cs := by
  induction cs generalizing n with
  | nil => rfl
  | cons c cs ih =>
    rw [byteLength, List.foldl_cons, List.foldl_cons, ih, ih (0 + c.utf8Size)]
    omega

@[simp] theorem byteLength_nil : byteLength [] = 0 := rfl

@[simp] theorem byteLength_cons (c : Char) (cs : List Char) : byteLength (c :: cs) = c.utf8Size + byteLength cs := by
  rw [byteLength, List.foldl_cons, foldl_utf8Size, Nat.zero_add]

@[simp] theorem byteLength_append (before after : List Char) :
    byteLength (before ++ after) = byteLength before + byteLength after := by
  rw [byteLength, List.foldl_append, foldl_utf8Size, foldl_utf8Size, Nat.zero_add]

theorem byteLength_replicate (n : Nat) {c : Char} (h : c.utf8Size = 1) : byteLength (List.replicate n c) = n := by
  induction n with
  | zero => rfl
  | succ n ih => rw [List.replicate_succ, byteLength_cons, h, ih, Nat.add_comm]

theorem length_le_byteLength (cs : List Char) : cs.length ≤ byteLength cs := by
  induction cs with
  | nil => exact Nat.le_refl _
  | cons c cs ih =>
    have := c.utf8Size_pos
    rw [List.length_cons, byteLength_cons]
    omega

theorem byteLength_ofList (cs : List Char) : byteLength cs = (String.ofList cs).utf8ByteSize := by
  induction cs with
  | nil => simp
  | cons c cs ih =>
    rw [byteLength_cons, String.ofList_cons, String.utf8ByteSize_append, String.utf8ByteSize_singleton, ih]

/-- The bytes are those of the text in UTF-8. -/
theorem byteLength_toList (s : String) : byteLength s.toList = s.utf8ByteSize := by
  rw [byteLength_ofList, String.ofList_toList]

theorem byteLength_le_of_begins (h : before <+: cs) : byteLength before ≤ byteLength cs := by
  obtain ⟨after, rfl⟩ := h
  rw [byteLength_append]
  exact Nat.le_add_right _ _

/-- Of two beginnings of a text, the one with fewer bytes is a beginning of the other. -/
theorem begins_of_byteLength_le {first second : List Char} (hfirst : first <+: cs) (hsecond : second <+: cs)
    (h : byteLength first ≤ byteLength second) : first <+: second := by
  obtain hle | hle := List.prefix_or_prefix_of_prefix hfirst hsecond
  · exact hle
  · obtain ⟨rest, rfl⟩ := hle
    cases rest with
    | nil => simp
    | cons c rest =>
      have hpos := c.utf8Size_pos
      simp only [byteLength_append, byteLength_cons] at h
      omega

/-! ## 2. Cutting -/

theorem dropBytes_append (before after : List Char) : dropBytes (byteLength before) (before ++ after) = some after := by
  induction before with
  | nil =>
    rw [byteLength_nil, dropBytes.eq_def]
    rfl
  | cons c before ih =>
    obtain ⟨n, hn⟩ := Nat.exists_eq_add_of_lt c.utf8Size_pos
    have hbytes : byteLength (c :: before) = n + byteLength before + 1 := by rw [byteLength_cons]; omega
    have hrest : n + byteLength before + 1 - c.utf8Size = byteLength before := by omega
    rw [hbytes, List.cons_append, dropBytes, if_pos (by omega), hrest, ih]

theorem exists_of_dropBytes (h : dropBytes n cs = some after) :
    ∃ before, cs = before ++ after ∧ byteLength before = n := by
  fun_induction dropBytes n cs with
  | case1 cs => exact ⟨[], Option.some.inj h, rfl⟩
  | case2 => cases h
  | case3 n c cs hle ih =>
    obtain ⟨before, rfl, hlen⟩ := ih h
    exact ⟨c :: before, rfl, by rw [byteLength_cons]; omega⟩
  | case4 => cases h

theorem dropBytes_eq_some_iff :
    dropBytes n cs = some after ↔ ∃ before, cs = before ++ after ∧ byteLength before = n := by
  refine ⟨exists_of_dropBytes, ?_⟩
  rintro ⟨before, rfl, rfl⟩
  exact dropBytes_append before after

theorem takeBytes_append (before after : List Char) :
    takeBytes (byteLength before) (before ++ after) = some before := by
  induction before with
  | nil => rw [byteLength_nil, takeBytes]
  | cons c before ih =>
    obtain ⟨n, hn⟩ := Nat.exists_eq_add_of_lt c.utf8Size_pos
    have hbytes : byteLength (c :: before) = n + byteLength before + 1 := by rw [byteLength_cons]; omega
    have hrest : n + byteLength before + 1 - c.utf8Size = byteLength before := by omega
    rw [hbytes, List.cons_append, takeBytes, if_pos (by omega), hrest, ih]
    rfl

theorem begins_of_takeBytes (h : takeBytes n cs = some before) : before <+: cs ∧ byteLength before = n := by
  fun_induction takeBytes n cs generalizing before with
  | case1 cs =>
    cases h
    exact ⟨List.nil_prefix, rfl⟩
  | case2 => cases h
  | case3 n c cs hle ih =>
    obtain ⟨rest, hrest, rfl⟩ := Option.map_eq_some_iff.mp h
    obtain ⟨hbegins, hlen⟩ := ih hrest
    exact ⟨(List.prefix_cons_inj c).mpr hbegins, by rw [byteLength_cons]; omega⟩
  | case4 => cases h

theorem sliceBytes_append (before after : List Char) (stop : Nat) :
    sliceBytes (before ++ after) (byteLength before) stop =
      if byteLength before ≤ stop then takeBytes (stop - byteLength before) after else none := by
  rw [sliceBytes, dropBytes_append, Option.bind_some]

/-- **What is cut out** are the characters between two boundaries. -/
theorem sliceBytes_eq_some_iff : sliceBytes cs start stop = some mid ↔
    ∃ before after, cs = before ++ mid ++ after ∧ byteLength before = start ∧ byteLength (before ++ mid) = stop := by
  rw [sliceBytes]
  constructor
  · intro h
    split at h
    next hle =>
      obtain ⟨rest, hrest, hmid⟩ := Option.bind_eq_some_iff.mp h
      obtain ⟨before, rfl, hbefore⟩ := exists_of_dropBytes hrest
      obtain ⟨⟨after, rfl⟩, hlen⟩ := begins_of_takeBytes hmid
      exact ⟨before, after, by rw [List.append_assoc], hbefore, by rw [byteLength_append]; omega⟩
    next => cases h
  · rintro ⟨before, after, rfl, rfl, rfl⟩
    rw [byteLength_append, if_pos (Nat.le_add_right _ _), List.append_assoc, dropBytes_append, Option.bind_some,
      Nat.add_sub_cancel_left]
    exact takeBytes_append mid after

theorem mem_of_mem_sliceBytes {c : Char} (h : sliceBytes cs start stop = some mid) (hc : c ∈ mid) : c ∈ cs := by
  obtain ⟨before, after, rfl, -, -⟩ := sliceBytes_eq_some_iff.mp h
  simp [hc]

/-! ## 3. Boundaries -/

/-- The offset is between two characters, or at one of the ends. -/
def IsBoundary (cs : List Char) (n : Nat) : Prop :=
  ∃ before, before <+: cs ∧ byteLength before = n

theorem isBoundary_iff : IsBoundary cs n ↔ (dropBytes n cs).isSome := by
  simp only [IsBoundary, List.IsPrefix, Option.isSome_iff_exists, dropBytes_eq_some_iff]
  constructor
  · rintro ⟨before, ⟨after, rfl⟩, hlen⟩
    exact ⟨after, before, rfl, hlen⟩
  · rintro ⟨after, before, rfl, hlen⟩
    exact ⟨before, ⟨after, rfl⟩, hlen⟩

instance (cs : List Char) (n : Nat) : Decidable (IsBoundary cs n) :=
  decidable_of_iff _ isBoundary_iff.symm

/-- The offset is before the end, but not between two characters. -/
def IsInside (cs : List Char) (n : Nat) : Prop :=
  n < byteLength cs ∧ ¬ IsBoundary cs n

instance (cs : List Char) (n : Nat) : Decidable (IsInside cs n) :=
  inferInstanceAs (Decidable (_ ∧ _))

theorem isBoundary_byteLength (cs : List Char) : IsBoundary cs (byteLength cs) :=
  ⟨cs, List.prefix_refl _, rfl⟩

/-- An offset that is not inside a character is a boundary, or stands for the end. -/
theorem isBoundary_min (h : ¬ IsInside cs n) : IsBoundary cs (min n (byteLength cs)) := by
  by_cases hlt : n < byteLength cs
  · rw [Nat.min_eq_left hlt.le]
    by_contra hnot
    exact h ⟨hlt, hnot⟩
  · rw [Nat.min_eq_right (Nat.le_of_not_lt hlt)]
    exact isBoundary_byteLength cs

theorem isBoundary_of_sliceBytes (h : sliceBytes cs start stop = some mid) :
    IsBoundary cs start ∧ IsBoundary cs stop := by
  obtain ⟨before, after, rfl, hstart, hstop⟩ := sliceBytes_eq_some_iff.mp h
  exact ⟨⟨before, by simp, hstart⟩, ⟨before ++ mid, by simp, hstop⟩⟩

/-- Below every offset there is a last boundary: the next character ends behind the offset. -/
theorem exists_last_boundary (cs : List Char) (n : Nat) : ∃ before after, cs = before ++ after ∧
    byteLength before ≤ n ∧ ∀ c rest, after = c :: rest → n < byteLength before + c.utf8Size := by
  induction cs generalizing n with
  | nil => exact ⟨[], [], rfl, Nat.zero_le _, nofun⟩
  | cons c cs ih =>
    by_cases hle : c.utf8Size ≤ n
    · obtain ⟨before, after, rfl, hbefore, hnext⟩ := ih (n - c.utf8Size)
      refine ⟨c :: before, after, rfl, by rw [byteLength_cons]; omega, fun d rest h => ?_⟩
      have := hnext d rest h
      rw [byteLength_cons]
      omega
    · refine ⟨[], c :: cs, rfl, Nat.zero_le _, fun d rest h => ?_⟩
      obtain ⟨rfl, -⟩ := List.cons.inj h
      simpa using hle

/-! ## 4. The last line -/

def wholeLines (cs : List Char) : List Char :=
  cs.rdropWhile fun c => c != '\n'

def lastLine (cs : List Char) : List Char :=
  cs.rtakeWhile fun c => c != '\n'

@[simp] theorem wholeLines_append_lastLine (cs : List Char) : wholeLines cs ++ lastLine cs = cs :=
  List.rdropWhile_append_rtakeWhile

theorem wholeLines_append_lastLine_append (cs rest : List Char) :
    wholeLines cs ++ (lastLine cs ++ rest) = cs ++ rest := by
  rw [← List.append_assoc, wholeLines_append_lastLine]

theorem byteLength_wholeLines_le (cs : List Char) : byteLength (wholeLines cs) ≤ byteLength cs :=
  byteLength_le_of_begins (List.rdropWhile_prefix _ _)

theorem newline_notMem_lastLine (cs : List Char) : '\n' ∉ lastLine cs := fun h => by
  simpa using List.mem_rtakeWhile_imp h

theorem wholeLines_eq (cs : List Char) : wholeLines cs = [] ∨ ∃ ended, wholeLines cs = ended ++ ['\n'] := by
  by_cases h : wholeLines cs = []
  · exact .inl h
  · have hlast : (wholeLines cs).getLast h = '\n' := by
      have hnot : ¬ ((wholeLines cs).getLast h != '\n') = true := List.rdropWhile_last_not _ cs h
      simpa using hnot
    exact .inr ⟨_, (hlast ▸ (wholeLines cs).dropLast_append_getLast h).symm⟩

theorem wholeLines_concat_newline (cs : List Char) : wholeLines (cs ++ ['\n']) = cs ++ ['\n'] :=
  List.rdropWhile_concat_neg _ _ _ (by simp)

theorem count_wholeLines (cs : List Char) : (wholeLines cs).count '\n' = cs.count '\n' := by
  conv_rhs => rw [← wholeLines_append_lastLine cs]
  rw [List.count_append, List.count_eq_zero_of_not_mem (newline_notMem_lastLine cs), Nat.add_zero]

/-- The newlines of a text and the characters behind the last of them have a byte each. -/
theorem count_add_length_lastLine_le (cs : List Char) : cs.count '\n' + (lastLine cs).length ≤ byteLength cs := by
  have hcount : (wholeLines cs).count '\n' ≤ (wholeLines cs).length := List.count_le_length
  have hlength : (wholeLines cs).length + (lastLine cs).length = cs.length := by
    rw [← List.length_append, wholeLines_append_lastLine]
  have hbytes := length_le_byteLength cs
  rw [← count_wholeLines]
  omega

/-- Characters without a newline go to the first line of what stands behind them. -/
theorem takeWhile_append_of_notMem (h : '\n' ∉ mid) (rest : List Char) :
    ((mid ++ rest).takeWhile fun c => c != '\n') = mid ++ rest.takeWhile fun c => c != '\n' :=
  List.takeWhile_append_of_pos fun c hc => by
    have hne : c ≠ '\n' := fun heq => h (heq ▸ hc)
    simpa using hne

/-- Characters without a newline go to the last line. -/
theorem lastLine_append (before : List Char) (h : '\n' ∉ mid) : lastLine (before ++ mid) = lastLine before ++ mid := by
  induction mid using List.reverseRecOn with
  | nil => simp
  | append_singleton mid c ih =>
    obtain ⟨hmid, hc⟩ : '\n' ∉ mid ∧ ¬ '\n' = c := by simpa using h
    have hkeep : (c != '\n') = true := by simpa using Ne.symm hc
    rw [← List.append_assoc, lastLine, List.rtakeWhile_concat, if_pos hkeep, ← lastLine, ih hmid, List.append_assoc]

end ExplicitControl.Text
