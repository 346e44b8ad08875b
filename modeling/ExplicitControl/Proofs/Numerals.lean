import ExplicitControl.Decimal.Reader
import Mathlib.Data.List.Induction
import Mathlib.Tactic.IntervalCases

/-!
# Numerals

A numeral is the decimal digits of a number, with any zeros in front of them and perhaps a plus sign in front of all.
A text is read as a number if and only if it is a numeral of that number and the number is in bounds.
-/

namespace ExplicitControl

/-- The text is a numeral of the number: its decimal digits behind any zeros, perhaps behind a plus sign. -/
def Spells (s : String) (n : Nat) : Prop :=
  ∃ sign ∈ ["", "+"], ∃ zeros : Nat, s = sign ++ String.ofList (List.replicate zeros '0') ++ n.repr

namespace Decimal

theorem ofDigits_eq_ofDigitChars (ds : List Char) : ofDigits ds = Nat.ofDigitChars 10 ds 0 := by
  unfold ofDigits Nat.ofDigitChars
  simp only [Nat.mul_comm]

theorem ofDigits_append_singleton (ds : List Char) (d : Char) :
    ofDigits (ds ++ [d]) = ofDigits ds * 10 + (d.toNat - '0'.toNat) := by
  simp [ofDigits]

theorem ofDigits_toDigits (n : Nat) : ofDigits (Nat.toDigits 10 n) = n := by
  rw [ofDigits_eq_ofDigitChars, Nat.ofDigitChars_toDigits (by decide) (by decide)]

/-- Zeros in front of digits count for nothing. -/
theorem ofDigits_zeros (zeros : Nat) (ds : List Char) :
    ofDigits (List.replicate zeros '0' ++ ds) = ofDigits ds := by
  induction zeros with
  | zero => rfl
  | succ zeros ih =>
    rw [List.replicate_succ, List.cons_append]
    exact ih

/-- A digit is the one digit of its value. -/
theorem toDigits_of_isDigit {d : Char} (h : d.isDigit = true) :
    d.toNat - '0'.toNat < 10 ∧ Nat.toDigits 10 (d.toNat - '0'.toNat) = [d] := by
  have hd := h
  simp only [Char.isDigit, Bool.and_eq_true, decide_eq_true_eq] at hd
  have hlow : 48 ≤ d.toNat := hd.1
  have hhigh : d.toNat ≤ 57 := hd.2
  have hzero : '0'.toNat = 48 := rfl
  rw [hzero]
  have hten : d.toNat - 48 < 10 := by omega
  refine ⟨hten, ?_⟩
  rw [Nat.toDigits_of_lt_base hten]
  have hchar : (d.toNat - 48).digitChar = d := by
    rw [← Char.ofNat_toNat d]
    interval_cases d.toNat <;> rfl
  rw [hchar]

/-- Digits are zeros before the digits of the number that they spell. -/
theorem digits_eq (ds : List Char) (hne : ds ≠ []) (hds : ∀ d ∈ ds, d.isDigit = true) :
    ∃ zeros, ds = List.replicate zeros '0' ++ Nat.toDigits 10 (ofDigits ds) := by
  induction ds using List.reverseRecOn with
  | nil => exact absurd rfl hne
  | append_singleton ds d ih =>
    obtain ⟨hlt, hd⟩ := toDigits_of_isDigit (hds d (by simp))
    rw [ofDigits_append_singleton]
    by_cases hnil : ds = []
    · subst hnil
      refine ⟨0, ?_⟩
      rw [show ofDigits [] = 0 from rfl, Nat.zero_mul, Nat.zero_add, hd]
      rfl
    · obtain ⟨zeros, hzeros⟩ := ih hnil fun c hc => hds c (List.mem_append_left _ hc)
      generalize ofDigits ds = m at hzeros
      subst hzeros
      rcases Nat.eq_zero_or_pos m with rfl | hm
      · refine ⟨zeros + 1, ?_⟩
        rw [Nat.zero_mul, Nat.zero_add, hd, Nat.toDigits_zero, List.replicate_succ']
      · refine ⟨zeros, ?_⟩
        rw [Nat.mul_comm, ← Nat.toDigits_append_toDigits (by decide) hm hlt, hd, List.append_assoc]

def behindSign : List Char → List Char
  | '+' :: rest => rest
  | cs => cs

theorem readNat?_eq (max : Nat) (s : String) :
    readNat? max s =
      if (behindSign s.toList).isEmpty || !(behindSign s.toList).all Char.isDigit then none
      else if ofDigits (behindSign s.toList) ≤ max then some (ofDigits (behindSign s.toList)) else none := rfl

/-- A text is what stands behind its sign, with the sign or without one. -/
theorem eq_sign_append (s : String) : ∃ sign ∈ ["", "+"], s = sign ++ String.ofList (behindSign s.toList) := by
  unfold behindSign
  split
  · next rest hs => exact ⟨"+", by simp, String.toList_inj.mp (by simp [hs])⟩
  · exact ⟨"", by simp, String.toList_inj.mp (by simp)⟩

/-- Digits have no sign in front of them but the one that is written. -/
theorem behindSign_append {sign : String} (hsign : sign ∈ ["", "+"]) {ds : List Char}
    (hds : ∀ d ∈ ds, d.isDigit = true) : behindSign (sign.toList ++ ds) = ds := by
  simp only [List.mem_cons, List.not_mem_nil, or_false] at hsign
  rcases hsign with rfl | rfl
  · change behindSign ds = ds
    unfold behindSign
    split
    · exact absurd (hds '+' (by simp)) (by decide)
    · rfl
  · rfl

/-- What a text reads as is the number that it is a numeral of. -/
theorem readNat?_eq_some_iff {max n : Nat} {s : String} : readNat? max s = some n ↔ Spells s n ∧ n ≤ max := by
  rw [readNat?_eq]
  constructor
  · intro h
    obtain ⟨sign, hsign, hs⟩ := eq_sign_append s
    generalize behindSign s.toList = ds at h hs
    split at h
    · cases h
    · next hdigits =>
      simp only [Bool.or_eq_true, List.isEmpty_iff, Bool.not_eq_true', not_or, Bool.not_eq_false] at hdigits
      split at h
      · next hle =>
        cases h
        obtain ⟨zeros, hzeros⟩ := digits_eq ds hdigits.1 (List.all_eq_true.mp hdigits.2)
        refine ⟨⟨sign, hsign, zeros, ?_⟩, hle⟩
        rw [hs]
        apply String.toList_inj.mp
        simp only [String.toList_append, String.toList_ofList, Nat.toList_repr, List.append_assoc]
        rw [← hzeros]
      · cases h
  · rintro ⟨⟨sign, hsign, zeros, rfl⟩, hle⟩
    have hdigits : ∀ d ∈ List.replicate zeros '0' ++ Nat.toDigits 10 n, d.isDigit = true := by
      intro d hd
      rcases List.mem_append.mp hd with hd | hd
      · rw [List.eq_of_mem_replicate hd]
        rfl
      · exact Nat.isDigit_of_mem_toDigits (by decide) (by decide) hd
    have hnil : (List.replicate zeros '0' ++ Nat.toDigits 10 n).isEmpty = false := by
      have hpos := Nat.length_toDigits_pos (b := 10) (n := n)
      rw [List.isEmpty_eq_false_iff, ← List.length_pos_iff, List.length_append]
      omega
    have hbehind : behindSign (sign ++ String.ofList (List.replicate zeros '0') ++ n.repr).toList =
        List.replicate zeros '0' ++ Nat.toDigits 10 n := by
      simp only [String.toList_append, String.toList_ofList, Nat.toList_repr, List.append_assoc]
      exact behindSign_append hsign hdigits
    rw [hbehind, hnil, List.all_eq_true.mpr hdigits, ofDigits_zeros, ofDigits_toDigits]
    simp [hle]

end Decimal

end ExplicitControl
