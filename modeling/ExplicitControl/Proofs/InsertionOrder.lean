import ExplicitControl.Proofs.Members
import Mathlib.Data.List.Basic
import Mathlib.Data.List.Induction

/-!
# Objects keep the order in which their keys were set

An object that has been made by setting one property after another has each key that was set, and no other, once, in the
order in which the keys were first set, and under each key the value that it was last set to.
-/

namespace ExplicitControl

namespace Object

/-! ## 1. Keys in the order of their first occurrences -/

theorem eraseDups_concat (keys : List String) (key : String) :
    (keys ++ [key]).eraseDups = if key ∈ keys then keys.eraseDups else keys.eraseDups ++ [key] := by
  rw [List.eraseDups_append]
  by_cases h : key ∈ keys <;> simp [List.removeAll, h, List.eraseDups_cons]

/-- Keys without repetition are in the order of their first occurrences. -/
theorem pairwise_eraseDups (keys : List String) :
    keys.eraseDups.Pairwise fun k k' => keys.idxOf k < keys.idxOf k' := by
  induction keys using List.reverseRecOn with
  | nil => exact .nil
  | append_singleton keys key ih =>
    have hold : keys.eraseDups.Pairwise fun k k' => (keys ++ [key]).idxOf k < (keys ++ [key]).idxOf k' := by
      refine ih.imp_of_mem fun {k k'} hk hk' hlt => ?_
      rwa [List.idxOf_append_of_mem (List.mem_eraseDups.mp hk), List.idxOf_append_of_mem (List.mem_eraseDups.mp hk')]
    rw [eraseDups_concat]
    split
    · exact hold
    next hnew =>
      refine List.pairwise_append.mpr ⟨hold, List.pairwise_singleton _ _, fun k hk k' hk' => ?_⟩
      have hk := List.mem_eraseDups.mp hk
      obtain rfl := List.mem_singleton.mp hk'
      rw [List.idxOf_append_of_mem hk, List.idxOf_append_of_notMem hnew]
      exact Nat.lt_add_right _ (List.idxOf_lt_length_of_mem hk)

/-! ## 2. What has been set -/

/-- The pairs as a map in insertion order: each key where it occurs first, with its last value. -/
def inOrder (pairs : List (String × Value)) : List (String × Value) :=
  (pairs.map Prod.fst).eraseDups.filterMap fun key => (pairs.reverse.lookup key).map fun v => (key, v)

/-- The object is what setting the pairs one after another in a fresh object has to make. -/
structure Records (pairs : List (String × Value)) (o : Object) : Prop where
  nodup : o.keys.Nodup
  last : ∀ before key v after, pairs = before ++ (key, v) :: after → key ∉ after.map Prod.fst → o.get? key = some v
  missing : ∀ key, key ∉ pairs.map Prod.fst → o.get? key = none
  present : ∀ key, key ∈ o.keys ↔ key ∈ pairs.map Prod.fst
  order : o.keys.Pairwise fun k k' => (pairs.map Prod.fst).idxOf k < (pairs.map Prod.fst).idxOf k'
  contents : o.entries = inOrder pairs

theorem ofPairs_concat (pairs : List (String × Value)) (pair : String × Value) :
    ofPairs (pairs ++ [pair]) = (ofPairs pairs).set pair.1 pair.2 := by
  simp only [ofPairs, List.foldl_append, List.foldl_cons, List.foldl_nil]

theorem keys_ofPairs (pairs : List (String × Value)) :
    (ofPairs pairs).keys = (pairs.map Prod.fst).eraseDups := by
  induction pairs using List.reverseRecOn with
  | nil => rfl
  | append_singleton pairs pair ih =>
    rw [ofPairs_concat, (written_set _ _ _).keys, ih, List.map_append, List.map_singleton, eraseDups_concat]
    simp only [List.mem_eraseDups]

theorem get?_ofPairs (pairs : List (String × Value)) (key : String) :
    (ofPairs pairs).get? key = pairs.reverse.lookup key := by
  induction pairs using List.reverseRecOn with
  | nil => rfl
  | append_singleton pairs pair ih =>
    have hset := written_set (ofPairs pairs) pair.1 pair.2
    rw [ofPairs_concat, List.reverse_append, List.reverse_singleton, List.singleton_append]
    by_cases hkey : key = pair.1
    · rw [hkey, hset.property, List.lookup_cons_self]
    · rw [hset.others key hkey, ih, List.lookup_cons, beq_eq_false_iff_ne.mpr hkey]

/-- Entries under distinct keys are what the keys are found with. -/
theorem entries_eq_of_nodup {entries : List (String × Value)} (h : (entries.map Prod.fst).Nodup) :
    entries = (entries.map Prod.fst).filterMap fun key => (get? ⟨entries⟩ key).map fun v => (key, v) := by
  induction entries with
  | nil => rfl
  | cons entry rest ih =>
    obtain ⟨hnew, hrest⟩ := List.nodup_cons.mp h
    have hfirst : get? ⟨entry :: rest⟩ entry.1 = some entry.2 := by simp [get?]
    have hothers : ∀ key ∈ rest.map Prod.fst, get? ⟨entry :: rest⟩ key = get? ⟨rest⟩ key := by
      intro key hkey
      have hne : entry.1 ≠ key := fun heq => hnew (heq ▸ hkey)
      simp [get?, hne]
    rw [List.map_cons, List.filterMap_cons, hfirst, List.filterMap_congr fun key hkey => by rw [hothers key hkey],
      ← ih hrest]
    rfl

theorem lookup_eq_none_of_not_mem {pairs : List (String × Value)} {key : String} (h : key ∉ pairs.map Prod.fst) :
    pairs.lookup key = none := by
  rw [List.lookup_eq_none_iff]
  intro pair hpair
  rw [bne_iff_ne]
  rintro rfl
  exact h (List.mem_map_of_mem hpair)

/-- Setting pairs one after another in a fresh object records them. -/
theorem records_ofPairs (pairs : List (String × Value)) : Records pairs (ofPairs pairs) := by
  have horder := pairwise_eraseDups (pairs.map Prod.fst)
  rw [← keys_ofPairs] at horder
  have hnodup : (ofPairs pairs).keys.Nodup := horder.imp fun {k k'} hlt heq => by
    rw [heq] at hlt
    exact Nat.lt_irrefl _ hlt
  refine ⟨hnodup, ?_, ?_, ?_, horder, ?_⟩
  · intro before key v after hpairs hlast
    have hnone : after.reverse.lookup key = none := lookup_eq_none_of_not_mem (by simpa using hlast)
    rw [get?_ofPairs, hpairs, List.reverse_append, List.reverse_cons, List.append_assoc, List.lookup_append, hnone]
    simp
  · intro key hkey
    rw [get?_ofPairs]
    exact lookup_eq_none_of_not_mem (by simpa using hkey)
  · intro key
    rw [keys_ofPairs, List.mem_eraseDups]
  · have hentries := entries_eq_of_nodup hnodup
    rw [show (ofPairs pairs).entries.map Prod.fst = (pairs.map Prod.fst).eraseDups from keys_ofPairs pairs] at hentries
    rw [hentries]
    exact List.filterMap_congr fun key _ => by rw [get?_ofPairs]

end Object

end ExplicitControl
