import ExplicitControl.Proofs.Parts
import ExplicitControl.Proofs.PendingWork

/-!
# Ends of scopes are not doubled

Where an environment is brought back anyway, no other end of a scope is put in front of it, and behind the end
of a function comes the end of its call.  Entering scopes and functions, leaving them and jumping out of them
all keep it so, and a call made in front of the end of a call needs no end of its own.
-/

namespace ExplicitControl

namespace Agenda

/-- No two items that bring an environment back follow each other, and every call marker is directly followed
by an item that brings an environment back and ends a call. -/
def Tidy : Agenda → Prop
  | [] => True
  | item :: rest =>
    (item.isRestore = true → endsScope rest = false) ∧ (item.isMarker .call = true → endsCall rest = true) ∧
      Tidy rest

variable {a b : Agenda} {item : Item} {env : Env} {closesCall : Bool}

theorem endsCall_iff : a.endsCall = true ↔ ∃ env rest, a = .instr (.restore env true) :: rest := by
  constructor
  · intro h
    cases a with
    | nil => cases h
    | cons item rest =>
      cases item with
      | node id => cases h
      | instr i =>
        cases i with
        | restore env closesCall =>
          obtain rfl : closesCall = true := h
          exact ⟨env, rest, rfl⟩
        | _ => cases h
  · rintro ⟨env, rest, rfl⟩
    rfl

theorem endsScope_of_endsCall (h : a.endsCall = true) : a.endsScope = true := by
  obtain ⟨env, rest, rfl⟩ := endsCall_iff.mp h
  rfl

theorem Tidy.suffix (ha : a.Tidy) (hb : b <:+ a) : b.Tidy := by
  obtain ⟨dropped, rfl⟩ := hb
  induction dropped with
  | nil => exact ha
  | cons item dropped ih => exact ih ha.2.2

/-- An item that neither brings an environment back nor ends a function may be put in front of any. -/
theorem Tidy.cons (ha : a.Tidy) (hitem : item.isQuiet = true) : Tidy (item :: a) :=
  ⟨fun h => (by rw [Item.not_isRestore_of_isQuiet hitem] at h; cases h),
    fun h => (by rw [Item.not_isMarker_of_isQuiet hitem] at h; cases h), ha⟩

theorem Tidy.append {items : List Item} (ha : a.Tidy) (hitems : ∀ item ∈ items, item.isQuiet = true) :
    Tidy (items ++ a) := by
  induction items with
  | nil => exact ha
  | cons item items ih =>
    rw [List.forall_mem_cons] at hitems
    exact Tidy.cons (ih hitems.2) hitems.1

theorem Tidy.restore (ha : a.Tidy) (hends : a.endsScope = false) :
    Tidy (.instr (.restore env closesCall) :: a) :=
  ⟨fun _ => hends, fun h => (by cases h), ha⟩

theorem Tidy.opening (ha : a.Tidy) (env : Env) : (a.opening env).Tidy := by
  unfold Agenda.opening
  split
  · exact ha
  next h => exact ha.restore (Bool.eq_false_iff.mpr h)

/-- The end of a call is where it was, or is put in front of what brings no environment back. -/
theorem Tidy.closing (ha : a.Tidy) (env : Env) : (a.closing env).Tidy := by
  obtain ⟨hhead, -, hclosing⟩ | ⟨env', closesCall, rest, rfl, -, hclosing⟩ := Machine.closing_cases env a
  · rw [hclosing]
    exact ha.restore hhead
  · rw [hclosing]
    exact ha.2.2.restore (ha.1 rfl)

theorem endsCall_closing (env : Env) (a : Agenda) : (a.closing env).endsCall = true := by
  obtain ⟨-, -, hclosing⟩ | ⟨env', closesCall, rest, -, -, hclosing⟩ := Machine.closing_cases env a
  · rw [hclosing]
    rfl
  · rw [hclosing]
    rfl

/-- In front of the end of a call, another call needs no end of its own. -/
theorem closing_of_endsCall (h : a.endsCall = true) (env : Env) : a.closing env = a := by
  obtain ⟨env', rest, rfl⟩ := endsCall_iff.mp h
  rfl

theorem Tidy.body (ha : a.Tidy) (hends : a.endsCall = true) (code : FunctionBody) :
    Tidy (Machine.bodyItems code ++ a) := by
  cases code with
  | expression expr => exact ha.cons rfl
  | block statements =>
    have hmarker : Tidy (.instr (.marker .call) :: a) := ⟨fun h => (by cases h), fun _ => hends, ha⟩
    rw [Machine.bodyItems, List.append_assoc]
    exact hmarker.append (isQuiet_ofStatements statements)

/-- Behind the end of a function comes the end of its call. -/
theorem Tidy.endsCall_unwindCall (ha : a.Tidy) (hmarker : .instr (.marker .call) ∈ a) :
    (unwindCall a).endsCall = true := by
  obtain ⟨dropped, -, heq⟩ | ⟨hnone, -⟩ := unwindCall_cases a
  · have hbehind : Tidy (.instr (.marker .call) :: unwindCall a) :=
      ha.suffix ⟨dropped, heq.symm⟩
    exact hbehind.2.1 rfl
  · exact absurd (hnone _ hmarker) (by decide)

theorem mem_marker_of_inTailPosition (h : a.inTailPosition = true) : .instr (.marker .call) ∈ a := by
  induction a with
  | nil => cases h
  | cons item rest ih =>
    unfold inTailPosition at h
    split at h
    next heq =>
      cases heq
      exact List.mem_cons_of_mem _ (ih h)
    next heq =>
      cases heq
      rw [Item.isMarker_iff.mp h]
      exact List.mem_cons_self
    next heq => cases heq

end Agenda

structure State.Tidy (s : State) : Prop where
  agenda : s.agenda.Tidy
  snapshots : ∀ k ∈ s.snapshots, k.agenda.Tidy

namespace Machine

open Agenda

variable {p : Setting} {s s' : State}

/-- What an item leaves of tidy work is tidy. -/
theorem Reschedules.tidy {env : Env} {a b : Agenda} {item : Item} (h : Reschedules p env a item b) (ha : a.Tidy) :
    b.Tidy := by
  cases h with
  | plain hkind hopened hgoes => exact (ha.append (isQuiet_padding _)).append (isQuiet_kindItems _ _)
  | scope hkind hopened =>
    exact ((ha.append (isQuiet_padding _)).opening env).append (isQuiet_kindItems _ _)
  | returned hkind =>
    split
    · exact (ha.suffix (unwindCall_suffix _)).cons (isQuiet_returnItem _)
    · exact (ha.cons rfl).cons (isQuiet_returnItem _)
  | offered hplain hoffered => exact ha.append (isQuiet_offers hoffered)
  | same => exact ha
  | reset => exact ha.suffix (unwindCall_suffix _)
  | reached htarget hsearch => exact ha.suffix (suffix_of_searchLoop_reached hsearch)
  | @stopped i target ending rest htarget hsearch =>
    -- The jump comes between the end of the scope and what is behind it.
    obtain ⟨dropped, env', closesCall, -, rfl, -⟩ := eq_of_searchLoop_scope hsearch
    have hrest : Tidy rest := (ha.suffix (suffix_of_searchLoop_scope hsearch)).2.2
    have hquiet : (Item.instr i).isQuiet = true := by cases i <;> first | rfl | cases htarget
    exact (hrest.cons hquiet).restore (endsScope_cons (Item.not_isRestore_of_isQuiet hquiet) rest)
  | entered hkind => exact (ha.closing env).body (endsCall_closing env a) _

/-- Every step keeps the pending work tidy. -/
theorem Move.tidy {item : Item} (h : Move p s s' item) (hs : s.Tidy) : s'.Tidy := by
  obtain ⟨hagenda, hsnapshots⟩ := h.keepsWork hs.agenda hs.snapshots fun b hb => hb.tidy hs.agenda
  exact ⟨hagenda, hsnapshots⟩

end Machine

end ExplicitControl
