import ExplicitControl.Proofs.Drawings
import Mathlib.Data.Finset.Card
import Mathlib.Data.Finset.Range

/-!
# Texts without limits

A value can be drawn without any limit: a container is drawn in full wherever it is met, unless that is inside itself.
This ends because the containers around a place are different cells of the heap.  As long as the limits on depth and on
the number of values are kept, the text of a value is that of this drawing.  The drawing depends on the containers
around a value and on nothing that was written before.
-/

namespace ExplicitControl

namespace Heap

variable {h : Heap} {path : List CellId} {v : Value} {l : Layout} {c : CellId}

/-! ## 1. Drawing without limits -/

def unvisited (h : Heap) (path : List CellId) : Nat :=
  ((Finset.range h.cells.size).filter fun i => (⟨i⟩ : CellId) ∉ path).card

/-- A container that is entered is one cell less to enter. -/
theorem unvisited_lt {ms : List (String × Value)} (hv : v.reference? = some (l, c)) (hc : c ∉ path)
    (hms : v.members? h.cell? = some ms) : h.unvisited (c :: path) < h.unvisited path := by
  obtain ⟨cell, hcell⟩ := Value.exists_of_members? hv hms
  have hsize : c.index < h.cells.size := (Array.getElem?_eq_some_iff.mp hcell).1
  refine Finset.card_lt_card ((Finset.ssubset_iff_of_subset ?_).mpr ⟨c.index, ?_, ?_⟩)
  · intro i hi
    rw [Finset.mem_filter] at hi ⊢
    exact ⟨hi.1, fun hmem => hi.2 (List.mem_cons_of_mem c hmem)⟩
  · exact Finset.mem_filter.mpr ⟨Finset.mem_range.mpr hsize, hc⟩
  · exact fun hmem => (Finset.mem_filter.mp hmem).2 List.mem_cons_self

mutual

def plain (h : Heap) (path : List CellId) (v : Value) : Drawing :=
  match hv : v.reference? with
  | none => .scalar v.scalarText
  | some (l, c) =>
    if hc : c ∈ path then .circular c
    else
      match hms : v.members? h.cell? with
      | none => .blocked c
      | some ms =>
        have := unvisited_lt hv hc hms
        .container l c (h.plainMembers (c :: path) ms)
termination_by (h.unvisited path, 0)

def plainMembers (h : Heap) (path : List CellId) : List (String × Value) → Drawings
  | [] => .done
  | (label, v) :: ms => .member label (h.plain path v) (h.plainMembers path ms)
termination_by ms => (h.unvisited path, ms.length + 1)

end

theorem plain_scalar (hv : v.reference? = none) : h.plain path v = .scalar v.scalarText := by
  rw [plain]
  split
  next => rfl
  next hsome => rw [hv] at hsome; cases hsome

theorem plain_circular (hv : v.reference? = some (l, c)) (hc : c ∈ path) : h.plain path v = .circular c := by
  rw [plain]
  split
  next hnone => rw [hv] at hnone; cases hnone
  next hsome => cases hv.symm.trans hsome; rw [dif_pos hc]

theorem plain_blocked (hv : v.reference? = some (l, c)) (hc : c ∉ path) (hms : v.members? h.cell? = none) :
    h.plain path v = .blocked c := by
  rw [plain]
  split
  next hnone => rw [hv] at hnone; cases hnone
  next hsome =>
    cases hv.symm.trans hsome
    rw [dif_neg hc]
    split
    next => rfl
    next hms' => rw [hms] at hms'; cases hms'

theorem plain_container {ms : List (String × Value)} (hv : v.reference? = some (l, c)) (hc : c ∉ path)
    (hms : v.members? h.cell? = some ms) : h.plain path v = .container l c (h.plainMembers (c :: path) ms) := by
  rw [plain]
  split
  next hnone => rw [hv] at hnone; cases hnone
  next hsome =>
    cases hv.symm.trans hsome
    rw [dif_neg hc]
    split
    next hms' => rw [hms] at hms'; cases hms'
    next hms' => cases hms.symm.trans hms'; rfl

@[simp] theorem plainMembers_nil : h.plainMembers path [] = .done := by
  rw [plainMembers]

@[simp] theorem plainMembers_cons (label : String) (ms : List (String × Value)) :
    h.plainMembers path ((label, v) :: ms) = .member label (h.plain path v) (h.plainMembers path ms) := by
  rw [plainMembers]

end Heap

/-! ## 2. Within the limits -/

mutual

/-- How many levels of containers are met, those that are not entered included. -/
def Drawing.levels : Drawing → Nat
  | .scalar _ | .spent => 0
  | .container _ _ ds => ds.levels + 1
  | _ => 1

def Drawings.levels : Drawings → Nat
  | .done | .rest => 0
  | .member _ d more => max d.levels more.levels

end

/-- Whether a drawing without limits is within limits: on the levels below, and on the values that are written. -/
structure Drawing.Within (depth n : Nat) (d : Drawing) : Prop where
  levels : d.levels ≤ depth
  values : d.values ≤ n

structure Drawings.Within (depth n : Nat) (ds : Drawings) : Prop where
  levels : ds.levels ≤ depth
  values : ds.values ≤ n

namespace Heap

variable {h : Heap} {path : List CellId}

theorem values_plain_pos (h : Heap) (path : List CellId) (v : Value) : 0 < (h.plain path v).values := by
  rw [plain]
  split
  · exact Nat.one_pos
  · split
    · exact Nat.one_pos
    · split
      · exact Nat.one_pos
      · exact Nat.succ_pos _

/-- Members are drawn without a limit, if each of them is as long as it is within the limits. -/
theorem drawMembers_eq_plain {draw : Value → Nat → Drawing × Nat} {depth : Nat}
    (hdraw : ∀ v n, (h.plain path v).Within depth n → draw v n = (h.plain path v, n - (h.plain path v).values))
    (ms : List (String × Value)) (n : Nat) (hwithin : (h.plainMembers path ms).Within depth n) :
    drawMembers draw ms n = (h.plainMembers path ms, n - (h.plainMembers path ms).values) := by
  induction ms generalizing n with
  | nil => simp [drawMembers, Drawings.values]
  | cons m ms ih =>
    obtain ⟨label, v⟩ := m
    obtain ⟨hlevels, hvalues⟩ := hwithin
    simp only [plainMembers_cons, Drawings.levels, Drawings.values, Nat.max_le] at hlevels hvalues
    -- A member takes at least one value, so there is one left to begin with.
    have hn : n ≠ 0 := by
      have := h.values_plain_pos path v
      omega
    have hfirst := hdraw v n ⟨hlevels.1, Nat.le_of_add_right_le hvalues⟩
    have hmore := ih (n - (h.plain path v).values) ⟨hlevels.2, Nat.le_sub_of_add_le' hvalues⟩
    simp only [drawMembers, if_neg hn, hfirst, hmore, plainMembers_cons, Drawings.values, Nat.sub_sub]

/-- Within the limits a value is drawn without them. -/
theorem draw_eq_plain (h : Heap) (depth : Nat) (v : Value) (opened : List CellId) (n : Nat)
    (hwithin : (h.plain opened v).Within depth n) :
    draw h.cell? depth v opened n = (h.plain opened v, n - (h.plain opened v).values) := by
  revert hwithin
  refine draw_induct h.cell? (motive := fun depth v opened n r => (h.plain opened v).Within depth n →
    r = (h.plain opened v, n - (h.plain opened v).values))
    ?spent ?scalar ?elided ?circular ?blocked ?container depth v opened n
  case spent =>
    intro depth v opened hwithin
    exact absurd hwithin.values (Nat.not_le_of_lt (h.values_plain_pos opened v))
  case scalar =>
    intro depth v opened n hv _
    rw [plain_scalar hv]
    rfl
  case elided =>
    -- Whatever is drawn of a reference takes a level.
    intro v opened n l c hv hwithin
    refine absurd hwithin.levels (Nat.not_le_of_lt ?_)
    by_cases hc : c ∈ opened
    · rw [plain_circular hv hc]
      exact Nat.one_pos
    cases hms : v.members? h.cell? with
    | none => rw [plain_blocked hv hc hms]; exact Nat.one_pos
    | some ms => rw [plain_container hv hc hms]; exact Nat.succ_pos _
  case circular =>
    intro depth v opened n l c hv hc _
    rw [plain_circular hv hc]
    rfl
  case blocked =>
    intro depth v opened n l c hv hc hms _
    rw [plain_blocked hv hc hms]
    rfl
  case container =>
    rintro depth v opened n l c ms hv hc hms ih r rfl hwithin
    rw [plain_container hv hc hms] at hwithin ⊢
    have hmembers := drawMembers_eq_plain ih ms n
      ⟨Nat.le_of_succ_le_succ hwithin.levels, Nat.le_of_succ_le_succ hwithin.values⟩
    rw [hmembers]
    simp only [Drawing.values, Nat.add_sub_add_right]

/-- **Texts are plain.**  As long as no container is met too deep and no more values are written than may be, the text
of a value is what is drawn without limits, where a container is drawn in full at each reference to it and left out
inside itself only.  So it is in the middle of a text: what a value adds to it depends on the containers around it,
and neither on what was written before nor on the containers that were. -/
theorem stringify_is_plain (h : Heap) :
    (∀ v, (h.plain [] v).Within Printer.maxDepth Printer.maxValues → h.stringify v = (h.plain [] v).text) ∧
      ∀ depth v p, (h.plain p.opened v).Within depth p.remaining →
        Printer.write h.cell? depth v p =
          p.after (h.plain p.opened v, p.remaining - (h.plain p.opened v).values) := by
  constructor
  · intro v hwithin
    rw [stringify_eq, drawing, h.draw_eq_plain _ v [] _ hwithin]
  · intro depth v p hwithin
    rw [Printer.write_eq, h.draw_eq_plain depth v p.opened p.remaining hwithin]

def knot : Heap :=
  ⟨#[.array #[.object ⟨1⟩, .object ⟨1⟩, .array ⟨0⟩], .object ⟨[("a", .null)]⟩]⟩

/-- What is drawn of the object in it, inside the array. -/
theorem plain_knot_object : knot.plain [⟨0⟩] (.object ⟨1⟩) =
    .container .curly ⟨1⟩ (.member (" " ++ Text.quote "a" ++ ": ") (.scalar "null") .done) := by
  rw [plain_container rfl (by decide) rfl, List.map_cons, plainMembers_cons, plain_scalar rfl]
  exact congrArg _ (congrArg _ plainMembers_nil)

theorem plain_knot : knot.plain [] (.array ⟨0⟩) =
    .container .square ⟨0⟩
      (.member "" (knot.plain [⟨0⟩] (.object ⟨1⟩))
        (.member "" (knot.plain [⟨0⟩] (.object ⟨1⟩)) (.member "" (.circular ⟨0⟩) .done))) := by
  have hitself : knot.plain [⟨0⟩] (.array ⟨0⟩) = .circular ⟨0⟩ := plain_circular rfl (by decide)
  rw [plain_container rfl (by decide) rfl]
  simp [hitself]

theorem stringify_knot :
    (knot.plain [] (.array ⟨0⟩)).Within Printer.maxDepth Printer.maxValues ∧
      knot.stringify (.array ⟨0⟩) = "[\x7b \"a\": null \x7d, \x7b \"a\": null \x7d, <circular>]" ∧
      (knot.plain [⟨0⟩] (.object ⟨1⟩)).Within 1 3 ∧
      Printer.write knot.cell? 1 (.object ⟨1⟩) ⟨"[", [⟨0⟩], 3, false⟩ =
        ⟨"[\x7b \"a\": null \x7d", [⟨0⟩], 1, false⟩ := by
  have hwithin : (knot.plain [] (.array ⟨0⟩)).Within Printer.maxDepth Printer.maxValues := by
    rw [plain_knot, plain_knot_object]
    exact ⟨by decide, by decide⟩
  have hinside : (knot.plain [⟨0⟩] (.object ⟨1⟩)).Within 1 3 := by
    rw [plain_knot_object]
    exact ⟨by decide, by decide⟩
  refine ⟨hwithin, ?_, hinside, ?_⟩
  · rw [knot.stringify_is_plain.1 _ hwithin, plain_knot, plain_knot_object]
    decide +kernel
  · rw [knot.stringify_is_plain.2 1 _ ⟨"[", [⟨0⟩], 3, false⟩ hinside, plain_knot_object]
    rfl

end Heap

end ExplicitControl
