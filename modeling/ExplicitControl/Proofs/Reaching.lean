import ExplicitControl.Proofs.Drawings
import ExplicitControl.Proofs.Values

/-!
# What a text looks into

A value reaches the container that it refers to and all that the members of this container reach.  Its text looks into
containers that it reaches and into no others, so it stays what it is while none of these changes.  The text can do
without a container exactly if it does not look into it, as long as no reference leads out of the heap.
-/

namespace ExplicitControl

/-! ## 1. Reaching a container -/

/-- From the value one gets to the container, through members of containers. -/
inductive Heap.Reaches (h : Heap) : Value → CellId → Prop where
  | itself {v : Value} {l : Layout} {c : CellId} : v.reference? = some (l, c) → h.Reaches v c
  | member {v : Value} {ms : List (String × Value)} {m : String × Value} {c : CellId} :
      v.members? h.cell? = some ms → m ∈ ms → h.Reaches m.2 c → h.Reaches v c

section

variable {draw : Value → Nat → Drawing × Nat}

/-- What is looked into by one of the members. -/
theorem exists_of_mem_cells_drawMembers {ms : List (String × Value)} {n : Nat} {c : CellId}
    (hc : c ∈ (drawMembers draw ms n).1.cells) : ∃ m ∈ ms, ∃ k, c ∈ (draw m.2 k).1.cells := by
  induction ms generalizing n with
  | nil => cases hc
  | cons m ms ih =>
    rw [drawMembers] at hc
    split at hc
    · cases hc
    · rcases List.mem_append.mp hc with hc | hc
      · exact ⟨m, List.mem_cons_self, n, hc⟩
      · obtain ⟨m', hm', k, hc⟩ := ih hc
        exact ⟨m', List.mem_cons_of_mem m hm', k, hc⟩

/-- What a text looks into is reached. -/
theorem reaches_of_mem_cells (h : Heap) (depth : Nat) (v : Value) (opened : List CellId) (n : Nat) {c : CellId}
    (hc : c ∈ (ExplicitControl.draw h.cell? depth v opened n).1.cells) : h.Reaches v c := by
  revert hc
  refine draw_induct h.cell? (motive := fun _ v _ _ r => c ∈ r.1.cells → h.Reaches v c)
    ?spent ?scalar ?elided ?circular ?blocked ?container depth v opened n
  case spent => exact fun _ _ _ hc => nomatch hc
  case scalar => exact fun _ _ _ _ _ hc => nomatch hc
  case elided => exact fun _ _ _ _ _ _ hc => nomatch hc
  case circular => exact fun _ _ _ _ _ _ _ _ hc => nomatch hc
  case blocked =>
    intro depth v opened n l c' hv _ _ hc
    cases List.mem_singleton.mp hc
    exact .itself hv
  case container =>
    rintro depth v opened n l c' ms hv _ hms ih r rfl hc
    rcases List.mem_cons.mp hc with rfl | hc
    · exact .itself hv
    · obtain ⟨m, hm, k, hc⟩ := exists_of_mem_cells_drawMembers hc
      exact .member hms hm (ih m.2 k hc)

/-! ## 2. Heaps that agree on what is looked into -/

theorem Value.members?_congr {read read' : CellId → Option Cell} {v : Value} {l : Layout} {c : CellId}
    (hv : v.reference? = some (l, c)) (hc : read' c = read c) : v.members? read' = v.members? read := by
  cases v with
  | array c' => cases hv; simp only [members?, hc]
  | object c' => cases hv; simp only [members?, hc]
  | _ => cases hv

theorem drawMembers_congr {draw' : Value → Nat → Drawing × Nat} {P : CellId → Prop}
    (hdraw : ∀ v n, (∀ c ∈ (draw v n).1.cells, P c) → draw' v n = draw v n) (ms : List (String × Value)) (n : Nat)
    (hcells : ∀ c ∈ (drawMembers draw ms n).1.cells, P c) : drawMembers draw' ms n = drawMembers draw ms n := by
  induction ms generalizing n with
  | nil => rfl
  | cons m ms ih =>
    by_cases hn : n = 0
    · simp only [drawMembers, if_pos hn]
    · simp only [drawMembers, if_neg hn] at hcells ⊢
      rw [hdraw m.2 n fun c hc => hcells c (List.mem_append_left _ hc),
        ih _ fun c hc => hcells c (List.mem_append_right _ hc)]

/-- A drawing depends on nothing but what it looks into. -/
theorem draw_congr {read read' : CellId → Option Cell} (depth : Nat) (v : Value) (opened : List CellId) (n : Nat)
    (hread : ∀ c ∈ (ExplicitControl.draw read depth v opened n).1.cells, read' c = read c) :
    ExplicitControl.draw read' depth v opened n = ExplicitControl.draw read depth v opened n := by
  revert hread
  refine draw_induct read (motive := fun depth v opened n r => (∀ c ∈ r.1.cells, read' c = read c) →
    ExplicitControl.draw read' depth v opened n = r)
    ?spent ?scalar ?elided ?circular ?blocked ?container depth v opened n
  case spent => exact fun _ _ _ _ => draw_spent
  case scalar => exact fun _ _ _ _ hv _ => draw_scalar hv
  case elided => exact fun _ _ _ _ _ hv _ => draw_elided hv
  case circular => exact fun _ _ _ _ _ _ hv hc _ => draw_circular hv hc
  case blocked =>
    intro depth v opened n l c hv hc hms hread
    refine draw_blocked hv hc ?_
    rw [Value.members?_congr hv (hread c List.mem_cons_self), hms]
  case container =>
    rintro depth v opened n l c ms hv hc hms ih r rfl hread
    have hms' : v.members? read' = some ms := by
      rw [Value.members?_congr hv (hread c List.mem_cons_self), hms]
    rw [draw_container hv hc hms',
      drawMembers_congr ih ms n fun c' hc' => hread c' (List.mem_cons_of_mem c hc')]

/-! ## 3. Reading what is there -/

theorem of_mem_cells_drawMembers {P : CellId → Prop}
    (hdraw : ∀ v n, (draw v n).1.isBlocked = false → ∀ c ∈ (draw v n).1.cells, P c) (ms : List (String × Value))
    (n : Nat) (hblocked : (drawMembers draw ms n).1.isBlocked = false) :
    ∀ c ∈ (drawMembers draw ms n).1.cells, P c := by
  induction ms generalizing n with
  | nil =>
    intro c hc
    cases hc
  | cons m ms ih =>
    rw [drawMembers] at hblocked ⊢
    split
    next =>
      intro c hc
      cases hc
    next hn =>
      rw [if_neg hn] at hblocked
      obtain ⟨hfirst, hmore⟩ := Bool.or_eq_false_iff.mp hblocked
      intro c hc
      rcases List.mem_append.mp hc with hc | hc
      · exact hdraw m.2 n hfirst c hc
      · exact ih _ hmore c hc

/-- A drawing in which nothing is blocked has found everything that it looked into. -/
theorem exists_of_mem_cells {read : CellId → Option Cell} (depth : Nat) (v : Value) (opened : List CellId) (n : Nat)
    (hblocked : (ExplicitControl.draw read depth v opened n).1.isBlocked = false) :
    ∀ c ∈ (ExplicitControl.draw read depth v opened n).1.cells, ∃ cell, read c = some cell := by
  revert hblocked
  refine draw_induct read (motive := fun _ _ _ _ r => r.1.isBlocked = false →
    ∀ c ∈ r.1.cells, ∃ cell, read c = some cell)
    ?spent ?scalar ?elided ?circular ?blocked ?container depth v opened n
  case spent => exact fun _ _ _ _ _ hc => nomatch hc
  case scalar => exact fun _ _ _ _ _ _ _ hc => nomatch hc
  case elided => exact fun _ _ _ _ _ _ _ _ hc => nomatch hc
  case circular => exact fun _ _ _ _ _ _ _ _ _ _ hc => nomatch hc
  case blocked => exact fun _ _ _ _ _ _ _ _ _ hblocked => nomatch hblocked
  case container =>
    rintro depth v opened n l c ms hv _ hms ih r rfl hblocked c' hc'
    rcases List.mem_cons.mp hc' with rfl | hc'
    · exact Value.exists_of_members? hv hms
    · exact of_mem_cells_drawMembers ih ms n hblocked c' hc'

/-- Nothing is blocked among members of which each can be read. -/
theorem not_isBlocked_drawMembers {ms : List (String × Value)} (n : Nat)
    (hdraw : ∀ m ∈ ms, ∀ k, (draw m.2 k).1.isBlocked = false) : (drawMembers draw ms n).1.isBlocked = false := by
  induction ms generalizing n with
  | nil => rfl
  | cons m ms ih =>
    rw [List.forall_mem_cons] at hdraw
    rw [drawMembers]
    split
    · rfl
    · exact Bool.or_eq_false_iff.mpr ⟨hdraw.1 n, ih _ hdraw.2⟩

end

def Value.IsIn (h : Heap) : Value → Prop
  | array c => ∃ vs, h.cell? c = some (.array vs)
  | object c => ∃ o, h.cell? c = some (.object o)
  | _ => True

namespace Heap

variable {h : Heap}

def Closed (h : Heap) : Prop :=
  h.All (Value.IsIn h)

theorem exists_members? {v : Value} (hv : v.IsIn h) {l : Layout} {c : CellId} (hc : v.reference? = some (l, c)) :
    ∃ ms, v.members? h.cell? = some ms := by
  cases v with
  | array c' => obtain ⟨vs, hcell⟩ := hv; exact ⟨_, Value.members?_array.mpr ⟨vs, hcell, rfl⟩⟩
  | object c' => obtain ⟨o, hcell⟩ := hv; exact ⟨_, Value.members?_object.mpr ⟨o, hcell, rfl⟩⟩
  | _ => cases hc

theorem Closed.isIn_of_mem_members? (hh : h.Closed) {v : Value} {ms : List (String × Value)}
    (hms : v.members? h.cell? = some ms) {m : String × Value} (hm : m ∈ ms) : m.2.IsIn h := by
  cases v with
  | array c =>
    obtain ⟨vs, hcell, rfl⟩ := Value.members?_array.mp hms
    obtain ⟨w, hw, rfl⟩ := List.mem_map.mp hm
    exact hh.cell hcell w (Array.mem_toList_iff.mp hw)
  | object c =>
    obtain ⟨o, hcell, rfl⟩ := Value.members?_object.mp hms
    obtain ⟨entry, hentry, rfl⟩ := List.mem_map.mp hm
    exact hh.cell hcell entry hentry
  | _ => cases hms

/-- Everything can be read where no reference leads out of the heap. -/
theorem Closed.not_isBlocked (hh : h.Closed) (depth : Nat) {v : Value} (hv : v.IsIn h) (opened : List CellId)
    (n : Nat) : (draw h.cell? depth v opened n).1.isBlocked = false := by
  revert hv
  refine draw_induct h.cell? (motive := fun _ v _ _ r => v.IsIn h → r.1.isBlocked = false)
    ?spent ?scalar ?elided ?circular ?blocked ?container depth v opened n
  case spent => exact fun _ _ _ _ => rfl
  case scalar => exact fun _ _ _ _ _ _ => rfl
  case elided => exact fun _ _ _ _ _ _ _ => rfl
  case circular => exact fun _ _ _ _ _ _ _ _ _ => rfl
  case blocked =>
    intro depth v opened n l c hc _ hms hv
    obtain ⟨ms, hms'⟩ := exists_members? hv hc
    rw [hms] at hms'
    cases hms'
  case container =>
    rintro depth v opened n l c ms _ _ hms ih r rfl _
    exact not_isBlocked_drawMembers n fun m hm k => ih m.2 k (hh.isIn_of_mem_members? hms hm)

/-! ## 4. Texts that do without a container -/

theorem display_eq_stringify {v : Value} (hv : ∀ s, v ≠ .string s) : h.display v = h.stringify v := by
  unfold display
  split
  next s => exact absurd rfl (hv s)
  next => rfl

/-- The text of a value does not change as long as nothing does that the value reaches. -/
theorem display_congr {h' : Heap} {v : Value} (hcell : ∀ c, h.Reaches v c → h'.cell? c = h.cell? c) :
    h'.display v = h.display v := by
  have hdraw : h'.drawing v = h.drawing v :=
    congrArg Prod.fst (draw_congr _ v [] _ fun c hc => hcell c (reaches_of_mem_cells h _ v [] _ hc))
  by_cases hv : ∃ s, v = .string s
  · obtain ⟨s, rfl⟩ := hv
    rfl
  · rw [not_exists] at hv
    rw [display_eq_stringify hv, display_eq_stringify hv, stringify_eq, stringify_eq, hdraw]

/-- What may be read while a container is held. -/
def cellWithout? (h : Heap) (held c : CellId) : Option Cell :=
  if c = held then none else h.cell? c

def drawingWithout (h : Heap) (held : CellId) (v : Value) : Drawing :=
  (draw (h.cellWithout? held) Printer.maxDepth v [] Printer.maxValues).1

theorem displayWithout_eq_drawing {v : Value} (hv : ∀ s, v ≠ .string s) (held : CellId) :
    h.displayWithout held v =
      if (h.drawingWithout held v).isBlocked then none else some (h.drawingWithout held v).text := by
  unfold displayWithout
  split
  next s => exact absurd rfl (hv s)
  next =>
    simp only [Printer.write_eq, Printer.after, Printer.initial, Bool.false_or, String.empty_append]
    rfl

theorem drawingWithout_eq {v : Value} {held : CellId} (hheld : held ∉ (h.drawing v).cells) :
    h.drawingWithout held v = h.drawing v := by
  refine congrArg Prod.fst (draw_congr _ v [] _ fun c hc => ?_)
  have hne : c ≠ held := by
    rintro rfl
    exact hheld hc
  rw [cellWithout?, if_neg hne]

/-- Without a container that it looks into, a text is blocked. -/
theorem isBlocked_drawingWithout {v : Value} {held : CellId} (hheld : held ∈ (h.drawing v).cells) :
    (h.drawingWithout held v).isBlocked = true := by
  cases hblocked : (h.drawingWithout held v).isBlocked with
  | true => rfl
  | false =>
    -- Everything has been found that was looked into, so with the container nothing else is drawn.
    have hfound : ∀ c ∈ (h.drawingWithout held v).cells, c ≠ held ∧ h.cell? c = h.cellWithout? held c := by
      intro c hc
      obtain ⟨cell, hcell⟩ := exists_of_mem_cells _ v [] _ hblocked c hc
      unfold cellWithout? at hcell ⊢
      by_cases heq : c = held
      · rw [if_pos heq] at hcell
        cases hcell
      · exact ⟨heq, (if_neg heq).symm⟩
    have hsame : h.drawing v = h.drawingWithout held v :=
      congrArg Prod.fst (draw_congr _ v [] _ fun c hc => (hfound c hc).2)
    exact absurd rfl (hfound held (hsame ▸ hheld)).1

/-- A text can do without a container exactly if it does not look into it. -/
theorem Closed.displayWithout_eq (hh : h.Closed) {v : Value} (hv : v.IsIn h) (held : CellId) :
    h.displayWithout held v = if held ∈ (h.drawing v).cells then none else some (h.display v) := by
  by_cases hstring : ∃ s, v = .string s
  · obtain ⟨s, rfl⟩ := hstring
    rfl
  · rw [not_exists] at hstring
    rw [displayWithout_eq_drawing hstring]
    by_cases hheld : held ∈ (h.drawing v).cells
    · rw [if_pos hheld, if_pos (isBlocked_drawingWithout hheld)]
    · have hunblocked : (h.drawing v).isBlocked = false := hh.not_isBlocked _ hv [] _
      rw [if_neg hheld, drawingWithout_eq hheld, hunblocked, display_eq_stringify hstring, stringify_eq]
      rfl

end Heap

end ExplicitControl
