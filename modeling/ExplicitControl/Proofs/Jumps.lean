import ExplicitControl.Machine.Instruction

/-!
# Where jumps lead

`return` and `reset` drop work through the nearest call marker; `break` and `continue` search for the end of a
loop and stop at the end of a scope on the way.  Each lemma here says which part of the agenda is dropped and
what is at its end, so that nobody has to follow a search item by item.
-/

namespace ExplicitControl

theorem Item.isMarker_iff {item : Item} {m : Marker} :
    item.isMarker m = true ↔ item = .instr (.marker m) := by
  constructor
  · intro h
    unfold isMarker at h
    split at h
    · rw [eq_of_beq h]
    · cases h
  · rintro rfl
    exact beq_self_eq_true m

theorem Item.isRestore_iff {item : Item} :
    item.isRestore = true ↔ ∃ env closesCall, item = .instr (.restore env closesCall) := by
  constructor
  · intro h
    unfold isRestore at h
    split at h
    · exact ⟨_, _, rfl⟩
    · cases h
  · rintro ⟨env, closesCall, rfl⟩
    rfl

def Item.isPassed (target : Marker) (item : Item) : Bool :=
  !item.isMarker target && !item.isMarker .call && !item.isRestore

theorem Item.isPassed_iff {item : Item} {target : Marker} :
    item.isPassed target = true ↔
      (item.isMarker target = false ∧ item.isMarker .call = false) ∧ item.isRestore = false := by
  simp only [isPassed, Bool.and_eq_true, Bool.not_eq_true']

namespace Agenda

/-! ## 1. Through the nearest call marker -/

theorem unwindCall_append {dropped : Agenda} (rest : Agenda)
    (h : ∀ item ∈ dropped, item.isMarker .call = false) :
    unwindCall (dropped ++ rest) = unwindCall rest := by
  induction dropped with
  | nil => rfl
  | cons item dropped ih =>
    rw [List.forall_mem_cons] at h
    rw [List.cons_append, unwindCall, if_neg (by rw [h.1]; decide), ih h.2]

/-- Either there is a call marker, and what is behind the first one remains, or all work is dropped. -/
theorem unwindCall_cases (a : Agenda) :
    (∃ dropped, (∀ item ∈ dropped, item.isMarker .call = false) ∧
      a = dropped ++ .instr (.marker .call) :: unwindCall a) ∨
    ((∀ item ∈ a, item.isMarker .call = false) ∧ unwindCall a = []) := by
  -- On the items: one that is no call marker joins the dropped part.
  induction a with
  | nil => exact .inr ⟨fun _ h => absurd h List.not_mem_nil, rfl⟩
  | cons item rest ih =>
    cases hitem : item.isMarker .call with
    | true =>
      rw [Item.isMarker_iff] at hitem
      subst hitem
      exact .inl ⟨[], fun _ h => absurd h List.not_mem_nil, rfl⟩
    | false =>
      have hrest : unwindCall (item :: rest) = unwindCall rest := by
        rw [unwindCall, if_neg (by rw [hitem]; decide)]
      rw [hrest]
      obtain ⟨dropped, hdropped, heq⟩ | ⟨hnone, hnil⟩ := ih
      · refine .inl ⟨item :: dropped, List.forall_mem_cons.mpr ⟨hitem, hdropped⟩, ?_⟩
        exact congrArg (item :: ·) heq
      · exact .inr ⟨List.forall_mem_cons.mpr ⟨hitem, hnone⟩, hnil⟩

theorem unwindCall_suffix (a : Agenda) : unwindCall a <:+ a := by
  obtain ⟨dropped, -, heq⟩ | ⟨-, hnil⟩ := unwindCall_cases a
  · exact ⟨dropped ++ [.instr (.marker .call)], by rw [List.append_assoc]; exact heq.symm⟩
  · rw [hnil]
    exact List.nil_suffix

theorem unwindCall_append_right {a : Agenda} (hmarker : .instr (.marker .call) ∈ a) (b : Agenda) :
    unwindCall (a ++ b) = unwindCall a ++ b := by
  induction a with
  | nil => exact absurd hmarker List.not_mem_nil
  | cons item rest ih =>
    cases hitem : item.isMarker .call with
    | true => rw [List.cons_append, unwindCall, if_pos hitem, unwindCall, if_pos hitem]
    | false =>
      have hrest : .instr (.marker .call) ∈ rest := by
        obtain rfl | hrest := List.mem_cons.mp hmarker
        · cases hitem
        · exact hrest
      have hnot : ¬item.isMarker .call = true := by rw [hitem]; decide
      rw [List.cons_append, unwindCall, if_neg hnot, unwindCall, if_neg hnot, ih hrest]

/-! ## 2. To the end of a loop -/

variable {target : Marker}

theorem searchLoop_append {dropped : Agenda} (rest : Agenda)
    (h : ∀ item ∈ dropped, item.isPassed target = true) :
    searchLoop target (dropped ++ rest) = searchLoop target rest := by
  induction dropped with
  | nil => rfl
  | cons item dropped ih =>
    rw [List.forall_mem_cons] at h
    obtain ⟨⟨htarget, hcall⟩, hrestore⟩ := Item.isPassed_iff.mp h.1
    rw [List.cons_append, searchLoop, if_neg (by simp [htarget]), if_neg (by simp [hcall]),
      if_neg (by simp [hrestore]), ih h.2]

theorem searchLoop_target (rest : Agenda) :
    searchLoop target (.instr (.marker target) :: rest) = .reached rest := by
  rw [searchLoop, if_pos (Item.isMarker_iff.mpr rfl)]

theorem searchLoop_restore (env : Env) (closesCall : Bool) (rest : Agenda) :
    searchLoop target (.instr (.restore env closesCall) :: rest) =
      .scope (.instr (.restore env closesCall)) rest := rfl

theorem searchLoop_call (htarget : target ≠ .call) (rest : Agenda) :
    searchLoop target (.instr (.marker .call) :: rest) = .outside := by
  cases target with
  | call => exact absurd rfl htarget
  | _ => rfl

/-- A search passes items by until it comes to the marker, to the end of a scope, or to a call marker, if it
comes to any of them. -/
theorem exists_searchLoop (target : Marker) (a : Agenda) :
    ∃ dropped, (∀ item ∈ dropped, item.isPassed target = true) ∧
      ((∃ rest, a = dropped ++ .instr (.marker target) :: rest ∧
          searchLoop target a = .reached rest) ∨
        (∃ env closesCall rest, a = dropped ++ .instr (.restore env closesCall) :: rest ∧
          searchLoop target a = .scope (.instr (.restore env closesCall)) rest) ∨
        (∃ rest, a = dropped ++ .instr (.marker .call) :: rest ∧ searchLoop target a = .outside) ∨
        a = dropped ∧ searchLoop target a = .outside) := by
  induction a with
  | nil => exact ⟨[], fun _ h => absurd h List.not_mem_nil, .inr (.inr (.inr ⟨rfl, rfl⟩))⟩
  | cons item rest ih =>
    have none : ∀ i ∈ ([] : Agenda), i.isPassed target = true := fun _ h => absurd h List.not_mem_nil
    -- In the order of the search, which asks for its own marker first.
    by_cases htarget : item.isMarker target = true
    · rw [Item.isMarker_iff] at htarget
      subst htarget
      exact ⟨[], none, .inl ⟨rest, rfl, searchLoop_target rest⟩⟩
    by_cases hcall : item.isMarker .call = true
    · have : searchLoop target (item :: rest) = .outside := by
        rw [searchLoop, if_neg htarget, if_pos hcall]
      rw [Item.isMarker_iff] at hcall
      subst hcall
      exact ⟨[], none, .inr (.inr (.inl ⟨rest, rfl, this⟩))⟩
    by_cases hrestore : item.isRestore = true
    · obtain ⟨env, closesCall, rfl⟩ := Item.isRestore_iff.mp hrestore
      exact ⟨[], none, .inr (.inl ⟨env, closesCall, rest, rfl, rfl⟩)⟩
    have hpassed : item.isPassed target = true := by
      simp [Item.isPassed, htarget, hcall, hrestore]
    have hone : ∀ i ∈ [item], i.isPassed target = true := List.forall_mem_singleton.mpr hpassed
    have hsearch : searchLoop target (item :: rest) = searchLoop target rest :=
      searchLoop_append rest hone
    obtain ⟨dropped, hdropped, h⟩ := ih
    refine ⟨item :: dropped, List.forall_mem_cons.mpr ⟨hpassed, hdropped⟩, ?_⟩
    rw [hsearch]
    obtain ⟨after, rfl, h⟩ | ⟨env, closesCall, after, rfl, h⟩ | ⟨after, rfl, h⟩ | ⟨rfl, h⟩ := h
    · exact .inl ⟨after, rfl, h⟩
    · exact .inr (.inl ⟨env, closesCall, after, rfl, h⟩)
    · exact .inr (.inr (.inl ⟨after, rfl, h⟩))
    · exact .inr (.inr (.inr ⟨rfl, h⟩))

/-- A search does not leave a function whose end is ahead. -/
theorem searchLoop_append_right (target : Marker) {a : Agenda} (hmarker : .instr (.marker .call) ∈ a)
    (b : Agenda) :
    (∃ dropped rest, (∀ item ∈ dropped, item.isPassed target = true) ∧
        a = dropped ++ .instr (.marker target) :: rest ∧
        searchLoop target (a ++ b) = .reached (rest ++ b)) ∨
      (∃ dropped env closesCall rest, (∀ item ∈ dropped, item.isPassed target = true) ∧
        a = dropped ++ .instr (.restore env closesCall) :: rest ∧
        searchLoop target (a ++ b) = .scope (.instr (.restore env closesCall)) (rest ++ b)) ∨
      searchLoop target (a ++ b) = .outside := by
  have passed : ∀ {dropped : Agenda}, (∀ item ∈ dropped, item.isPassed target = true) → ∀ item rest,
      searchLoop target ((dropped ++ item :: rest) ++ b) = searchLoop target (item :: (rest ++ b)) := by
    intro dropped hdropped item rest
    rw [List.append_assoc, List.cons_append, searchLoop_append _ hdropped]
  obtain ⟨dropped, hdropped, ⟨rest, rfl, -⟩ | ⟨env, closesCall, rest, rfl, -⟩ | ⟨rest, rfl, hs⟩ | ⟨rfl, -⟩⟩ :=
    exists_searchLoop target a
  · exact .inl ⟨dropped, rest, hdropped, rfl, by rw [passed hdropped, searchLoop_target]⟩
  · exact .inr (.inl ⟨dropped, env, closesCall, rest, hdropped, rfl,
      by rw [passed hdropped, searchLoop_restore]⟩)
  · have htarget : target ≠ .call := by
      rintro rfl
      rw [searchLoop_append _ hdropped, searchLoop_target] at hs
      cases hs
    exact .inr (.inr (by rw [passed hdropped, searchLoop_call htarget]))
  · -- A call marker is not passed by.
    have := (Item.isPassed_iff.mp (hdropped _ hmarker)).1.2
    cases this

theorem eq_of_searchLoop_reached {a rest : Agenda} (h : searchLoop target a = .reached rest) :
    ∃ dropped, (∀ item ∈ dropped, item.isPassed target = true) ∧
      a = dropped ++ .instr (.marker target) :: rest := by
  -- The other ends of a search have another result.
  obtain ⟨dropped, hdropped, ⟨after, ha, hs⟩ | ⟨_, _, _, _, hs⟩ | ⟨_, _, hs⟩ | ⟨_, hs⟩⟩ :=
    exists_searchLoop target a <;> rw [h] at hs <;> cases hs
  exact ⟨dropped, hdropped, ha⟩

theorem eq_of_searchLoop_scope {a rest : Agenda} {item : Item}
    (h : searchLoop target a = .scope item rest) :
    ∃ dropped env closesCall, (∀ item ∈ dropped, item.isPassed target = true) ∧
      item = .instr (.restore env closesCall) ∧ a = dropped ++ item :: rest := by
  obtain ⟨dropped, hdropped, ⟨_, _, hs⟩ | ⟨env, closesCall, after, ha, hs⟩ | ⟨_, _, hs⟩ | ⟨_, hs⟩⟩ :=
    exists_searchLoop target a <;> rw [h] at hs <;> cases hs
  exact ⟨dropped, env, closesCall, hdropped, rfl, ha⟩

theorem suffix_of_searchLoop_reached {a rest : Agenda} (h : searchLoop target a = .reached rest) :
    rest <:+ a := by
  obtain ⟨dropped, -, rfl⟩ := eq_of_searchLoop_reached h
  exact ⟨dropped ++ [.instr (.marker target)], by simp⟩

theorem suffix_of_searchLoop_scope {a rest : Agenda} {item : Item}
    (h : searchLoop target a = .scope item rest) : item :: rest <:+ a := by
  obtain ⟨dropped, _, _, -, -, rfl⟩ := eq_of_searchLoop_scope h
  exact List.suffix_append dropped _

/-! ## 3. The work of statements -/

/-- What holds of the statements and of the two instructions around them holds of all their work. -/
theorem forall_mem_ofStatements {P : Item → Prop} {ids : List NodeId} (hnode : ∀ id ∈ ids, P (.node id))
    (hpop : P (.instr .pop)) (hpush : P (.instr (.push .undefined))) :
    ∀ item ∈ ofStatements ids, P item := by
  fun_induction ofStatements ids with
  | case1 => exact List.forall_mem_singleton.mpr hpush
  | case2 id => exact List.forall_mem_singleton.mpr (hnode id List.mem_cons_self)
  | case3 id rest hne ih =>
    rw [List.forall_mem_cons] at hnode
    exact List.forall_mem_cons.mpr ⟨hnode.1, List.forall_mem_cons.mpr ⟨hpop, ih hnode.2⟩⟩

end Agenda

end ExplicitControl
