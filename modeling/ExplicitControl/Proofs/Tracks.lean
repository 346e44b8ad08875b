import ExplicitControl.Proofs.Turns

/-!
# Agendas with and without shortcuts

The plain machine keeps items that the machine does without.  They all stand before the end of a scope or of a
call: ends of other scopes and calls, and what is left of functions whose work is done.  Carried out, they
change nothing but the current environment, which the item behind them sets anyway.  `Tracks` says which items
those are, and the lemmas say that dropping work leads both agendas to the same place.
-/

namespace ExplicitControl.Agenda

/-- Items that do nothing but end scopes and calls, or drop the rest of a function up to its end. -/
inductive Idle : Agenda → Prop where
  | nil : Idle []
  | restore (env : Env) (closesCall : Bool) {rest : Agenda} (h : Idle rest) :
      Idle (.instr (.restore env closesCall) :: rest)
  | reset {dropped rest : Agenda} (hdropped : ∀ item ∈ dropped, item.isMarker .call = false)
      (h : Idle rest) : Idle (.instr .reset :: (dropped ++ .instr (.marker .call) :: rest))

def IsScopeEnd (item : Item) : Prop :=
  ∃ env, item = .instr (.restore env false)

/-- The second agenda is the first with idle items before ends of scopes and calls. -/
inductive Tracks : Agenda → Agenda → Prop where
  | nil : Tracks [] []
  | quiet {item : Item} {a b : Agenda} (hitem : item.isQuiet = true) (h : Tracks a b) :
      Tracks (item :: a) (item :: b)
  -- The first machine has left the further ends away, since this one brings its own environment back.
  | scope (env : Env) {ends a b : Agenda} (hends : ∀ item ∈ ends, IsScopeEnd item) (h : Tracks a b) :
      Tracks (.instr (.restore env false) :: a) (ends ++ .instr (.restore env false) :: b)
  -- Tail calls and `return` leave ends of calls away, and what is left of functions.
  | call (env : Env) (closesCall : Bool) {idle a b : Agenda} (hidle : Idle idle) (h : Tracks a b) :
      Tracks (.instr (.restore env true) :: a) (idle ++ .instr (.restore env closesCall) :: b)
  -- A call marker stands before the end of its call on both agendas.
  | marker {env : Env} {a b : Agenda} (h : Tracks (.instr (.restore env true) :: a) b) :
      Tracks (.instr (.marker .call) :: .instr (.restore env true) :: a) (.instr (.marker .call) :: b)

/-! ## 1. The same work in front -/

theorem Tracks.append {items a b : Agenda} (hitems : ∀ item ∈ items, item.isQuiet = true)
    (h : Tracks a b) : Tracks (items ++ a) (items ++ b) := by
  induction items with
  | nil => exact h
  | cons item items ih =>
    rw [List.forall_mem_cons] at hitems
    exact .quiet hitems.1 (ih hitems.2)

theorem idle_of_scopeEnds {ends : Agenda} (h : ∀ item ∈ ends, IsScopeEnd item) : Idle ends := by
  induction ends with
  | nil => exact .nil
  | cons item ends ih =>
    rw [List.forall_mem_cons] at h
    obtain ⟨⟨env, rfl⟩, h⟩ := h
    exact .restore env false (ih h)

/-- A further scope ends on the second agenda only, where another ends anyway. -/
theorem Tracks.openedBefore {a b : Agenda} (h : Tracks a b) (hhead : a.head?.any Item.isRestore = true)
    (env : Env) : Tracks a (.instr (.restore env false) :: b) := by
  -- The end that comes first on the first agenda serves the new scope as well.
  cases h with
  | nil => cases hhead
  | quiet hitem h =>
    rw [List.head?_cons, Option.any_some, Item.not_isRestore_of_isQuiet hitem] at hhead
    cases hhead
  | scope env' hends h =>
    rename_i ends a b
    have hmore : ∀ item ∈ Item.instr (.restore env false) :: ends, IsScopeEnd item :=
      List.forall_mem_cons.mpr ⟨⟨env, rfl⟩, hends⟩
    exact .scope env' hmore h
  | call env' closesCall hidle h => exact .call env' closesCall (.restore env false hidle) h
  | marker h => cases hhead

theorem Tracks.opened {a b : Agenda} (h : Tracks a b) (env : Env) :
    Tracks (.instr (.restore env false) :: a) (.instr (.restore env false) :: b) := by
  have hnone : ∀ item ∈ ([] : Agenda), IsScopeEnd item := List.forall_mem_nil _
  exact .scope env hnone h

/-! ## 2. Leaving a function -/

/-- In tail position the second agenda comes to the end of the same function. -/
theorem Tracks.inTailPosition {a b : Agenda} (h : Tracks a b) (htail : inTailPosition a = true) :
    ∃ dropped env rest b', (∀ item ∈ dropped, item.isMarker .call = false) ∧
      b = dropped ++ .instr (.marker .call) :: b' ∧
      unwindCall a = .instr (.restore env true) :: rest ∧
      Tracks (.instr (.restore env true) :: rest) b' := by
  -- On the pairs of items. Only ends of scopes may stand before the marker.
  induction h with
  | nil => cases htail
  | quiet hitem h ih =>
    rename_i item a b
    have hcall := Item.not_isMarker_of_isQuiet hitem
    have hrestore := Item.not_isRestore_of_isQuiet hitem
    rw [Agenda.inTailPosition.eq_2 _ _ (by rintro env rfl; cases hrestore), hcall] at htail
    cases htail
  | scope env hends h ih =>
    rename_i ends a b
    obtain ⟨dropped, env', rest, b', hdropped, rfl, hunwind, htracks⟩ := ih htail
    refine ⟨ends ++ .instr (.restore env false) :: dropped, env', rest, b', ?_, ?_, hunwind, htracks⟩
    · refine List.forall_mem_append.mpr ⟨fun item hitem => ?_, List.forall_mem_cons.mpr ⟨rfl, hdropped⟩⟩
      obtain ⟨_, rfl⟩ := hends item hitem
      rfl
    · simp
  | call env closesCall hidle h ih => cases htail
  | marker h ih =>
    rename_i env a b
    exact ⟨[], env, a, b, List.forall_mem_nil _, rfl, rfl, h⟩

/-- When the way is clear, dropping the rest of the function leads to the same place. -/
theorem Tracks.unwindCall {a b : Agenda} (h : Tracks a b) (hclear : isClear a = true) :
    Tracks (unwindCall a) (unwindCall b) := by
  -- An end of a call before the marker would not be clear, so its case does not arise.
  induction h with
  | nil => exact .nil
  | quiet hitem h ih =>
    have hcall := Item.not_isMarker_of_isQuiet hitem
    rw [isClear, hcall, Bool.false_or, Bool.and_eq_true] at hclear
    rw [Agenda.unwindCall, Agenda.unwindCall, if_neg (by rw [hcall]; decide),
      if_neg (by rw [hcall]; decide)]
    exact ih hclear.2
  | scope env hends h ih =>
    rw [unwindCall_append _ fun item hitem => ?_]
    · exact ih hclear
    · obtain ⟨_, rfl⟩ := hends item hitem
      rfl
  | call env closesCall hidle h ih => cases hclear
  | marker h ih => exact h

/-! ## 3. Leaving a loop -/

/-- Where a search on the second agenda leads, given where one on the first does. -/
def SameSearch (b : Agenda) (target : Marker) : LoopSearch → Prop
  | .reached rest => ∃ rest', searchLoop target b = .reached rest' ∧ Tracks rest rest'
  | .outside => searchLoop target b = .outside
  | .scope item rest =>
    ∃ dropped ends rest', (∀ i ∈ dropped, i.isPassed target = true) ∧ (∀ i ∈ ends, IsScopeEnd i) ∧
      IsScopeEnd item ∧ b = dropped ++ (ends ++ item :: rest') ∧ Tracks rest rest'

/-- When the way is clear, a search for the end of a loop leads to the same place, perhaps by way of further
ends of scopes. -/
theorem Tracks.searchLoop {target : Marker} (htarget : target ≠ .call) {a b : Agenda} (h : Tracks a b)
    (hclear : isClear a = true) : SameSearch b target (searchLoop target a) := by
  induction h with
  | nil => rfl
  | quiet hitem h ih =>
    rename_i item a b
    have hcall := Item.not_isMarker_of_isQuiet hitem
    have hrestore := Item.not_isRestore_of_isQuiet hitem
    rw [isClear, hcall, Bool.false_or, Bool.and_eq_true] at hclear
    by_cases hmarker : item.isMarker target = true
    · rw [Item.isMarker_iff] at hmarker
      subst hmarker
      rw [searchLoop_target]
      exact ⟨b, searchLoop_target b, h⟩
    have hpassed : item.isPassed target = true := by simp [Item.isPassed, hmarker, hcall, hrestore]
    have hone : ∀ i ∈ [item], i.isPassed target = true := List.forall_mem_singleton.mpr hpassed
    have ha : Agenda.searchLoop target (item :: a) = Agenda.searchLoop target a :=
      searchLoop_append a hone
    have hb : Agenda.searchLoop target (item :: b) = Agenda.searchLoop target b :=
      searchLoop_append b hone
    rw [ha]
    have ih := ih hclear.2
    cases hsearch : Agenda.searchLoop target a with
    | reached rest =>
      rw [hsearch] at ih
      obtain ⟨rest', hrest', htracks⟩ := ih
      exact ⟨rest', hb.trans hrest', htracks⟩
    | outside =>
      rw [hsearch] at ih
      exact hb.trans ih
    | scope i rest =>
      rw [hsearch] at ih
      obtain ⟨dropped, ends, rest', hdropped, hends, hi, rfl, htracks⟩ := ih
      exact ⟨item :: dropped, ends, rest', List.forall_mem_cons.mpr ⟨hpassed, hdropped⟩, hends, hi, rfl,
        htracks⟩
  -- The search stops here on both agendas, if not at the same end of a scope.
  | scope env hends h ih =>
    rename_i ends a b
    exact ⟨[], ends, b, List.forall_mem_nil _, hends, ⟨env, rfl⟩, rfl, h⟩
  | call env closesCall hidle h ih => cases hclear
  | marker h ih =>
    rw [searchLoop_call htarget]
    exact searchLoop_call htarget _

end ExplicitControl.Agenda
