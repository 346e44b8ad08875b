import ExplicitControl.Proofs.FramesSince
import ExplicitControl.Proofs.Unwinding

/-!
# A frame for each trip

A `for` loop that declares a variable has a frame for its head, and copies it for the first trip, and then once more at
the end of each.  Whatever the body, the test and the update do, the environment is that of the current trip
whenever the loop itself goes on: then the variable is in the current frame, so copying it carries its value over
into a new frame, and nothing but a call of a function that has been made in an earlier trip can write to the
frames of earlier trips.
-/

namespace ExplicitControl

/-! ## 1. The items of a loop -/

structure ForLoop where
  id : NodeId
  init : NodeId
  test : Option NodeId
  update : Option NodeId
  body : NodeId
  /-- The variable of the loop. -/
  name : Name
  /-- The environment that the loop is entered from. -/
  outer : Env
  /-- The work behind the loop. -/
  behind : Agenda

namespace ForLoop

variable (L : ForLoop)

def outside : Agenda :=
  .opening L.outer L.behind

/-- What is pending when the test has been false. -/
def ending : Agenda :=
  .instr (.marker .loopEnd) :: L.outside

/-- What is pending when the test has been evaluated. -/
def testing : Agenda :=
  .instr (.forTest L.test L.update L.body [L.name] L.id) :: L.ending

/-- What is pending when the head has been declared: the first trip gets its frame. -/
def first : Agenda :=
  .instr (.freshTrip [L.name]) :: .instr (.push .undefined) :: Machine.loopTest L.test :: L.testing

def heading : Agenda :=
  .instr .pop :: L.first

def updating : List Item :=
  (L.update.map fun id => [Item.node id, .instr .pop]).getD [] ++ [Machine.loopTest L.test]

/-- What is pending when a trip is over: the next one gets its frame, in which the update and the test come first. -/
def next : Agenda :=
  .instr (.freshTrip [L.name]) :: (L.updating ++ L.testing)

def tripEnd : Agenda :=
  .instr (.marker .tripEnd) :: L.next

/-- The environment and the work behind the loop.  An environment that is brought back anyway is brought back at
once. -/
def back : Env × Agenda :=
  match L.behind with
  | .instr (.restore env _) :: rest => (env, rest)
  | _ => (L.outer, L.behind)

structure Begins (t : Tree) (s : State) : Prop where
  agenda : s.agenda = .node L.id :: L.behind
  env : s.env = L.outer
  kind : t.kind? L.id = some (.forLoop (some L.init) L.test L.update L.body)
  head : ∃ kind value, t.kind? L.init = some (.declaration kind L.name value)

/-- The variable of the loop is copied next: neither a scope nor a call is pending in front of the loop. -/
def Copying (s : State) : Prop :=
  ∃ a, s.agenda = .instr (.freshTrip [L.name]) :: (a ++ L.testing) ∧ ∀ item ∈ a, item.isRestore = false

end ForLoop

/-! ## 2. Running through a loop -/

structure Iteration where
  /-- The number of trips that have begun. -/
  trips : Nat
  /-- The frame of the head, and those made for trips, the latest first. -/
  frames : List Env
  state : State

namespace ForLoop

open Machine

variable (p : Setting) (L : ForLoop)

/-- One step within the loop.  It makes a frame for a trip, or a trip begins, or it is one of other work, that of the
test, the body and the update, which invokes no continuation.  Within the loop, its test stays pending. -/
inductive Proceeds (i : Iteration) : Iteration → Prop where
  | copies {s' : State} (hnext : L.Copying i.state) (hrun : advance p i.state = .running s') :
    Proceeds i ⟨i.trips, s'.env :: i.frames, s'⟩
  | trip {s' : State} (hnext : i.state.agenda = L.testing) (hrun : advance p i.state = .running s')
    (hinside : L.testing <:+ s'.agenda) : Proceeds i ⟨i.trips + 1, i.frames, s'⟩
  | works {s' : State} (hcopies : ¬L.Copying i.state) (htest : i.state.agenda ≠ L.testing)
    (hnone : ∀ k v, ¬i.state.Invokes k v) (hrun : advance p i.state = .running s')
    (hinside : L.testing <:+ s'.agenda) : Proceeds i ⟨i.trips, i.frames, s'⟩

def Reaches (s : State) (i : Iteration) : Prop :=
  ∃ s₁, advance p s = .running s₁ ∧ Relation.ReflTransGen (L.Proceeds p) ⟨0, [s₁.env], s₁⟩ i

/-- How the loop has come to where it is: the trips that have begun, the frames there are, whether the head has been
declared, and the work that is pending in front of the loop and of what is left of it. -/
inductive Stage : Nat → Nat → Bool → Agenda → Agenda → Prop where
  | entered : Stage 0 1 false [] (.node L.init :: L.heading)
  | declaring {a : Agenda} : Stage 0 1 false a (.instr (.declare L.name L.init) :: L.heading)
  | declared : Stage 0 1 true [] L.heading
  | first : Stage 0 1 true [] L.first
  | testing {trips : Nat} {a : Agenda} : Stage trips (trips + 2) true a L.testing
  | body {trips : Nat} {a : Agenda} : Stage (trips + 1) (trips + 2) true a L.tripEnd
  | next {trips : Nat} : Stage (trips + 1) (trips + 2) true [] L.next

/-- What holds where the loop has come to, with `latest` the latest of its frames. -/
structure Stands (i : Iteration) (latest : Env) (older : List Env) (declared : Bool) (a b : Agenda) : Prop where
  frames : i.frames = latest :: older
  stage : L.Stage i.trips i.frames.length declared a b
  agenda : i.state.agenda = a ++ b
  env : Agenda.envAfter (some i.state.env) a = some latest
  since : State.Since latest.frame { i.state with agenda := a }
  owned : ∀ f ∈ i.frames, (i.state.scopes.own? f.frame L.name).isSome = true
  holds : declared = true → i.state.scopes.Holds latest.frame L.name
  ordered : i.frames.Pairwise fun f g => g.frame < f.frame
  siblings : ∀ f ∈ i.frames, i.state.scopes.tail? f = some L.outer
  tidy : i.state.Tidy

end ForLoop

/-! ## 3. Work that stays in the loop -/

/-- The item neither jumps nor copies anything, nor does it end or bring back anything. -/
def Item.isOrdinary : Item → Bool
  | .node _ | .instr (.declare ..) => true
  | .instr i => i.isSimple

namespace Item

variable {item : Item}

theorem isPassed_of_isOrdinary (h : item.isOrdinary = true) (target : Marker) : item.isPassed target = true := by
  cases item with
  | node id => rfl
  | instr i => cases i <;> first | rfl | cases h

theorem not_isRestore_of_isOrdinary (h : item.isOrdinary = true) : item.isRestore = false :=
  (isPassed_iff.mp (isPassed_of_isOrdinary h .call)).2

theorem vars_of_isOrdinary (h : item.isOrdinary = true) : item.vars = [] := by
  cases item with
  | node id => rfl
  | instr i => cases i <;> first | rfl | cases h

theorem steady_of_isOrdinary (h : item.isOrdinary = true) : item.Steady := by
  cases item with
  | node id => exact fun _ => rfl
  | instr i => cases i <;> first | exact fun _ => rfl | cases h

end Item

namespace Agenda

variable {a : Agenda} {env latest : Env}

/-- Behind a copy the environment is not known until one is brought back. -/
theorem envAfter_none_of_plain (h : ∀ item ∈ a, item.isRestore = false) : envAfter none a = none := by
  induction a with
  | nil => rfl
  | cons item a ih =>
    rw [List.forall_mem_cons] at h
    have hitem : item.envAfter none = none := by
      unfold Item.envAfter
      split
      · cases h.1
      all_goals first | rfl | exact ite_self none
    rw [envAfter, List.foldl_cons, hitem]
    exact ih h.2

theorem eq_of_envAfter_plain (h : ∀ item ∈ a, item.isRestore = false) (henv : envAfter (some env) a = some latest) :
    env = latest := by
  rw [← List.append_nil a] at henv
  exact Option.some.inj (envAfter_of_dropped h henv)

end Agenda

namespace Machine

open Agenda

variable {p : Setting} {s s' : State} {item : Item} {a b mid : Agenda}

theorem endsScope_of_passed {target : Marker} (hmid : ∀ item ∈ mid, item.isPassed target = true)
    (hb : b.endsScope = false) : Agenda.endsScope (mid ++ b) = false := by
  cases mid with
  | nil => exact hb
  | cons item mid => exact endsScope_cons (Item.isPassed_iff.mp (hmid item List.mem_cons_self)).2 _

/-- A search that leaves `b` where it is comes to a marker in front of `mid`, or to the end of a trip in `mid`. -/
theorem reached_passed {target : Marker} {rest : Agenda} (hmid : ∀ item ∈ mid, item.isPassed .loopEnd = true)
    (hnil : b ≠ []) (h : searchLoop target (a ++ (mid ++ b)) = .reached rest) (hkept : b <:+ rest) :
    mid ++ b <:+ rest ∨ target = .tripEnd ∧ (∀ item ∈ a, item.isRestore = false) ∧
      ∃ rest', searchLoop .tripEnd mid = .reached rest' ∧ rest = rest' ++ b := by
  rw [← List.append_assoc] at h
  obtain ⟨rest', hsearch, rfl⟩ := reached_above hnil h hkept
  obtain ⟨dropped, hdropped, heq⟩ := eq_of_searchLoop_reached hsearch
  obtain ⟨l, hl⟩ | ⟨l, hl⟩ := split_at heq.symm
  · rw [hl, List.append_assoc] at heq
    obtain rfl : l ++ mid = rest' := (List.cons.inj (List.append_cancel_left heq)).2
    rw [List.append_assoc]
    exact .inl (List.suffix_append _ _)
  · -- The marker is behind `a`, so it is that of a trip.
    obtain rfl : dropped = a ++ l := by
      rw [← hl, ← List.append_assoc] at heq
      exact (List.append_cancel_right heq).symm
    obtain rfl : target = .tripEnd := by
      have hpassed := hmid _ (hl ▸ List.mem_append_right l List.mem_cons_self)
      have hother := (Item.isPassed_iff.mp hpassed).1
      cases target with
      | tripEnd => rfl
      | loopEnd => cases hother.1
      | call => cases hother.2
    refine .inr ⟨rfl, fun it hit => ?_, rest', ?_, rfl⟩
    · exact (Item.isPassed_iff.mp (hdropped it (List.mem_append_left l hit))).2
    · rw [← hl, searchLoop_append _ fun it hit => hdropped it (List.mem_append_right a hit), searchLoop_target]

/-- A search that leaves `b` where it is stops at the end of a scope in front of `mid`. -/
theorem stopped_passed {target : Marker} {rest : Agenda} (hmid : ∀ item ∈ mid, item.isPassed .loopEnd = true)
    (hb : b.endsScope = false) (h : searchLoop target (a ++ (mid ++ b)) = .scope item rest) {i : Instr}
    (hkept : b <:+ item :: .instr i :: rest) : mid ++ b <:+ rest := by
  rw [← List.append_assoc] at h
  obtain ⟨rest', hsearch, rfl⟩ := searchLoop_above hb h hkept
  obtain ⟨dropped, env, closesCall, -, rfl, heq⟩ := eq_of_searchLoop_scope hsearch
  obtain ⟨l, hl⟩ | ⟨l, hl⟩ := split_at heq.symm
  · rw [hl, List.append_assoc] at heq
    obtain rfl : l ++ mid = rest' := (List.cons.inj (List.append_cancel_left heq)).2
    rw [List.append_assoc]
    exact List.suffix_append _ _
  · have hpassed := hmid _ (hl ▸ List.mem_append_right l List.mem_cons_self)
    cases (Item.isPassed_iff.mp hpassed).2

/-- What leaves `b` where it is leaves what is in front of `b` as well, if a search for the end of a loop passes
this by; but a search for the end of a trip may come to a marker there. -/
theorem Reschedules.keeps_passed {env : Env} {c : Agenda} (h : Reschedules p env (a ++ (mid ++ b)) item c)
    (hb : b.endsScope = false) (hnil : b ≠ []) (hmid : ∀ item ∈ mid, item.isPassed .loopEnd = true) (hkept : b <:+ c) :
    mid ++ b <:+ c ∨ ∃ i rest, item = .instr i ∧ i.target? = some .tripEnd ∧
      searchLoop .tripEnd mid = .reached rest ∧ c = rest ++ b ∧ ∀ item ∈ a, item.isRestore = false := by
  have stays : mid ++ b <:+ a ++ (mid ++ b) := List.suffix_append a _
  have hassoc : a ++ (mid ++ b) = (a ++ mid) ++ b := (List.append_assoc a mid b).symm
  -- No function ends between `a` and `b`.
  have marked : .instr (.marker .call) ∈ a ++ mid → .instr (.marker .call) ∈ a := by
    intro hmarker
    obtain hmarker | hmarker := List.mem_append.mp hmarker
    · exact hmarker
    · cases (Item.isPassed_iff.mp (hmid _ hmarker)).1.2
  cases h with
  | plain hkind hopened hgoes =>
    exact .inl ((stays.trans (List.suffix_append _ _)).trans (List.suffix_append _ _))
  | scope hkind hopened =>
    exact .inl ((suffix_opening (stays.trans (List.suffix_append _ _)) env).trans (List.suffix_append _ _))
  | @returned id argument hkind =>
    cases htail : inTailPosition (a ++ (mid ++ b)) with
    | true =>
      rw [htail, if_pos rfl, hassoc] at hkept
      rw [hassoc] at htail
      have hmarker := marked (mem_marker_of_suffix_cons hnil
        (Item.not_isMarker_of_isQuiet (isQuiet_returnItem argument)) htail hkept)
      rw [if_pos rfl, unwindCall_append_right hmarker]
      exact .inl ((List.suffix_append _ _).trans (List.suffix_cons _ _))
    | false =>
      rw [if_neg Bool.false_ne_true]
      exact .inl ((stays.trans (List.suffix_cons _ _)).trans (List.suffix_cons _ _))
  | offered hplain hoffered => exact .inl (stays.trans (List.suffix_append _ _))
  | same => exact .inl stays
  | reset =>
    rw [hassoc] at hkept
    rw [unwindCall_append_right (marked (mem_marker_of_suffix hnil hkept))]
    exact .inl (List.suffix_append _ _)
  | @reached i target rest htarget hsearch =>
    obtain hkept | ⟨rfl, hplain, rest', hsearch', rfl⟩ := reached_passed hmid hnil hsearch hkept
    · exact .inl hkept
    · exact .inr ⟨i, rest', rfl, htarget, hsearch', rfl, hplain⟩
  | @stopped i target ending rest htarget hsearch =>
    have hkept := stopped_passed hmid hb hsearch hkept
    exact .inl ((hkept.trans (List.suffix_cons _ _)).trans (List.suffix_cons _ _))
  | entered hkind =>
    exact .inl ((suffix_closing (.inl (endsScope_of_passed hmid hb)) a env).trans (List.suffix_append _ _))

/-- A jump leaves the environment and the frames as they are. -/
theorem Move.still_of_jump {i : Instr} {target : Marker} (htarget : i.target? = some target)
    (h : Move p s s' (.instr i)) : s.Still s' := by
  cases h with
  | instr hplain hoffered hagenda hstill => exact hstill
  | reset hagenda hstash hstill => exact hstill
  | reached htarget hsearch hagenda hstash hstill => exact hstill
  | stopped htarget hsearch hagenda hstash hstill => exact hstill
  | _ => cases htarget

/-- A declaration in the current frame gives its variable a value. -/
theorem Move.declared {name : Name} {node : NodeId} (h : Move p s s' (.instr (.declare name node)))
    (howned : (s.scopes.own? s.env.frame name).isSome = true) :
    s'.agenda = s.agenda ∧ s'.env = s.env ∧ s'.scopes.Holds s.env.frame name ∧
      ∀ base, s.scopes.ScopesInside base → s'.scopes.ScopesInside base := by
  cases h with
  | @declare _ _ frame v _ howner hagenda henv hcalls hsnapshots hscopes =>
    obtain ⟨slot, hslot⟩ := Option.isSome_iff_exists.mp howned
    obtain rfl : frame = s.env.frame := Option.some.inj (howner.symm.trans (Scopes.owner?_of_own? hslot))
    refine ⟨hagenda, henv, ⟨{ slot with value := some v }, ?_, rfl⟩, fun base h => hscopes ▸ h.modifySlot _ _ _⟩
    rw [hscopes, Scopes.own?_modifySlot, if_pos ⟨rfl, rfl⟩, hslot]
    rfl
  | instr hplain hoffered hagenda hstill => cases hplain
  | reached htarget hsearch hagenda hstash hstill => cases htarget
  | stopped htarget hsearch hagenda hstash hstill => cases htarget

theorem Move.copied {vars : List Name} (hvars : vars ≠ []) (h : Move p s s' (.instr (.freshTrip vars))) :
    s'.agenda = s.agenda ∧ s.Makes (((s.scopes.frame? s.env).getD default).copy vars) s' := by
  cases h with
  | freshTrip hvars hagenda hcalls hsnapshots hmade => exact ⟨hagenda, hmade⟩
  | instr hplain hoffered hagenda hstill => exact absurd (List.isEmpty_iff.mp hplain) hvars
  | reached htarget hsearch hagenda hstash hstill => cases htarget
  | stopped htarget hsearch hagenda hstash hstill => cases htarget

end Machine

theorem Machine.change_of_advance {p : Setting} {s s' : State} (hrun : advance p s = .running s') :
    Change p s s' ∧ (s.Tidy → s'.Tidy) := by
  cases hagenda : s.agenda with
  | nil => rw [advance_nil p hagenda] at hrun; cases hrun
  | cons item rest =>
    have hmove := move_of_advance hagenda hrun
    refine ⟨hmove.change hagenda, fun htidy => hmove.tidy ⟨?_, htidy.snapshots⟩⟩
    exact (hagenda ▸ htidy.agenda : Agenda.Tidy (item :: rest)).2.2

/-! ## 4. One step -/

namespace ForLoop

open Machine Agenda

variable {p : Setting} {L : ForLoop} {s' : State} {item : Item} {a b : Agenda} {trips frames : Nat} {declared : Bool}
  {i : Iteration} {latest : Env} {older : List Env}

theorem endsScope_testing (L : ForLoop) : L.testing.endsScope = false := rfl

theorem testing_ne_nil (L : ForLoop) : L.testing ≠ [] := List.cons_ne_nil _ _

theorem not_suffix_ending (L : ForLoop) : ¬L.testing <:+ L.ending :=
  fun h => Nat.not_succ_le_self _ h.length_le

theorem isOrdinary_loopTest (test : Option NodeId) : (loopTest test).isOrdinary = true := by
  cases test <;> rfl

theorem isOrdinary_updating (L : ForLoop) : ∀ item ∈ L.updating, item.isOrdinary = true := by
  refine List.forall_mem_append.mpr ⟨?_, List.forall_mem_singleton.mpr (isOrdinary_loopTest _)⟩
  cases L.update with
  | none => exact List.forall_mem_nil _
  | some id => exact List.forall_mem_cons.mpr ⟨rfl, List.forall_mem_singleton.mpr rfl⟩

/-- What is left in front of the test is passed by on the way to the end of the loop; on the way to the end of a trip,
one comes to the next trip. -/
theorem Stage.exists_mid (h : L.Stage trips frames declared a b) :
    ∃ mid, b = mid ++ L.testing ∧ (∀ item ∈ mid, item.isPassed .loopEnd = true) ∧ (a ≠ [] →
      ∀ rest, searchLoop .tripEnd mid = .reached rest → b = L.tripEnd ∧ rest ++ L.testing = L.next) := by
  have htest : ∀ target, (loopTest L.test).isPassed target = true :=
    Item.isPassed_of_isOrdinary (isOrdinary_loopTest L.test)
  have hfirst : ∀ target, ∀ item ∈ [Item.instr (.freshTrip [L.name]), .instr (.push .undefined), loopTest L.test],
      item.isPassed target = true := fun target => by
    refine List.forall_mem_cons.mpr ⟨by cases target <;> rfl, List.forall_mem_cons.mpr ⟨by cases target <;> rfl, ?_⟩⟩
    exact List.forall_mem_singleton.mpr (htest target)
  have hheading : ∀ target, ∀ item ∈ Item.instr .pop ::
      [Item.instr (.freshTrip [L.name]), .instr (.push .undefined), loopTest L.test], item.isPassed target = true :=
    fun target => List.forall_mem_cons.mpr ⟨by cases target <;> rfl, hfirst target⟩
  have hnext : ∀ item ∈ Item.instr (.freshTrip [L.name]) :: L.updating, item.isPassed .loopEnd = true :=
    List.forall_mem_cons.mpr ⟨rfl, fun item hitem => Item.isPassed_of_isOrdinary (isOrdinary_updating L item hitem) _⟩
  cases h with
  | entered => exact ⟨_ :: _, rfl, List.forall_mem_cons.mpr ⟨rfl, hheading _⟩, fun h => absurd rfl h⟩
  | declaring =>
    refine ⟨_ :: _, rfl, List.forall_mem_cons.mpr ⟨rfl, hheading _⟩, fun _ rest hsearch => ?_⟩
    rw [← List.append_nil (_ :: _), searchLoop_append [] (List.forall_mem_cons.mpr ⟨rfl, hheading _⟩)] at hsearch
    cases hsearch
  | declared => exact ⟨_, rfl, hheading _, fun h => absurd rfl h⟩
  | first => exact ⟨_, rfl, hfirst _, fun h => absurd rfl h⟩
  | testing => exact ⟨[], rfl, List.forall_mem_nil _, fun _ rest hsearch => by cases hsearch⟩
  | body =>
    refine ⟨.instr (.marker .tripEnd) :: .instr (.freshTrip [L.name]) :: L.updating, rfl,
      List.forall_mem_cons.mpr ⟨rfl, hnext⟩, fun _ rest hsearch => ⟨rfl, ?_⟩⟩
    rw [searchLoop_target] at hsearch
    cases hsearch
    rfl
  | next => exact ⟨_, rfl, hnext, fun h => absurd rfl h⟩

/-- Other work may be pending in front, where any is. -/
theorem Stage.in_front (h : L.Stage trips frames declared (item :: a) b) (a' : Agenda) :
    L.Stage trips frames declared a' b := by
  cases h with
  | declaring => exact .declaring
  | testing => exact .testing
  | body => exact .body

/-- A trip is over. -/
theorem Stage.over (h : L.Stage trips frames declared a b) (hb : b = L.tripEnd) :
    L.Stage trips frames true [] L.next := by
  cases h with
  | body => exact .next
  | _ => cases hb

/-- The variable has been copied. -/
theorem Stage.copied (h : L.Stage trips frames declared a b) (hb : b = L.first ∨ b = L.next) (a' : Agenda) :
    L.Stage trips (frames + 1) true a' L.testing := by
  cases h with
  | first => exact .testing
  | next => exact .testing
  | _ => obtain hb | hb := hb <;> cases hb

/-- Where the loop goes on itself, and what comes then. -/
theorem Stage.cases_nil (h : L.Stage trips frames declared [] b) :
    (b = .node L.init :: L.heading ∧ ∀ a, L.Stage trips frames false a (.instr (.declare L.name L.init) :: L.heading)) ∨
    (b = .instr (.declare L.name L.init) :: L.heading ∧ L.Stage trips frames true [] L.heading) ∨
    (b = L.heading ∧ L.Stage trips frames true [] L.first) ∨
    (b = L.tripEnd ∧ L.Stage trips frames true [] L.next) ∨ b = L.testing ∨ b = L.first ∨ b = L.next := by
  cases h with
  | entered => exact .inl ⟨rfl, fun _ => .declaring⟩
  | declaring => exact .inr (.inl ⟨rfl, .declared⟩)
  | declared => exact .inr (.inr (.inl ⟨rfl, .first⟩))
  | body => exact .inr (.inr (.inr (.inl ⟨rfl, .next⟩)))
  | testing => exact .inr (.inr (.inr (.inr (.inl rfl))))
  | first => exact .inr (.inr (.inr (.inr (.inr (.inl rfl)))))
  | next => exact .inr (.inr (.inr (.inr (.inr (.inr rfl)))))

/-- The head has been declared, but for a part of it that is pending. -/
theorem Stage.of_heading (h : L.Stage trips frames declared a b) (hb : b = L.heading ∨ b = L.tripEnd) :
    declared = true := by
  cases h with
  | entered | declaring => obtain hb | hb := hb <;> cases hb
  | _ => rfl

theorem Stage.ne_copying (h : L.Stage trips frames declared (item :: a) b) : b ≠ L.first ∧ b ≠ L.next := by
  cases h <;> exact ⟨nofun, nofun⟩

/-- When the test has been evaluated, the loop has come to it. -/
theorem Stage.of_testing (h : L.Stage trips frames declared a b) (heq : a ++ b = L.testing) :
    a = [] ∧ b = L.testing ∧ frames = trips + 2 ∧ declared = true := by
  obtain ⟨mid, hb, -, -⟩ := h.exists_mid
  rw [hb, ← List.append_assoc] at heq
  obtain ⟨rfl, rfl⟩ := List.append_eq_nil_iff.mp (List.append_cancel_right (heq.trans (List.nil_append _).symm))
  have hb : b = L.testing := hb
  cases h with
  | testing => exact ⟨rfl, rfl, rfl, rfl⟩
  | _ => cases hb

/-- The variable is copied only where the loop itself goes on. -/
theorem Stage.of_copying (h : L.Stage trips frames declared a b) (henv : Agenda.envAfter (some s'.env) a = some latest)
    (hagenda : s'.agenda = a ++ b) (hcopies : L.Copying s') :
    a = [] ∧ (b = L.first ∨ b = L.next) ∧ declared = true ∧ frames = trips + 1 := by
  obtain ⟨c, hc, hplain⟩ := hcopies
  rw [hagenda] at hc
  cases a with
  | nil =>
    cases h with
    | first => exact ⟨rfl, .inl rfl, rfl, rfl⟩
    | next => exact ⟨rfl, .inr rfl, rfl, rfl⟩
    | _ => cases hc
  | cons item a₀ =>
    -- The copy would make the environment unknown, but behind the work in front it is known.
    obtain ⟨mid, rfl, -, -⟩ := h.exists_mid
    obtain ⟨rfl, hrest⟩ := List.cons.inj hc
    have hrest : a₀ ++ mid ++ L.testing = c ++ L.testing := (List.append_assoc _ _ _).trans hrest
    have hfront : ∀ item ∈ a₀, item.isRestore = false := fun item hitem =>
      hplain item (List.append_cancel_right hrest ▸ List.mem_append_left mid hitem)
    have hnone : Agenda.envAfter (some s'.env) (.instr (.freshTrip [L.name]) :: a₀) = none :=
      envAfter_none_of_plain hfront
    cases hnone.symm.trans henv

theorem first_ne_next (L : ForLoop) : L.first ≠ L.next := by
  intro h
  have hitems : [.instr (.push .undefined), loopTest L.test] = L.updating :=
    List.append_cancel_right (List.cons.inj h).2
  unfold updating at hitems
  cases hupdate : L.update with
  | none => rw [hupdate] at hitems; cases congrArg List.length hitems
  | some id => rw [hupdate] at hitems; cases hitems

theorem copying_of_agenda {s : State} (h : s.agenda = L.first ∨ s.agenda = L.next) : L.Copying s := by
  obtain h | h := h
  · refine ⟨[.instr (.push .undefined), loopTest L.test], h, List.forall_mem_cons.mpr ⟨rfl, ?_⟩⟩
    exact List.forall_mem_singleton.mpr (Item.not_isRestore_of_isOrdinary (isOrdinary_loopTest L.test))
  · exact ⟨L.updating, h, fun item hitem => Item.not_isRestore_of_isOrdinary (isOrdinary_updating L item hitem)⟩

theorem Stands.mem (h : L.Stands i latest older declared a b) : latest ∈ i.frames :=
  h.frames ▸ List.mem_cons_self

/-- What a step leaves as it is, and what is to be known of the work that it leaves pending. -/
theorem Stands.step (h : L.Stands i latest older declared a b) (hchange : Change p i.state s') (htidy : s'.Tidy)
    {trips' : Nat} {declared' : Bool} {a' b' : Agenda} (hstage : L.Stage trips' i.frames.length declared' a' b')
    (hagenda : s'.agenda = a' ++ b') (henv : Agenda.envAfter (some s'.env) a' = some latest)
    (hsince : State.Since latest.frame { s' with agenda := a' })
    (hholds : declared' = true → s'.scopes.Holds latest.frame L.name) :
    L.Stands ⟨trips', i.frames, s'⟩ latest older declared' a' b' where
  frames := h.frames
  stage := hstage
  agenda := hagenda
  env := henv
  since := hsince
  owned f hf := hchange.remains.own? (h.owned f hf)
  holds := hholds
  ordered := h.ordered
  siblings f hf := hchange.remains.tail? (h.siblings f hf)
  tidy := htidy

/-- Where neither a scope nor a call is pending in front of the loop, the latest frame is current. -/
theorem Stands.current (h : L.Stands i latest older declared a b) {c : Agenda} (hc : i.state.agenda = c ++ L.testing)
    (hplain : ∀ item ∈ c, item.isRestore = false) : i.state.env = latest := by
  obtain ⟨mid, rfl, -, -⟩ := h.stage.exists_mid
  rw [h.agenda, ← List.append_assoc] at hc
  refine eq_of_envAfter_plain (fun item hitem => hplain item ?_) h.env
  exact List.append_cancel_right hc ▸ List.mem_append_left mid hitem

/-- The step ends the body of a trip, normally or by `continue`, and changes no variable. -/
def EndsBody (s s' : State) : Prop :=
  s'.scopes = s.scopes ∧ (s.agenda = .instr (.marker .tripEnd) :: s'.agenda ∨
    ∃ node rest, s.agenda = .instr (.continueLoop node) :: rest)

/-- Work in front of what is left of the loop stays there; but `continue` ends the body. -/
theorem Stands.in_front (h : L.Stands i latest older declared (item :: a) b) (hnone : ∀ k v, ¬i.state.Invokes k v)
    (hrun : advance p i.state = .running s') (hinside : L.testing <:+ s'.agenda) :
    (∃ a', L.Stands ⟨i.trips, i.frames, s'⟩ latest older declared a' b) ∨
      b = L.tripEnd ∧ s'.agenda = L.next ∧ s'.env = latest ∧ EndsBody i.state s' := by
  have hagenda : i.state.agenda = item :: (a ++ b) := h.agenda
  have hmove := move_of_advance hagenda hrun
  obtain ⟨hchange, htidy'⟩ := change_of_advance hrun
  have hcalm : ∀ c k v, ¬State.Invokes { i.state with agenda := item :: c } k v :=
    fun c => not_invokes_cons hagenda hnone
  have htidy := h.tidy.agenda
  rw [h.agenda] at htidy
  obtain ⟨mid, rfl, hmid, htrip⟩ := h.stage.exists_mid
  have hb := endsScope_of_passed hmid (endsScope_testing L)
  -- The step leaves what is left of the loop alone, or it jumps into it: then it is the `continue` of this trip.
  obtain hkept | ⟨j, rest, rfl, htarget, hsearch, hreached, hplain⟩ :=
    (hmove.reschedules (hcalm _)).keeps_passed (endsScope_testing L) (testing_ne_nil L) hmid hinside
  · obtain ⟨a', kept, hagenda', habove⟩ := hmove.above hb rfl (hcalm _) hkept
    have hfront : Tidy a := (Tidy.of_append hb htidy).2.2
    have hreset : item = .instr .reset → .instr (.marker .call) ∈ a := by
      rintro rfl
      rw [agenda_of_reset hmove] at hkept
      refine mem_marker_of_suffix ?_ hkept
      exact List.append_ne_nil_of_right_ne_nil mid (testing_ne_nil L)
    have henv := habove.envAfter hfront (hcalm a) hreset h.env
    have hsince := Move.since (s := { i.state with agenda := item :: a }) rfl habove hfront (hcalm a) h.since
    exact .inl ⟨a', h.step hchange (htidy' h.tidy) (h.stage.in_front a') hagenda' henv
      ⟨hsince.inside, hsince.env, hsince.ends, hsince.copies⟩ fun hdeclared => hchange.holds (h.holds hdeclared)⟩
  · obtain ⟨hbody, hnext⟩ := htrip (List.cons_ne_nil _ _) rest hsearch
    have hstill := hmove.still_of_jump htarget
    have hcurrent : i.state.env = latest := by
      refine eq_of_envAfter_plain (List.forall_mem_cons.mpr ⟨?_, hplain⟩) h.env
      exact Item.not_isRestore_of_target htarget
    refine .inr ⟨hbody, hreached.trans hnext, hstill.env.trans hcurrent, hstill.scopes, .inr ?_⟩
    cases j with
    | continueLoop node => exact ⟨node, _, hagenda⟩
    | _ => cases htarget

/-- The latest frame is current, and nothing is pending that ends a scope or copies variables. -/
theorem Stands.begins (h : L.Stands i latest older declared a b) (hchange : Change p i.state s') (htidy : s'.Tidy)
    {trips' : Nat} {declared' : Bool} {a' b' : Agenda} (hstage : L.Stage trips' i.frames.length declared' a' b')
    (hagenda : s'.agenda = a' ++ b') (henv : s'.env = latest) (hinside : s'.scopes.ScopesInside latest.frame)
    (hplain : ∀ item ∈ a', item.isOrdinary = true) (hholds : declared' = true → s'.scopes.Holds latest.frame L.name) :
    L.Stands ⟨trips', i.frames, s'⟩ latest older declared' a' b' := by
  have hlt : latest.frame < s'.scopes.frames.size := by
    obtain ⟨slot, hslot⟩ := Option.isSome_iff_exists.mp (hchange.remains.own? (h.owned latest h.mem))
    exact Scopes.lt_size_of_own? hslot
  refine h.step hchange htidy hstage hagenda ?_ ?_ hholds
  · rw [envAfter_of_steady (fun item hitem => Item.steady_of_isOrdinary (hplain item hitem)), henv]
  · exact since_of_plain rfl hinside (congrArg Env.frame henv) hlt fun item hitem =>
      ⟨Item.not_isRestore_of_isOrdinary (hplain item hitem), Item.vars_of_isOrdinary (hplain item hitem)⟩

/-- A step of other work leaves the loop as it is, or leads to where it goes on itself. -/
theorem Stands.works (h : L.Stands i latest older declared a b)
    (hhead : ∃ kind value, p.tree.kind? L.init = some (.declaration kind L.name value)) (hcopies : ¬L.Copying i.state)
    (htest : i.state.agenda ≠ L.testing) (hnone : ∀ k v, ¬i.state.Invokes k v) (hrun : advance p i.state = .running s')
    (hinside : L.testing <:+ s'.agenda) :
    (∃ declared' a' b', L.Stands ⟨i.trips, i.frames, s'⟩ latest older declared' a' b') ∧
      (s'.agenda = L.next → EndsBody i.state s') := by
  obtain ⟨hchange, htidy⟩ := change_of_advance hrun
  have htidy := htidy h.tidy
  have hholds : declared = true → s'.scopes.Holds latest.frame L.name :=
    fun hdeclared => hchange.holds (h.holds hdeclared)
  have hstage := h.stage
  have hinside' := h.since.inside
  cases a with
  | cons item a =>
    obtain ⟨a', hstands⟩ | ⟨rfl, hnext, henv, hends⟩ := h.in_front hnone hrun hinside
    · refine ⟨⟨_, _, _, hstands⟩, fun hnext => ?_⟩
      -- Work in front of what is left of the loop cannot be all that is left.
      obtain ⟨rfl, hb, -⟩ :=
        hstands.stage.of_copying hstands.env hstands.agenda (copying_of_agenda (.inr hnext))
      obtain hb | hb := hb
      · exact absurd hb hstage.ne_copying.1
      · exact absurd hb hstage.ne_copying.2
    · refine ⟨⟨true, [], L.next, h.begins hchange htidy (hstage.over rfl) hnext henv (hends.1 ▸ hinside')
        (List.forall_mem_nil _) fun _ => hholds (hstage.of_heading (.inr rfl))⟩, fun _ => hends⟩
  | nil =>
    have hagenda : i.state.agenda = b := h.agenda
    have henv : i.state.env = latest := Option.some.inj h.env
    obtain ⟨rfl, hnext⟩ | ⟨rfl, hnext⟩ | ⟨rfl, hnext⟩ | ⟨rfl, hnext⟩ | rfl | hb := hstage.cases_nil
    · -- The declaration in the head is evaluated.
      obtain ⟨kind, value, hkind⟩ := hhead
      obtain ⟨hagenda', hstill, -⟩ := (move_of_advance hagenda hrun).plain_node hkind rfl nofun
      have hagenda' : s'.agenda = [.node value] ++ .instr (.declare L.name L.init) :: L.heading := hagenda'
      refine ⟨⟨false, _, _, h.begins hchange htidy (hnext _) hagenda' (hstill.env.trans henv) (hstill.scopes ▸ hinside')
        (List.forall_mem_singleton.mpr rfl) nofun⟩, fun h => ?_⟩
      cases hagenda'.symm.trans h
    · have howned : (i.state.scopes.own? i.state.env.frame L.name).isSome = true := henv ▸ h.owned latest h.mem
      obtain ⟨hagenda', henv', hholds', hscopes⟩ := (move_of_advance hagenda hrun).declared howned
      refine ⟨⟨true, [], _, h.begins hchange htidy hnext hagenda' (henv'.trans henv) (hscopes _ hinside')
        (List.forall_mem_nil _) fun _ => henv ▸ hholds'⟩, fun h => ?_⟩
      cases hagenda'.symm.trans h
    · obtain ⟨⟨items, hitems, hagenda'⟩, hstill⟩ := (move_of_advance hagenda hrun).offered rfl
      rw [List.mem_singleton.mp hitems] at hagenda'
      refine ⟨⟨true, [], _, h.begins hchange htidy hnext hagenda' (hstill.env.trans henv) (hstill.scopes ▸ hinside')
        (List.forall_mem_nil _) fun _ => hholds (hstage.of_heading (.inl rfl))⟩, fun h => ?_⟩
      exact absurd (hagenda'.symm.trans h) (first_ne_next L)
    · obtain ⟨⟨items, hitems, hagenda'⟩, hstill⟩ := (move_of_advance hagenda hrun).offered rfl
      rw [List.mem_singleton.mp hitems] at hagenda'
      refine ⟨⟨true, [], _, h.begins hchange htidy hnext hagenda' (hstill.env.trans henv) (hstill.scopes ▸ hinside')
        (List.forall_mem_nil _) fun _ => hholds (hstage.of_heading (.inr rfl))⟩, fun _ => ⟨hstill.scopes, .inl ?_⟩⟩
      rw [hagenda, hagenda']
      rfl
    · exact absurd hagenda htest
    · exact absurd (copying_of_agenda (hb.imp hagenda.trans hagenda.trans)) hcopies

/-- When the test has been evaluated, the loop is over or a trip begins. -/
theorem agenda_of_testing {s : State} (hagenda : s.agenda = L.testing) (hrun : advance p s = .running s') :
    (s'.agenda = L.ending ∨ s'.agenda = [.instr .pop, .node L.body] ++ L.tripEnd) ∧ s.Still s' := by
  obtain ⟨⟨items, hitems, hagenda'⟩, hstill⟩ := (move_of_advance hagenda hrun).offered rfl
  have hagenda' : s'.agenda = items ++ L.ending := hagenda'
  refine ⟨?_, hstill.env, hstill.scopes, hstill.calls, hstill.snapshots, hstill.next⟩
  simp only [Instr.offers, List.mem_cons, List.not_mem_nil, or_false] at hitems
  obtain rfl | rfl := hitems
  · exact .inl hagenda'
  · right
    rw [hagenda', tripItems, List.append_assoc, List.append_assoc, tripEnd, next, updating, List.append_assoc]
    rfl

/-- When the test has been true, a trip begins in the latest frame. -/
theorem Stands.trip (h : L.Stands i latest older declared a b) (hagenda : i.state.agenda = L.testing)
    (hrun : advance p i.state = .running s') (hinside : L.testing <:+ s'.agenda) :
    L.Stands ⟨i.trips + 1, i.frames, s'⟩ latest older true [.instr .pop, .node L.body] L.tripEnd := by
  obtain ⟨hchange, htidy⟩ := change_of_advance hrun
  obtain ⟨rfl, rfl, hframes, rfl⟩ := h.stage.of_testing (h.agenda.symm.trans hagenda)
  have henv : i.state.env = latest := Option.some.inj h.env
  obtain ⟨hending | htrip, hstill⟩ := agenda_of_testing hagenda hrun
  · exact absurd (hending ▸ hinside) (not_suffix_ending L)
  refine h.begins hchange (htidy h.tidy) ?_ htrip (hstill.env.trans henv) (hstill.scopes ▸ h.since.inside)
    (List.forall_mem_cons.mpr ⟨rfl, List.forall_mem_singleton.mpr rfl⟩) fun _ => hchange.holds (h.holds rfl)
  rw [hframes]
  exact .body

structure Copies (L : ForLoop) (s s' : State) : Prop where
  agenda : s.agenda = .instr (.freshTrip [L.name]) :: s'.agenda
  /-- The frame is new. -/
  env : s'.env.frame = s.scopes.frames.size
  /-- It is inside of the environment that the loop has been entered from, as the one before is. -/
  tail : s'.scopes.tail? s'.env = some L.outer
  /-- The variable has the value there that it has in the frame before. -/
  slot : s'.scopes.own? s'.env.frame L.name = s.scopes.own? s.env.frame L.name

theorem Stands.copies (h : L.Stands i latest older declared a b) (hnext : L.Copying i.state)
    (hrun : advance p i.state = .running s') :
    L.Copies i.state s' ∧ ∃ a', L.Stands ⟨i.trips, s'.env :: i.frames, s'⟩ s'.env i.frames true a' L.testing := by
  obtain ⟨hchange, htidy⟩ := change_of_advance hrun
  obtain ⟨rfl, hb, rfl, -⟩ := h.stage.of_copying h.env h.agenda hnext
  have henv : i.state.env = latest := Option.some.inj h.env
  obtain ⟨a', hfirst, hordinary⟩ : ∃ a', i.state.agenda = .instr (.freshTrip [L.name]) :: (a' ++ L.testing) ∧
      ∀ item ∈ a', item.isOrdinary = true := by
    obtain rfl | rfl := hb
    · refine ⟨[.instr (.push .undefined), loopTest L.test], h.agenda, ?_⟩
      exact List.forall_mem_cons.mpr ⟨rfl, List.forall_mem_singleton.mpr (isOrdinary_loopTest L.test)⟩
    · exact ⟨L.updating, h.agenda, isOrdinary_updating L⟩
  obtain ⟨hagenda', hmade⟩ := (move_of_advance hfirst hrun).copied (List.cons_ne_nil _ _)
  have hmade : i.state.Makes (((i.state.scopes.frame? i.state.env).getD default).copy [L.name]) s' :=
    ⟨hmade.handle, hmade.frames, hmade.next⟩
  have hsibling : ∀ f ∈ i.frames, f.frame < s'.env.frame := by
    intro f hf
    obtain ⟨g, hg, -⟩ := Option.bind_eq_some_iff.mp (h.siblings f hf)
    exact hmade.env ▸ (Array.getElem?_eq_some_iff.mp hg).1
  -- The current frame is there, since it is one of the loop.
  obtain ⟨f, hf, htail⟩ := Option.bind_eq_some_iff.mp (h.siblings latest h.mem)
  rw [← henv] at hf
  have hslot : s'.scopes.own? s'.env.frame L.name = i.state.scopes.own? i.state.env.frame L.name := by
    rw [hmade.own?, if_pos hmade.env, Frame.slot?_copy_eq, hf, Scopes.own?,
      show i.state.scopes.frames[i.state.env.frame]? = some f from hf]
    exact if_pos List.mem_cons_self
  have htail' : s'.scopes.tail? s'.env = some L.outer := by
    rw [Scopes.tail?, Scopes.frame?, hmade.getElem?_env, hf]
    exact htail
  refine ⟨⟨hagenda' ▸ hfirst, hmade.env, htail', hslot⟩, a', ?_⟩
  exact {
    frames := rfl
    stage := h.stage.copied hb a'
    agenda := hagenda'
    env := envAfter_of_steady (fun item hitem => Item.steady_of_isOrdinary (hordinary item hitem)) _
    since := since_of_plain rfl hmade.scopesInside_env rfl hmade.lt_size fun item hitem =>
      ⟨Item.not_isRestore_of_isOrdinary (hordinary item hitem), Item.vars_of_isOrdinary (hordinary item hitem)⟩
    owned := List.forall_mem_cons.mpr ⟨by rw [hslot, henv]; exact h.owned latest h.mem, fun g hg =>
      hchange.remains.own? (h.owned g hg)⟩
    holds := fun _ => hmade.holds_copy List.mem_cons_self (henv ▸ h.holds rfl)
    ordered := List.pairwise_cons.mpr ⟨hsibling, h.ordered⟩
    siblings := List.forall_mem_cons.mpr ⟨htail', fun g hg => hchange.remains.tail? (h.siblings g hg)⟩
    tidy := htidy h.tidy }

/-- The head of a loop gets a frame in which the variable is declared. -/
theorem stands_of_begins {s : State} (hs : L.Begins p.tree s) (htidy : s.Tidy) (hrun : advance p s = .running s') :
    ∃ b, L.Stands ⟨0, [s'.env], s'⟩ s'.env [] false [] b := by
  obtain ⟨kind, value, hhead⟩ := hs.head
  have hopened : p.tree.opened (.forLoop (some L.init) L.test L.update L.body) = [(L.init, L.name, kind)] := by
    simp [Tree.opened, Tree.headDeclarations, hhead]
  obtain ⟨hchange, htidy'⟩ := change_of_advance hrun
  cases move_of_advance hs.agenda hrun with
  | plain hkind hopened' hgoes hagenda hstill =>
    cases hs.kind.symm.trans hkind
    rw [hopened] at hopened'
    cases hopened'
  | returned hkind hagenda hstash hstill => cases hs.kind.symm.trans hkind
  | @scope id kind' name hkind hopened' hagenda hcalls hsnapshots hmade hnames =>
    cases hs.kind.symm.trans hkind
    rw [hopened] at hmade
    have hmade : s.Makes _ s' := ⟨hmade.handle, hmade.frames, hmade.next⟩
    have hagenda' : s'.agenda = .node L.init :: L.heading := by
      have hdeclared : p.tree.headDeclarations (some L.init) = [(L.init, L.name, kind)] := hopened
      have hitems : s'.agenda = forItems L.id (some L.init) L.test L.update L.body
          ((p.tree.headDeclarations (some L.init)).map fun d => d.2.1) ++ opening s.env L.behind := hagenda
      rw [hitems, hdeclared, hs.env]
      rfl
    refine ⟨_, {
      frames := rfl
      stage := .entered
      agenda := hagenda'
      env := rfl
      since := since_of_plain rfl (hmade.scopesInside_env) rfl hmade.lt_size (List.forall_mem_nil _)
      owned := List.forall_mem_singleton.mpr ?_
      holds := fun h => absurd h Bool.false_ne_true
      ordered := List.pairwise_singleton _ _
      siblings := List.forall_mem_singleton.mpr ?_
      tidy := htidy' htidy }⟩
    · rw [hmade.own?, if_pos hmade.env]
      simp [Frame.slot?, declaredSlots]
    · rw [Scopes.tail?, Scopes.frame?, hmade.getElem?_env, ← hs.env]
      rfl

end ForLoop

end ExplicitControl
