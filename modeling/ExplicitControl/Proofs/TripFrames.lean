import ExplicitControl.Proofs.Iterations

/-!
# What the variable of a loop means

Each trip through a `for` loop has a frame for the variable of the loop, and what is evaluated in a trip finds the
variable there, or a newer one of the same name.  Only a function that has been made in an earlier trip leads further
out, so what other functions of that trip see does not change while no such function runs.  When the loop is left, the
environment that it has been entered from comes back.
-/

namespace ExplicitControl

namespace Machine

variable {p : Setting} {s s' : State} {env : Env} {name : Name} {frame : Nat}

/-- A name leads where it has led, and a step writes to the variable there only if the name leads there from the
current environment as well. -/
theorem Change.keeps_slot (h : Change p s s') (howner : s.scopes.owner? env name = some frame) :
    s'.scopes.owner? env name = some frame ∧
      (s.scopes.owner? s.env name = some frame ∨ s'.scopes.slot? env name = s.scopes.slot? env name) := by
  have howner' := h.remains.owner? howner
  refine ⟨howner', ?_⟩
  rw [Scopes.slot?_eq_own? howner, Scopes.slot?_eq_own? howner']
  -- A write to the frame under the name comes from where the name leads there.
  have written : ∀ {target : Nat} {name' : Name} (g : Slot → Slot), s.scopes.owner? s.env name' = some target →
      s'.scopes = s.scopes.modifySlot target name' g →
      s.scopes.owner? s.env name = some frame ∨ s'.scopes.own? frame name = s.scopes.own? frame name := by
    intro target name' g hleads hscopes
    by_cases hhere : frame = target ∧ name = name'
    · obtain ⟨rfl, rfl⟩ := hhere
      exact .inl hleads
    · exact .inr (by rw [hscopes, Scopes.own?_modifySlot, if_neg hhere])
  have made : ∀ {f : Frame}, s.Makes f s' → s'.scopes.own? frame name = s.scopes.own? frame name := by
    intro f hmade
    obtain ⟨slot, hslot⟩ := Scopes.exists_own?_of_owner? howner
    exact (hmade.own?_of_some hslot).trans hslot.symm
  cases h with
  | still hscopes => exact .inr (by rw [hscopes])
  | entered henters harity hmade hnames => exact .inr (made hmade)
  | copied hnext hmade => exact .inr (made hmade)
  | assigned hnext hleads hslot hvalue hmutability hscopes => exact written _ hleads hscopes
  | declared hnext hleads hscopes => exact written _ hleads hscopes

end Machine

namespace ForLoop

open Machine Agenda

variable {p : Setting} {L : ForLoop} {s s' : State} {a b : Agenda} {declared : Bool} {i j : Iteration}
  {latest : Env} {older : List Env} {G : Env}

/-! ## 1. Runs -/

def Stood (L : ForLoop) (i : Iteration) : Prop :=
  ∃ latest older declared a b, L.Stands i latest older declared a b

theorem Stands.proceeds (h : L.Stands i latest older declared a b)
    (hhead : ∃ kind value, p.tree.kind? L.init = some (.declaration kind L.name value)) (hij : L.Proceeds p i j) :
    L.Stood j := by
  cases hij with
  | copies hnext hrun =>
    obtain ⟨-, a', hstands⟩ := h.copies hnext hrun
    exact ⟨_, _, _, _, _, hstands⟩
  | trip hnext hrun hinside => exact ⟨_, _, _, _, _, h.trip hnext hrun hinside⟩
  | works hcopies htest hnone hrun hinside =>
    obtain ⟨⟨declared', a', b', hstands⟩, -⟩ := h.works hhead hcopies htest hnone hrun hinside
    exact ⟨_, _, _, _, _, hstands⟩

/-- The test stays pending. -/
theorem Stood.suffix (h : L.Stood i) : L.testing <:+ i.state.agenda := by
  obtain ⟨latest, older, declared, a, b, hstands⟩ := h
  obtain ⟨mid, rfl, -, -⟩ := hstands.stage.exists_mid
  rw [hstands.agenda]
  exact (List.suffix_append mid _).trans (List.suffix_append a _)

theorem Reaches.stood (hs : L.Begins p.tree s) (htidy : s.Tidy) (hi : L.Reaches p s i) : L.Stood i := by
  obtain ⟨s₁, hrun, hi⟩ := hi
  induction hi with
  | refl =>
    obtain ⟨b, hstands⟩ := stands_of_begins hs htidy hrun
    exact ⟨_, _, _, _, _, hstands⟩
  | tail _ hij ih =>
    obtain ⟨latest, older, declared, a, b, hstands⟩ := ih
    exact hstands.proceeds hs.head hij

/-- What has been evaluated when a trip is over is the end of its body. -/
theorem Stands.endsBody (h : L.Stands i latest older declared a b)
    (hhead : ∃ kind value, p.tree.kind? L.init = some (.declaration kind L.name value)) (hij : L.Proceeds p i j)
    (hnext : j.state.agenda = L.next) : EndsBody i.state j.state := by
  cases hij with
  | copies hcopying hrun =>
    obtain ⟨-, a', hstands⟩ := h.copies hcopying hrun
    obtain ⟨-, hb | hb, -⟩ := hstands.stage.of_copying hstands.env hstands.agenda (copying_of_agenda (.inr hnext))
    · cases hb
    · cases hb
  | trip htesting hrun hinside =>
    obtain ⟨hending | htrip, -⟩ := agenda_of_testing htesting hrun
    · exact absurd (hending ▸ hinside) (not_suffix_ending L)
    · cases htrip.symm.trans hnext
  | works hcopies htest hnone hrun hinside => exact (h.works hhead hcopies htest hnone hrun hinside).2 hnext

/-! ## 2. Where the variable is found -/

/-- The variable is found in the latest frame, or in a newer one, if no function runs that leads further out. -/
theorem Stands.means (h : L.Stands i latest older declared a b) {frame : Nat} (hlt : frame < latest.frame)
    (howner : i.state.scopes.owner? i.state.env L.name = some frame) :
    i.state.scopes.CalledOver frame i.state.env.frame :=
  Scopes.calledOver_of_findUpTo h.since.inside (h.owned latest h.mem) h.since.env.1 hlt howner

/-- The frame of the head, and those of the trips that are over, are older. -/
theorem Stands.lt_latest (h : L.Stands i latest older declared a b) (hG : G ∈ older) : G.frame < latest.frame := by
  have hordered := h.ordered
  rw [h.frames] at hordered
  exact (List.pairwise_cons.mp hordered).1 G hG

theorem advance_of_proceeds (hij : L.Proceeds p i j) : advance p i.state = .running j.state := by
  cases hij with
  | copies _ hrun => exact hrun
  | trip _ hrun _ => exact hrun
  | works _ _ _ hrun _ => exact hrun

theorem frames_of_proceeds (hij : L.Proceeds p i j) : j.frames = i.frames ∨ j.frames = j.state.env :: i.frames := by
  cases hij with
  | copies => exact .inr rfl
  | trip => exact .inl rfl
  | works => exact .inl rfl

/-- One step.  If a function runs that has been made inside of the frame `G`, the step does not change the variable as
it is seen from `env`. -/
def ProceedsApart (p : Setting) (L : ForLoop) (G env : Env) (i j : Iteration) : Prop :=
  L.Proceeds p i j ∧ (i.state.scopes.CalledOver G.frame i.state.env.frame →
    j.state.scopes.slot? env L.name = i.state.scopes.slot? env L.name)

/-- What a function that has been made in an earlier trip sees stays as it is. -/
theorem Stands.keeps (h : L.Stands i latest older declared a b) (hG : G ∈ older) {env : Env}
    (hij : L.ProceedsApart p G env i j) (howner : i.state.scopes.owner? env L.name = some G.frame) :
    j.state.scopes.owner? env L.name = some G.frame ∧
      j.state.scopes.slot? env L.name = i.state.scopes.slot? env L.name := by
  obtain ⟨hij, hcalled⟩ := hij
  obtain ⟨howner', hleads | hslot⟩ := (change_of_advance (advance_of_proceeds hij)).1.keeps_slot howner
  · exact ⟨howner', hcalled (h.means (h.lt_latest hG) hleads)⟩
  · exact ⟨howner', hslot⟩

theorem Stood.keeps (h : L.Stood i) (hhead : ∃ kind value, p.tree.kind? L.init = some (.declaration kind L.name value))
    (hG : G ∈ i.frames.tail) {env : Env} (hij : Relation.ReflTransGen (L.ProceedsApart p G env) i j)
    (howner : i.state.scopes.owner? env L.name = some G.frame) :
    j.state.scopes.owner? env L.name = some G.frame ∧
      j.state.scopes.slot? env L.name = i.state.scopes.slot? env L.name := by
  suffices hrun : L.Stood j ∧ G ∈ j.frames.tail ∧ j.state.scopes.owner? env L.name = some G.frame ∧
      j.state.scopes.slot? env L.name = i.state.scopes.slot? env L.name from hrun.2.2
  induction hij with
  | refl => exact ⟨h, hG, howner, rfl⟩
  | tail _ hij ih =>
    obtain ⟨⟨latest, older, declared, a, b, hstands⟩, hG', howner', hslot⟩ := ih
    have holder := hG'
    rw [hstands.frames, List.tail_cons] at holder
    obtain ⟨howner'', hslot'⟩ := hstands.keeps holder hij howner'
    refine ⟨hstands.proceeds hhead hij.1, ?_, howner'', hslot'.trans hslot⟩
    obtain hsame | hmore := frames_of_proceeds hij.1
    · exact hsame ▸ hG'
    · exact hmore ▸ List.mem_of_mem_tail hG'

/-! ## 3. Leaving the loop -/

/-- Behind the loop an environment is brought back. -/
theorem outside_eq (L : ForLoop) : ∃ closesCall, L.outside = .instr (.restore L.back.1 closesCall) :: L.back.2 := by
  unfold outside opening back
  split
  next hends =>
    cases hbehind : L.behind with
    | nil => rw [hbehind] at hends; cases hends
    | cons item rest =>
      rw [hbehind] at hends
      obtain ⟨env, closesCall, rfl⟩ := Item.isRestore_iff.mp hends
      exact ⟨closesCall, rfl⟩
  next hends =>
    refine ⟨false, ?_⟩
    split
    next env closesCall rest hbehind => exact absurd (by rw [hbehind]; rfl) hends
    next => rfl

/-- From `s` it takes the machine at most two steps to leave the scope of the loop, unless it comes to a limit. -/
def ComesBack (p : Setting) (L : ForLoop) (s : State) : Prop :=
  ∃ n ≤ 2, (travel p n s).isLimited = true ∨ ∃ s', travel p n s = .running s' ∧ s'.agenda = L.back.2 ∧
    s'.env = L.back.1 ∧ s'.scopes = s.scopes

theorem comesBack_of_outside (hs : s.agenda = L.outside) :
    (travel p 1 s).isLimited = true ∨ ∃ s', travel p 1 s = .running s' ∧ s'.agenda = L.back.2 ∧
      s'.env = L.back.1 ∧ s'.scopes = s.scopes := by
  obtain ⟨closesCall, houtside⟩ := L.outside_eq
  rw [travel_one]
  obtain hlimit | ⟨readings, hrun⟩ := advance_counted_ok (p := p) (hs.trans houtside)
    (f := fun readings => { s with
      agenda := L.back.2, env := L.back.1, calls := if closesCall then s.calls.pop else s.calls, steps := s.steps + 1,
      readings })
    fun readings => by cases closesCall <;> rfl
  · exact .inl hlimit
  · exact .inr ⟨_, hrun, rfl, rfl, rfl⟩

theorem comesBack (hs : s.agenda = L.ending ∨ s.agenda = L.outside) : L.ComesBack p s := by
  obtain hending | houtside := hs
  · refine ⟨2, Nat.le_refl 2, ?_⟩
    obtain hlimit | ⟨readings, hrun⟩ := advance_counted_ok (p := p) hending
      (f := fun readings => { s with agenda := L.outside, steps := s.steps + 1, readings }) fun _ => rfl
    · exact .inl (isLimited_add 1 ((congrArg Progress.isLimited (travel_one p s)).trans hlimit))
    · have hstep : travel p 2 s = travel p 1 { s with agenda := L.outside, steps := s.steps + 1, readings } :=
        travelBy_running 1 hrun
      rw [hstep]
      exact comesBack_of_outside rfl
  · exact ⟨1, Nat.le_succ 1, comesBack_of_outside houtside⟩

/-- A search for the end of a loop comes to that of this one, or it ends within the work in front of it. -/
theorem searchLoop_front {mid : Agenda} (hmid : ∀ item ∈ mid, item.isPassed .loopEnd = true) (a : Agenda) :
    (∃ rest, searchLoop .loopEnd (a ++ (mid ++ L.testing)) = .reached rest ∧
        (L.testing <:+ rest ∨ rest = L.outside ∧ ∀ item ∈ a, item.isRestore = false)) ∨
      (∃ item rest, searchLoop .loopEnd (a ++ (mid ++ L.testing)) = .scope item rest ∧ L.testing <:+ rest) ∨
      searchLoop .loopEnd (a ++ (mid ++ L.testing)) = .outside := by
  have hinside : ∀ rest : Agenda, L.testing <:+ rest ++ (mid ++ L.testing) := fun rest =>
    (List.suffix_append mid _).trans (List.suffix_append rest _)
  obtain ⟨dropped, hdropped, hcase⟩ := exists_searchLoop .loopEnd a
  obtain ⟨rest, rfl, -⟩ | ⟨env, closesCall, rest, rfl, -⟩ | ⟨rest, rfl, -⟩ | ⟨rfl, -⟩ := hcase
  · refine .inl ⟨_, ?_, .inl (hinside rest)⟩
    rw [List.append_assoc, searchLoop_append _ hdropped, List.cons_append, searchLoop_target]
  · refine .inr (.inl ⟨.instr (.restore env closesCall), _, ?_, hinside rest⟩)
    rw [List.append_assoc, searchLoop_append _ hdropped, List.cons_append, searchLoop_restore]
  · refine .inr (.inr ?_)
    rw [List.append_assoc, searchLoop_append _ hdropped, List.cons_append, searchLoop_call (by decide)]
  · refine .inl ⟨L.outside, ?_, .inr ⟨rfl, fun item hitem => (Item.isPassed_iff.mp (hdropped item hitem)).2⟩⟩
    have htest : searchLoop .loopEnd L.testing = searchLoop .loopEnd L.ending := rfl
    rw [searchLoop_append _ hdropped, searchLoop_append _ hmid, htest]
    exact searchLoop_target L.outside

theorem suffix_tripEnd (L : ForLoop) : L.testing <:+ L.tripEnd :=
  (List.suffix_append L.updating _).trans ((List.suffix_cons _ _).trans (List.suffix_cons _ _))

/-- When the test has been false, or a `break` ends the loop, the latest frame is current. -/
theorem Stands.ends (h : L.Stands i latest older declared a b) (hrun : advance p i.state = .running s')
    (houtside : ¬L.testing <:+ s'.agenda)
    (hends : i.state.agenda = L.testing ∨ ∃ node rest, i.state.agenda = .instr (.breakLoop node) :: rest) :
    (s'.agenda = L.ending ∨ s'.agenda = L.outside) ∧ s'.env = latest := by
  obtain htesting | ⟨node, rest, hbreak⟩ := hends
  · obtain ⟨rfl, rfl, -, -⟩ := h.stage.of_testing (h.agenda.symm.trans htesting)
    have henv : i.state.env = latest := Option.some.inj h.env
    obtain ⟨hending | htrip, hstill⟩ := agenda_of_testing htesting hrun
    · exact ⟨.inl hending, hstill.env.trans henv⟩
    · exact absurd (htrip ▸ L.suffix_tripEnd.trans (List.suffix_append _ _)) houtside
  · cases a with
    | nil =>
      -- The loop itself does not go on by `break`.
      have hb : b = .instr (.breakLoop node) :: rest := h.agenda.symm.trans hbreak
      obtain ⟨rfl, -⟩ | ⟨rfl, -⟩ | ⟨rfl, -⟩ | ⟨rfl, -⟩ | rfl | rfl | rfl := h.stage.cases_nil <;> cases hb
    | cons item a =>
      obtain ⟨mid, rfl, hmid, -⟩ := h.stage.exists_mid
      obtain ⟨rfl, hrest⟩ : item = .instr (.breakLoop node) ∧ a ++ (mid ++ L.testing) = rest :=
        List.cons.inj (h.agenda.symm.trans hbreak)
      have hsearched := searchLoop_front (L := L) hmid a
      rw [hrest] at hsearched
      cases move_of_advance hbreak hrun with
      | instr hplain hoffered hagenda hstill => cases hplain
      | reached htarget hsearch hagenda hstash hstill =>
        cases htarget
        obtain ⟨_, hfound, hcase⟩ | ⟨_, _, hfound, -⟩ | hfound := hsearched <;> cases hsearch.symm.trans hfound
        obtain hinside | ⟨rfl, hplain⟩ := hcase
        · exact absurd (hagenda ▸ hinside) houtside
        · have henv := eq_of_envAfter_plain (List.forall_mem_cons.mpr ⟨rfl, hplain⟩) h.env
          exact ⟨.inr hagenda, hstill.env.trans henv⟩
      | stopped htarget hsearch hagenda hstash hstill =>
        cases htarget
        obtain ⟨_, hfound, -⟩ | ⟨_, _, hfound, hinside⟩ | hfound := hsearched <;> cases hsearch.symm.trans hfound
        exact absurd (hagenda ▸ (hinside.trans (List.suffix_cons _ _)).trans (List.suffix_cons _ _)) houtside

/-! ## 4. The loop as a whole -/

structure Unfolds (p : Setting) (L : ForLoop) (i : Iteration) : Prop where
  /-- Each frame is newer than the ones before it, so no two of them are the same. -/
  distinct : i.frames.Pairwise fun f g => g.frame < f.frame
  /-- They are all inside of the environment that the loop has been entered from. -/
  siblings : ∀ f ∈ i.frames, i.state.scopes.tail? f = some L.outer
  /-- Each has the variable in its own head. -/
  owned : ∀ f ∈ i.frames, i.state.scopes.owner? f L.name = some f.frame
  /-- In the body of a trip there are the frame of the head and one for each trip. -/
  begun : ∀ a, i.state.agenda = a ++ L.tripEnd → i.frames.length = i.trips + 1
  /-- When the test has been evaluated, the frame of the next trip is there already. -/
  tested : i.state.agenda = L.testing → i.frames.length = i.trips + 2
  /-- The latest frame is current in the body, in the update and in the test, but for scopes and calls inside of
  them. -/
  current : ∀ a, i.state.agenda = a ++ L.testing → (∀ item ∈ a, item.isRestore = false) →
    i.frames.head? = some i.state.env
  /-- There a name that leads to an older frame does so from a function that has been made inside of that frame. -/
  means : ∀ G ∈ i.frames.tail, i.state.scopes.owner? i.state.env L.name = some G.frame →
    i.state.scopes.CalledOver G.frame i.state.env.frame
  /-- The variable is copied when the head has been declared, and when a trip is over.  It has a value then, in the
  current frame, and the next frame starts with it. -/
  copied : L.Copying i.state → (i.state.agenda = L.first ∨ i.state.agenda = L.next) ∧
    i.frames.length = i.trips + 1 ∧ i.frames.head? = some i.state.env ∧ i.state.scopes.Holds i.state.env.frame L.name ∧
    ((advance p i.state).isLimited = true ∨ ∃ s', advance p i.state = .running s' ∧ L.Copies i.state s')
  /-- A trip is over when its body has ended, normally or by `continue`, and then the variable is copied. -/
  ended : ∀ j, L.Proceeds p i j → j.state.agenda = L.next → EndsBody i.state j.state ∧ L.Copying j.state
  /-- What a function that has been made in an earlier trip sees is changed only by functions made in that trip. -/
  kept : ∀ G ∈ i.frames.tail, ∀ env, i.state.scopes.owner? env L.name = some G.frame →
    ∀ j, Relation.ReflTransGen (L.ProceedsApart p G env) i j → j.state.scopes.owner? env L.name = some G.frame ∧
      j.state.scopes.slot? env L.name = i.state.scopes.slot? env L.name
  /-- When the loop is left by its test or by `break`, the environment comes back. -/
  left : ∀ s', advance p i.state = .running s' → ¬L.testing <:+ s'.agenda →
    (i.state.agenda = L.testing ∨ ∃ node rest, i.state.agenda = .instr (.breakLoop node) :: rest) →
    i.frames.head? = some s'.env ∧ L.ComesBack p s'

/-- Up to the first test, no end of a trip is pending. -/
theorem ne_append_tripEnd (L : ForLoop) (a c : Agenda) :
    a ++ .instr (.push .undefined) :: loopTest L.test :: L.testing ≠ c ++ L.tripEnd := by
  intro heq
  have htest : (a ++ [.instr (.push .undefined)]) ++ loopTest L.test :: L.testing =
      (c ++ .instr (.marker .tripEnd) :: .instr (.freshTrip [L.name]) ::
        (L.update.map fun id => [Item.node id, .instr .pop]).getD []) ++ loopTest L.test :: L.testing := by
    rw [tripEnd, next, updating] at heq
    simpa using heq
  have hlast := congrArg List.getLast? (List.append_cancel_right htest)
  cases hupdate : L.update with
  | none => simp [hupdate] at hlast
  | some id => simp [hupdate] at hlast

/-- As long as the end of a trip is pending, each trip has had one frame. -/
theorem Stage.of_tripEnd {trips frames : Nat} {env : Env} (h : L.Stage trips frames declared a b)
    (henv : Agenda.envAfter (some env) a = some latest) {c : Agenda} (heq : a ++ b = c ++ L.tripEnd) :
    frames = trips + 1 := by
  cases h with
  | entered => exact absurd heq (L.ne_append_tripEnd [_, _, _] c)
  | declaring => exact absurd ((List.append_assoc a [_, _, _] _).trans heq) (L.ne_append_tripEnd _ c)
  | declared => exact absurd heq (L.ne_append_tripEnd [_, _] c)
  | first => exact absurd heq (L.ne_append_tripEnd [_] c)
  | testing =>
    -- The copy at the end of the trip would make the environment unknown.
    have hfront : a ++ L.testing =
        ((c ++ [.instr (.marker .tripEnd)]) ++ .instr (.freshTrip [L.name]) :: L.updating) ++ L.testing := by
      rw [heq, List.append_assoc, List.append_assoc]
      rfl
    rw [List.append_cancel_right hfront, envAfter_append] at henv
    have hnone : Agenda.envAfter none L.updating = none :=
      envAfter_none_of_plain fun item hitem => Item.not_isRestore_of_isOrdinary (isOrdinary_updating L item hitem)
    cases hnone.symm.trans henv
  | body => rfl
  | next => rfl

/-- A copy of the variable is made in one step. -/
theorem advance_of_copying (hnext : L.Copying s) :
    (advance p s).isLimited = true ∨ ∃ s', advance p s = .running s' := by
  obtain ⟨a, hagenda, -⟩ := hnext
  obtain hlimit | ⟨readings, hrun⟩ := advance_counted (p := p) hagenda
  · exact .inl hlimit
  · exact .inr ⟨_, hrun⟩

theorem Stood.unfolds (h : L.Stood i)
    (hhead : ∃ kind value, p.tree.kind? L.init = some (.declaration kind L.name value)) : L.Unfolds p i := by
  obtain ⟨latest, older, declared, a, b, hstands⟩ := h
  have hlatest : i.frames.head? = some latest := by rw [hstands.frames]; rfl
  have holder : i.frames.tail = older := by rw [hstands.frames]; rfl
  exact {
    distinct := hstands.ordered
    siblings := hstands.siblings
    owned := fun f hf => by
      obtain ⟨slot, hslot⟩ := Option.isSome_iff_exists.mp (hstands.owned f hf)
      exact Scopes.owner?_of_own? hslot
    begun := fun c hc => hstands.stage.of_tripEnd hstands.env (hstands.agenda.symm.trans hc)
    tested := fun htesting => (hstands.stage.of_testing (hstands.agenda.symm.trans htesting)).2.2.1
    current := fun c hc hplain => hlatest.trans (congrArg some (hstands.current hc hplain).symm)
    means := fun G hG => hstands.means (hstands.lt_latest (holder ▸ hG))
    copied := fun hnext => by
      obtain ⟨rfl, hb, hdeclared, hframes⟩ := hstands.stage.of_copying hstands.env hstands.agenda hnext
      have henv : i.state.env = latest := Option.some.inj hstands.env
      refine ⟨?_, hframes, henv ▸ hlatest, henv ▸ hstands.holds hdeclared, ?_⟩
      · exact hb.imp hstands.agenda.trans hstands.agenda.trans
      · exact (advance_of_copying hnext).imp_right fun ⟨s', hrun⟩ => ⟨s', hrun, (hstands.copies hnext hrun).1⟩
    ended := fun j hij hnext => ⟨hstands.endsBody hhead hij hnext, copying_of_agenda (.inr hnext)⟩
    kept := fun G hG env howner j hij => Stood.keeps ⟨_, _, _, _, _, hstands⟩ hhead hG hij howner
    left := fun s' hrun houtside hends => by
      obtain ⟨hagenda, henv⟩ := hstands.ends hrun houtside hends
      exact ⟨henv ▸ hlatest, comesBack hagenda⟩ }

section

variable {σ : Type}

/-- **Each trip has its own variable.**  Let a `for` loop that declares a variable be evaluated, in whatever state of a
run.  However far it gets without invoking a continuation, each trip has a frame for the variable: the frame starts
with the value that the variable has when the trip before is over, the update and the test before the trip and then
its body run in it, and later trips do not write to it.  The loop is left into the environment it was entered from. -/
theorem trips_have_their_own_frames (t : Tree) (config : Config) (hosts : List EmbeddedFunction) (output : Output)
    (clock : Nat → Nat) (rule : PauseRule σ) (memory : σ)
    (hs : (build t config hosts output clock rule memory).Reaches s) (hbegins : L.Begins t s)
    (hi : L.Reaches (build t config hosts output clock rule memory).setting s i) :
    L.Unfolds (build t config hosts output clock rule memory).setting i :=
  (hi.stood hbegins hs.tidy).unfolds hbegins.head

end

/-- Carrying out the item neither jumps nor returns, and it is neither the test of a loop nor the copy of its
variable. -/
def goesOn (t : Tree) : Item → Bool
  | .node id => (t.kind? id).all fun
    | .returnStatement _ => false
    | _ => true
  | .instr (.freshTrip _) | .instr (.forTest ..) => false
  | .instr i => !i.isStatementWork t

/-- Work that goes on leaves what is behind it pending. -/
theorem suffix_of_goesOn {item : Item} (hgoes : goesOn p.tree item = true) (hnone : ∀ k v, ¬s.Invokes k v)
    (hagenda : s.agenda = item :: (a ++ b)) (hb : b.endsScope = false) (hrun : advance p s = .running s') :
    b <:+ s'.agenda := by
  have hmove := move_of_advance hagenda hrun
  cases item with
  | node id =>
    cases hmove with
    | plain hkind hopened hreturn hagenda' hstill =>
      rw [hagenda']
      exact ((List.suffix_append a b).trans (List.suffix_append _ _)).trans (List.suffix_append _ _)
    | scope hkind hopened hagenda' hcalls hsnapshots hmade hnames =>
      rw [hagenda']
      refine List.IsSuffix.trans ?_ (List.suffix_append _ _)
      unfold Agenda.opening
      split
      · exact (List.suffix_append a b).trans (List.suffix_append _ _)
      · exact ((List.suffix_append a b).trans (List.suffix_append _ _)).trans (List.suffix_cons _ _)
    | returned hkind hagenda' hstash hstill =>
      dsimp only [goesOn] at hgoes
      rw [hkind] at hgoes
      cases hgoes
  | instr i =>
    have hcalm : ∀ k v, ¬State.Invokes { s with agenda := .instr i :: (a ++ b) } k v := not_invokes_cons hagenda hnone
    refine hmove.keeps (.inl hb) rfl (fun hwork => ?_) hcalm
    have hwork : i.isStatementWork p.tree = true := hwork
    cases i with
    | freshTrip vars => cases hgoes
    | forTest test update body vars node => cases hgoes
    | _ => exact absurd hwork (by simpa [goesOn] using hgoes)

/-- Calm steps of a run. -/
theorem calm_between {n k : Nat} {r r' : State} (h : travel p n s = .running r) (h' : travel p (n + k) s = .running r')
    (hcalm : ∀ j < k, (travel p (n + j) s).state.isCalm = true) : Calm p k r r' := by
  refine ⟨(travelBy_add k h).symm.trans h', fun j hj q hq => ?_⟩
  have hq' := hcalm j hj
  rw [travel, travelBy_add j h, ← travel, hq] at hq'
  exact (State.not_invokes_of_isCalm hq').2

theorem Reaches.step (hi : L.Reaches p s i) (hij : L.Proceeds p i j) : L.Reaches p s j := by
  obtain ⟨s₁, hrun, hi⟩ := hi
  exact ⟨s₁, hrun, hi.tail hij⟩

/-- Calm steps that go on are steps within the loop. -/
theorem Reaches.calm (hbegins : L.Begins p.tree s) (htidy : s.Tidy) {trips : Nat} {frames : List Env} {r r' : State}
    (hr : L.Reaches p s ⟨trips, frames, r⟩) {n : Nat} (h : Calm p n r r')
    (hgoes : ∀ k < n, ((travel p k r).state.agenda.head?.all (goesOn p.tree)) = true) :
    L.Reaches p s ⟨trips, frames, r'⟩ := by
  induction n generalizing r with
  | zero =>
    cases h.run
    exact hr
  | succ n ih =>
    obtain ⟨r₁, hnone, hrun, hrest⟩ := h.cases
    have hfirst : (r.agenda.head?.all (goesOn p.tree)) = true := hgoes 0 n.succ_pos
    obtain ⟨c, hc⟩ := (hr.stood hbegins htidy).suffix
    cases c with
    | nil =>
      rw [← hc] at hfirst
      cases hfirst
    | cons item c =>
      have hcopies : ¬L.Copying r := by
        rintro ⟨a, hnext, -⟩
        rw [hnext] at hfirst
        cases hfirst
      have htest : r.agenda ≠ L.testing := by
        intro hnext
        rw [hnext] at hfirst
        cases hfirst
      have hitem : goesOn p.tree item = true := by
        rw [← hc] at hfirst
        exact hfirst
      have hinside := suffix_of_goesOn hitem hnone hc.symm (endsScope_testing L) hrun
      refine ih (hr.step (.works hcopies htest hnone hrun hinside)) hrest fun k hk => ?_
      have hlater : travel p (k + 1) r = travel p k r₁ := travelBy_running k hrun
      exact hlater ▸ hgoes (k + 1) (Nat.succ_lt_succ hk)

end ForLoop

/-- The program `for (let x = true; x; x = false) { }`. -/
def Tree.switchedOff : Tree where
  names := ⟨#["", "x"]⟩
  nodes := #[⟨.literal (.bool true), .dummy⟩, ⟨.declaration .letKind ⟨1⟩ ⟨0⟩, .dummy⟩, ⟨.identifier ⟨1⟩, .dummy⟩,
    ⟨.literal (.bool false), .dummy⟩, ⟨.assignment ⟨1⟩ ⟨3⟩, .dummy⟩, ⟨.block [], .dummy⟩,
    ⟨.forLoop (some ⟨1⟩) (some ⟨2⟩) (some ⟨4⟩) ⟨5⟩, .dummy⟩, ⟨.program [⟨6⟩], .dummy⟩]
  root := ⟨7⟩
  accepted := by decide

namespace ForLoop

open Machine

def switchedOff (outer : Env) : ForLoop where
  id := ⟨6⟩
  init := ⟨1⟩
  test := some ⟨2⟩
  update := some ⟨4⟩
  body := ⟨5⟩
  name := ⟨1⟩
  outer
  behind := [.instr .pushUndefinedIfNeeded]

/-- The loop comes to the copy at the end of its first trip. -/
theorem trips_have_their_own_frames_switchedOff :
    let m := build .switchedOff .standard [] default (fun _ => 0) .never ()
    let L := switchedOff m.state.env
    ∃ s i, m.Reaches s ∧ L.Begins .switchedOff s ∧ L.Reaches m.setting s i ∧ i.trips = 1 ∧ i.state.agenda = L.next ∧
      L.Unfolds m.setting i := by
  intro m L
  let s (n : Nat) : State := (travel m.setting n m.state).state
  have runs : ∀ n < 15, travel m.setting n m.state = .running (s n) := fun n hn =>
    Progress.eq_running ((by decide +kernel : ∀ n < 15, (travel m.setting n m.state).isRunning = true) n hn)
  have goes : ∀ n k, n + 1 = k → k < 15 → advance m.setting (s n) = .running (s k) := by
    rintro n _ rfl hn
    rw [← travel_one, ← runs (n + 1) hn]
    exact (travelBy_add 1 (runs n (Nat.lt_of_succ_lt hn))).symm
  have hs : m.Reaches (s 1) := reaches_iff.mpr ⟨1, runs 1 (by decide)⟩
  have hbegins : L.Begins .switchedOff (s 1) := ⟨by rfl, rfl, rfl, _, _, rfl⟩
  have hfirst : (s 6).agenda = L.first := by rfl
  have htesting : (s 9).agenda = L.testing := by rfl
  have htrip : (s 10).agenda = [.instr .pop, .node L.body] ++ L.tripEnd := by rfl
  have hnext : (s 14).agenda = L.next := by rfl
  have hinit : Calm m.setting 4 (s 2) (s 6) :=
    calm_between (runs 2 (by decide)) (runs 6 (by decide)) (by decide +kernel)
  have htest : Calm m.setting 2 (s 7) (s 9) :=
    calm_between (runs 7 (by decide)) (runs 9 (by decide)) (by decide +kernel)
  have hbody : Calm m.setting 4 (s 10) (s 14) :=
    calm_between (runs 10 (by decide)) (runs 14 (by decide)) (by decide +kernel)
  have hgoes : (∀ k < 4, ((travel m.setting k (s 2)).state.agenda.head?.all (goesOn m.setting.tree)) = true) ∧
      (∀ k < 2, ((travel m.setting k (s 7)).state.agenda.head?.all (goesOn m.setting.tree)) = true) ∧
      ∀ k < 4, ((travel m.setting k (s 10)).state.agenda.head?.all (goesOn m.setting.tree)) = true := by
    decide +kernel
  -- What is computed ends here.
  clear_value s
  have hentered : L.Reaches m.setting (s 1) ⟨0, [(s 2).env], s 2⟩ := ⟨s 2, goes 1 2 rfl (by decide), .refl⟩
  have hdeclared := hentered.calm hbegins hs.tidy hinit hgoes.1
  have hcopied := hdeclared.step (.copies (copying_of_agenda (.inl hfirst)) (goes 6 7 rfl (by decide)))
  have htested := hcopied.calm hbegins hs.tidy htest hgoes.2.1
  have hinside : L.testing <:+ (s 10).agenda := htrip ▸ L.suffix_tripEnd.trans (List.suffix_append _ _)
  have hbegun := htested.step (.trip htesting (goes 9 10 rfl (by decide)) hinside)
  have hover := hbegun.calm hbegins hs.tidy hbody hgoes.2.2
  exact ⟨s 1, _, hs, hbegins, hover, rfl, hnext,
    trips_have_their_own_frames .switchedOff .standard [] default (fun _ => 0) .never () hs hbegins hover⟩

end ForLoop

end ExplicitControl
