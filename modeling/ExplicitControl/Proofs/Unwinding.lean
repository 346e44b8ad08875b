import ExplicitControl.Proofs.Confinement
import ExplicitControl.Proofs.InTree

/-!
# Leaving a loop, one scope after another

A jump to the end of a loop, or of a trip through it, drops pending work up to a marker.  The ends of scopes on the
way are not dropped: each is carried out first, and then the jump goes on behind it.  So leaving a loop takes two
steps for each end of a scope, and one for the marker, whatever else is pending in between; and a search that comes to
the end of a function fails only when all scopes in front of it have been left.
-/

namespace ExplicitControl

def Item.restored? : Item → Option Env
  | .instr (.restore env _) => some env
  | _ => none

def Agenda.restores (a : Agenda) : List Env :=
  a.filterMap Item.restored?

namespace CallStack

def forget : Nat → CallStack → CallStack
  | 0, c => c
  | n + 1, c => forget n c.pop

theorem forget_add (m n : Nat) (c : CallStack) : forget (m + n) c = forget n (forget m c) := by
  induction m generalizing c with
  | zero => rw [Nat.zero_add, forget]
  | succ m ih => rw [Nat.succ_add, forget, forget, ih]

/-- What is forgotten are the last entries. -/
theorem exists_forgotten {c : CallStack} {n : Nat} (h : n ≤ c.depth) :
    ∃ lost, c.frames = (forget n c).frames ++ lost ∧ lost.size = n := by
  induction n generalizing c with
  | zero => exact ⟨#[], (Array.append_empty).symm, rfl⟩
  | succ n ih =>
    have hpopped : n ≤ c.pop.depth := by
      rw [depth, pop, Array.size_pop]
      exact Nat.le_sub_one_of_lt h
    obtain ⟨lost, hframes, hsize⟩ := ih hpopped
    have hlast : c.frames = c.pop.frames.push c.frames.back! :=
      Array.eq_push_pop_back!_of_size_ne_zero (Nat.ne_of_gt (Nat.lt_of_lt_of_le n.succ_pos h))
    refine ⟨lost.push c.frames.back!, ?_, by rw [Array.size_push, hsize]⟩
    rw [forget, Array.append_push, ← hframes, ← hlast]

end CallStack

namespace Agenda

variable {target : Marker} {a b : Agenda}

theorem restores_append (a b : Agenda) : restores (a ++ b) = restores a ++ restores b :=
  List.filterMap_append

theorem restores_cons_restore (env : Env) (closesCall : Bool) (a : Agenda) :
    restores (.instr (.restore env closesCall) :: a) = env :: restores a := rfl

theorem restores_of_plain (h : ∀ item ∈ a, item.isRestore = false) : restores a = [] := by
  refine List.filterMap_eq_nil_iff.mpr fun item hitem => ?_
  have hrestore := h item hitem
  cases item with
  | node id => rfl
  | instr i => cases i <;> first | rfl | cases hrestore

theorem restores_append_of_plain (h : ∀ item ∈ a, item.isRestore = false) (b : Agenda) :
    restores (a ++ b) = restores b := by
  rw [restores_append, restores_of_plain h, List.nil_append]

theorem restores_cons_of_plain {item : Item} (h : item.isRestore = false) (a : Agenda) :
    restores (item :: a) = restores a :=
  restores_append_of_plain (List.forall_mem_singleton.mpr h) a

theorem mem_restores_of_suffix {env : Env} (h : b <:+ a) (henv : env ∈ restores b) : env ∈ restores a :=
  (h.sublist.filterMap Item.restored?).subset henv

/-- The search for a marker passes no end of a scope. -/
theorem restores_passed (h : ∀ item ∈ a, item.isPassed target = true) : restores a = [] :=
  restores_of_plain fun item hitem => (Item.isPassed_iff.mp (h item hitem)).2

theorem restores_stopped {env : Env} {closesCall : Bool} (h : ∀ item ∈ a, item.isPassed target = true) :
    restores (a ++ .instr (.restore env closesCall) :: b) = env :: restores b := by
  rw [restores_append, restores_passed h, List.nil_append, restores_cons_restore]

/-- Neither the marker nor the end of a function is among the items. -/
def FreeOf (target : Marker) (a : Agenda) : Prop :=
  ∀ item ∈ a, item.isMarker target = false ∧ item.isMarker .call = false

/-- On the way to the marker there are ends of scopes, or there is nothing but what a search passes by. -/
theorem FreeOf.cases (h : FreeOf target a) :
    (∀ item ∈ a, item.isPassed target = true) ∨
      ∃ passed env closesCall after, (∀ item ∈ passed, item.isPassed target = true) ∧
        a = passed ++ .instr (.restore env closesCall) :: after ∧ FreeOf target after := by
  obtain ⟨passed, hpassed, ⟨after, rfl, -⟩ | ⟨env, closesCall, after, rfl, -⟩ | ⟨after, rfl, -⟩ | ⟨rfl, -⟩⟩ :=
    exists_searchLoop target a
  · have hmarker := (h _ (List.mem_append_right _ List.mem_cons_self)).1
    rw [Item.isMarker_iff.mpr rfl] at hmarker
    cases hmarker
  · refine .inr ⟨passed, env, closesCall, after, hpassed, rfl, fun item hitem => ?_⟩
    exact h item (List.mem_append_right _ (List.mem_cons_of_mem _ hitem))
  · exact absurd (h _ (List.mem_append_right _ List.mem_cons_self)).2 (by decide)
  · exact .inl hpassed

end Agenda

def State.left (s : State) (x a : Agenda) (readings : Nat) : State :=
  { s with
    agenda := a
    env := x.restores.getLast?.getD s.env
    calls := s.calls.forget x.closers
    steps := s.steps + 2 * x.restores.length
    readings }

/-- Leaving one scope and then the others is leaving all of them. -/
theorem State.left_left {s : State} {target : Marker} {env : Env} {closesCall : Bool} {passed after a b : Agenda}
    {readings readings' : Nat} (h : ∀ item ∈ passed, item.isPassed target = true) :
    (s.left [.instr (.restore env closesCall)] b readings).left after a readings' =
      s.left (passed ++ .instr (.restore env closesCall) :: after) a readings' := by
  have hclosers : (passed ++ .instr (.restore env closesCall) :: after : Agenda).closers =
      Agenda.closers [.instr (.restore env closesCall)] + Agenda.closers after := by
    rw [Agenda.closers_append, Agenda.closers_passed h, Nat.zero_add, ← Agenda.closers_append]
    rfl
  have hsteps : s.steps + 2 * 1 + 2 * (Agenda.restores after).length =
      s.steps + 2 * ((Agenda.restores after).length + 1) := by omega
  unfold State.left
  rw [Agenda.restores_stopped h, hclosers, CallStack.forget_add, List.getLast?_cons, List.length_cons, ← hsteps]
  rfl

namespace Machine

open Agenda

variable {p : Setting} {s s' : State} {i : Instr} {target : Marker} {keyword : String} {id : NodeId}
  {x rest : Agenda} {n k : Nat}

/-! ## 1. Steps without nodes -/

/-- An instruction is carried out once its step is counted, unless the step is one too many. -/
theorem advance_counted (hs : s.agenda = .instr i :: rest) :
    (advance p s).isLimited = true ∨ ∃ readings, advance p s =
      match execInstr p i { s with agenda := rest, steps := s.steps + 1, readings } with
      | .ok _ s' => .running s'
      | .error e s' => .failed (locateError p s' e) s' := by
  obtain ⟨readings, h | h⟩ := tick_counts p { s with agenda := rest }
  · have hexecute : execute p (.instr i) { s with agenda := rest } =
        execInstr p i { s with agenda := rest, steps := s.steps + 1, readings } := bind_of_ok h
    refine .inr ⟨readings, ?_⟩
    cases hx : execInstr p i { s with agenda := rest, steps := s.steps + 1, readings } with
    | ok _ s' => exact advanceBy_ok hs (hexecute.trans hx)
    | error e s' => exact advanceBy_error hs (hexecute.trans hx)
  · have hexecute := bind_of_error (f := fun _ => execInstr p i) h
    refine .inl ?_
    rw [advance, advanceBy_error hs hexecute]
    exact congrArg Fault.isResource (locateError_fault _ _ _)

theorem advance_counted_ok {f : Nat → State} (hs : s.agenda = .instr i :: rest)
    (h : ∀ readings, execInstr p i { s with agenda := rest, steps := s.steps + 1, readings } = .ok () (f readings)) :
    (advance p s).isLimited = true ∨ ∃ readings, advance p s = .running (f readings) := by
  obtain hlimit | ⟨readings, hrun⟩ := advance_counted (p := p) hs
  · exact .inl hlimit
  · rw [h readings] at hrun
    exact .inr ⟨readings, hrun⟩

/-- From `s` the machine comes to `s'` in `n` items, none of which is a node, and prints nothing. -/
structure Quietly (p : Setting) (n : Nat) (s s' : State) : Prop where
  run : travel p n s = .running s'
  items : ∀ entry ∈ journey p n s, entry.1.node? = none ∧ entry.2.output = s.output
  output : s'.output = s.output

theorem Quietly.one (hs : s.agenda = .instr i :: rest) (h : advance p s = .running s')
    (houtput : s'.output = s.output) : Quietly p 1 s s' where
  run := travelBy_running 0 h
  items := by
    rw [journey_succ hs h]
    exact List.forall_mem_singleton.mpr ⟨rfl, houtput⟩
  output := houtput

theorem Quietly.trans {s'' : State} (h : Quietly p n s s') (h' : Quietly p k s' s'') : Quietly p (n + k) s s'' where
  run := (travelBy_add k h.run).trans h'.run
  items := by
    rw [journey_add k h.run, List.forall_mem_append]
    exact ⟨h.items, fun entry hentry => ⟨(h'.items entry hentry).1, (h'.items entry hentry).2.trans h.output⟩⟩
  output := h'.output.trans h.output

theorem travel_one (p : Setting) (s : State) : travel p 1 s = advance p s := by
  rw [travel_succ]
  cases advance p s <;> rfl

/-- A run that has come to a limit is there for good. -/
theorem isLimited_add (k : Nat) (h : (travel p n s).isLimited = true) : (travel p (n + k) s).isLimited = true := by
  have hended : travel p (n + k) s = travel p n s :=
    travelBy_ended k rfl fun s' hrun => by rw [hrun] at h; cases h
  rw [hended, h]

/-! ## 2. Leaving scopes -/

/-- The jump searches for the marker, and says so by the keyword if there is none. -/
theorem execInstr_of_loopJump (hjump : i.jump? = some (.loop target keyword)) (hnode : i.nodes = [id]) :
    execInstr p i = leaveLoop p target keyword i id := by
  cases i with
  | breakLoop node => cases hjump; cases hnode; rfl
  | continueLoop node => cases hjump; cases hnode; rfl
  | _ => cases hjump

/-- A scope is left in two steps: the jump lets its end come first, and is next again behind it. -/
theorem leave_scope {env : Env} {closesCall : Bool} {passed : Agenda}
    (hexec : execInstr p i = leaveLoop p target keyword i id)
    (hs : s.agenda = .instr i :: (passed ++ .instr (.restore env closesCall) :: rest))
    (hpassed : ∀ item ∈ passed, item.isPassed target = true) :
    (travel p 2 s).isLimited = true ∨
      ∃ readings, Quietly p 2 s (s.left [.instr (.restore env closesCall)] (.instr i :: rest) readings) := by
  have hsearch : searchLoop target (passed ++ .instr (.restore env closesCall) :: rest) =
      .scope (.instr (.restore env closesCall)) rest := by
    rw [searchLoop_append _ hpassed, searchLoop_restore]
  have hfirst : ∀ readings, execInstr p i
      { s with agenda := passed ++ .instr (.restore env closesCall) :: rest, steps := s.steps + 1, readings } =
      .ok () { s with
        agenda := .instr (.restore env closesCall) :: .instr i :: rest, steps := s.steps + 1, readings } := by
    intro readings
    rw [hexec, leaveLoop_scope p hsearch]
  have hsecond : ∀ r : State, execInstr p (.restore env closesCall) r =
      .ok () { r with env, calls := if closesCall then r.calls.pop else r.calls } := by
    intro r
    cases closesCall with
    | true => rfl
    | false => rfl
  obtain hlimit | ⟨readings, hjump⟩ := advance_counted_ok hs hfirst
  · exact .inl (isLimited_add 1 ((congrArg Progress.isLimited (travel_one p s)).trans hlimit))
  · obtain hlimit | ⟨readings', hend⟩ := advance_counted_ok (p := p) (s := { s with
      agenda := .instr (.restore env closesCall) :: .instr i :: rest, steps := s.steps + 1, readings }) rfl
      fun readings => hsecond _
    · refine .inl ((congrArg Progress.isLimited (travelBy_running 1 hjump)).trans ?_)
      exact (congrArg Progress.isLimited (travel_one p _)).trans hlimit
    · have hquiet := (Quietly.one hs hjump rfl).trans (Quietly.one rfl hend rfl)
      refine .inr ⟨readings', ?_⟩
      cases closesCall with
      | true => exact hquiet
      | false => exact hquiet

/-- All scopes on the way to the marker, or to the end of the function, are left one after another. -/
theorem leave_scopes (hexec : execInstr p i = leaveLoop p target keyword i id) (hs : s.agenda = .instr i :: (x ++ rest))
    (hx : FreeOf target x) :
    (travel p (2 * x.restores.length) s).isLimited = true ∨
      ∃ passed readings, (∀ item ∈ passed, item.isPassed target = true) ∧
        Quietly p (2 * x.restores.length) s (s.left x (.instr i :: (passed ++ rest)) readings) := by
  -- On what there is in front of the marker: each end of a scope makes it less.
  induction hlength : x.length using Nat.strongRecOn generalizing x s with
  | ind k ih =>
    obtain hpassed | ⟨passed, env, closesCall, after, hpassed, rfl, hafter⟩ := hx.cases
    · have hnone := restores_passed hpassed
      refine .inr ⟨x, s.readings, hpassed, ?_⟩
      have hstill : s.left x (.instr i :: (x ++ rest)) s.readings = s := by
        rw [State.left, hnone, closers_passed hpassed, ← hs]
        rfl
      rw [hstill, hnone]
      exact ⟨rfl, fun _ h => absurd h List.not_mem_nil, rfl⟩
    · have hshorter : after.length < k := by
        rw [← hlength, List.length_append, List.length_cons]
        omega
      have hcount : 2 * (restores (passed ++ .instr (.restore env closesCall) :: after)).length =
          2 + 2 * (restores after).length := by
        rw [restores_stopped hpassed, List.length_cons]
        omega
      rw [List.append_assoc, List.cons_append] at hs
      rw [hcount]
      obtain hlimit | ⟨readings, hone⟩ := leave_scope hexec hs hpassed
      · exact .inl (isLimited_add _ hlimit)
      obtain hlimit | ⟨passed', readings', hpassed', hothers⟩ :=
        ih _ hshorter (s := s.left _ (.instr i :: (after ++ rest)) readings) rfl hafter rfl
      · refine .inl ?_
        rw [travel, travelBy_add _ hone.run]
        exact hlimit
      · refine .inr ⟨passed', readings', hpassed', ?_⟩
        rw [← State.left_left hpassed]
        exact hone.trans hothers

/-! ## 3. Leaving a loop -/

/-- From `s` the machine leaves a loop or a trip through it, with the work `x` dropped or carried out on the way and `a`
pending in the end. -/
structure Leaves (p : Setting) (x a : Agenda) (s s' : State) : Prop where
  /-- There are two steps for each end of a scope, and one for the marker. -/
  quietly : Quietly p (2 * x.restores.length + 1) s s'
  agenda : s'.agenda = a
  stash : s'.stash = .undefined :: s.stash
  /-- The scope left last is the one whose environment stays. -/
  env : s'.env = x.restores.getLast?.getD s.env
  calls : ∃ lost, s.calls.frames = s'.calls.frames ++ lost ∧ lost.size = x.closers
  scopes : s'.scopes = s.scopes
  heap : s'.heap = s.heap
  snapshots : s'.snapshots = s.snapshots

theorem leaves_loop (hexec : execInstr p i = leaveLoop p target keyword i id) {a : Agenda}
    (hs : s.agenda = .instr i :: (x ++ .instr (.marker target) :: a)) (hx : FreeOf target x)
    (hcalls : x.closers ≤ s.calls.depth) :
    (travel p (2 * x.restores.length + 1) s).isLimited = true ∨ ∃ s', Leaves p x a s s' := by
  obtain hlimit | ⟨passed, readings, hpassed, hscopes⟩ := leave_scopes hexec hs hx
  · exact .inl (isLimited_add 1 hlimit)
  have hsearch : searchLoop target (passed ++ .instr (.marker target) :: a) = .reached a := by
    rw [searchLoop_append _ hpassed, searchLoop_target]
  -- All scopes are left, so the search comes to the marker.
  obtain hlimit | ⟨readings', hrun⟩ := advance_counted_ok
    (s := s.left x (.instr i :: (passed ++ .instr (.marker target) :: a)) readings) rfl
    fun readings => (congrFun hexec _).trans (leaveLoop_reached p hsearch)
  · refine .inl ?_
    rw [travel, travelBy_add 1 hscopes.run]
    exact (congrArg Progress.isLimited (travel_one p _)).trans hlimit
  · refine .inr ⟨_, hscopes.trans (.one rfl hrun rfl), rfl, rfl, rfl, ?_, rfl, rfl, rfl⟩
    exact CallStack.exists_forgotten hcalls

/-- An error that has a place keeps it. -/
theorem locateError_locate (p : Setting) (s : State) (fault : Fault) (id : NodeId) (span : Span) :
    (locateError p s ((EvalError.ofFault fault).locate id span)).node = some id ∧
      (locateError p s ((EvalError.ofFault fault).locate id span)).span = some span := by
  unfold locateError
  dsimp only
  rw [(attachBacktrace_place _ _).1, (attachBacktrace_place _ _).2]
  split
  · exact ⟨rfl, rfl⟩
  · exact ⟨rfl, rfl⟩

theorem lacks_loop (hexec : execInstr p i = leaveLoop p target keyword i id) (htarget : target ≠ .call)
    (hs : s.agenda = .instr i :: (x ++ rest)) (hx : FreeOf target x)
    (hrest : ∀ item ∈ rest.head?, item = .instr (.marker .call)) :
    (travel p (2 * x.restores.length + 1) s).isLimited = true ∨
      ∃ e s', travel p (2 * x.restores.length + 1) s = .failed e s' ∧ e.fault = .controlOutsideLoop keyword ∧
        e.node = some id ∧ e.span = some (p.tree.span id) := by
  obtain hlimit | ⟨passed, readings, hpassed, hscopes⟩ := leave_scopes hexec hs hx
  · exact .inl (isLimited_add 1 hlimit)
  have hsearch : searchLoop target (passed ++ rest) = .outside := by
    rw [searchLoop_append _ hpassed]
    cases rest with
    | nil => rfl
    | cons item after =>
      obtain rfl := hrest item rfl
      exact searchLoop_call htarget after
  have hlast : travel p (2 * x.restores.length + 1) s = _ := (travelBy_add 1 hscopes.run).trans (travel_one p _)
  rw [hlast]
  obtain hlimit | ⟨readings', hfails⟩ := advance_counted (p := p)
    (s := s.left x (.instr i :: (passed ++ rest)) readings) rfl
  · exact .inl hlimit
  · rw [hexec, leaveLoop_outside p hsearch] at hfails
    obtain ⟨hnode, hspan⟩ := locateError_locate p _ (.controlOutsideLoop keyword) id (p.tree.span id)
    exact .inr ⟨_, _, hfails, locateError_fault _ _ _, hnode, hspan⟩

section

variable {σ : Type}

/-- **Leaving a loop.**  Let a jump be next, in whatever state of a run, and let `x` be what is pending in front of the
nearest marker that it searches for, or else in front of the end of the function or of all work.  If there is the
marker, the jump comes to it, having left the scopes of `x` one after another; no node is evaluated and nothing is
printed on the way.  If there is none, the jump fails at its node.  A limit of steps or of time may come first. -/
theorem leaving_a_loop (t : Tree) (config : Config) (hosts : List EmbeddedFunction) (output : Output)
    (clock : Nat → Nat) (rule : PauseRule σ) (memory : σ)
    (hs : (build t config hosts output clock rule memory).Reaches s)
    (hjump : i.jump? = some (.loop target keyword)) (hnode : i.nodes = [id])
    (hagenda : s.agenda = .instr i :: (x ++ rest)) (hx : FreeOf target x) :
    let p := (build t config hosts output clock rule memory).setting
    (∀ a, rest = .instr (.marker target) :: a →
      (travel p (2 * x.restores.length + 1) s).isLimited = true ∨ ∃ s', Leaves p x a s s') ∧
    ((∀ item ∈ rest.head?, item = .instr (.marker .call)) →
      (travel p (2 * x.restores.length + 1) s).isLimited = true ∨
        ∃ e s', travel p (2 * x.restores.length + 1) s = .failed e s' ∧ e.fault = .controlOutsideLoop keyword ∧
          e.node = some id ∧ e.span = some (t.span id)) := by
  intro p
  have hexec : execInstr p i = leaveLoop p target keyword i id := execInstr_of_loopJump hjump hnode
  refine ⟨?_, lacks_loop hexec (execInstr_of_jump (p := p) hjump).1 hagenda hx⟩
  rintro a rfl
  -- There are at least as many live calls as there are pending ends of calls.
  have hcalls : x.closers ≤ s.calls.depth := by
    refine Nat.le_trans ?_ hs.balanced.now.enough
    rw [hagenda, closers_cons, closers_append]
    omega
  exact leaves_loop hexec hagenda hx hcalls

end

end Machine

/-- The program `while (true) { const x = true; break; }`. -/
def Tree.leavingBlock : Tree where
  names := ⟨#["", "x"]⟩
  nodes := #[⟨.literal (.bool true), .dummy⟩, ⟨.declaration .constKind ⟨1⟩ ⟨0⟩, .dummy⟩, ⟨.breakStatement, .dummy⟩,
    ⟨.block [⟨1⟩, ⟨2⟩], .dummy⟩, ⟨.literal (.bool true), .dummy⟩, ⟨.whileLoop ⟨4⟩ ⟨3⟩, .dummy⟩,
    ⟨.program [⟨5⟩], .dummy⟩]
  root := ⟨6⟩
  accepted := by decide

def Tree.breakAlone : Tree where
  names := .initial
  nodes := #[⟨.breakStatement, ⟨0, 6⟩⟩, ⟨.program [⟨0⟩], ⟨0, 6⟩⟩]
  root := ⟨1⟩
  accepted := by decide

namespace Agenda

def before (target : Marker) (a : Agenda) : Agenda :=
  a.takeWhile fun item => !item.isMarker target && !item.isMarker .call

def onward (target : Marker) (a : Agenda) : Agenda :=
  a.dropWhile fun item => !item.isMarker target && !item.isMarker .call

theorem before_append_onward (target : Marker) (a : Agenda) : before target a ++ onward target a = a :=
  List.takeWhile_append_dropWhile

theorem freeOf_before (target : Marker) (a : Agenda) : FreeOf target (before target a) := by
  intro item hitem
  simpa using List.all_eq_true.mp List.all_takeWhile item hitem

theorem eq_of_head_isMarker {target : Marker} {a : Agenda} (h : a.head?.any (·.isMarker target) = true) :
    a = .instr (.marker target) :: a.tail := by
  cases a with
  | nil => cases h
  | cons item rest => rw [Item.isMarker_iff.mp h, List.tail_cons]

end Agenda

def Item.break? : Item → Option NodeId
  | .instr (.breakLoop id) => some id
  | _ => none

theorem State.agenda_of_break {s : State} {id : NodeId} (h : s.agenda.head?.bind Item.break? = some id) :
    s.agenda = .instr (.breakLoop id) ::
      (Agenda.before .loopEnd s.agenda.tail ++ Agenda.onward .loopEnd s.agenda.tail) := by
  rw [Agenda.before_append_onward]
  cases hagenda : s.agenda with
  | nil => rw [hagenda] at h; cases h
  | cons item rest =>
    rw [hagenda] at h
    cases item with
    | node id' => cases h
    | instr i =>
      cases i with
      | breakLoop id' => cases h; rfl
      | _ => cases h

namespace Machine

theorem leaving_a_loop_block :
    (let m := build .leavingBlock .standard [] default (fun _ => 0) .never ()
      ∃ s s' x a, m.Reaches s ∧ s.agenda = .instr (.breakLoop ⟨2⟩) :: (x ++ .instr (.marker .loopEnd) :: a) ∧
        x.restores.length = 1 ∧ Leaves m.setting x a s s') ∧
      let m := build .breakAlone .standard [] default (fun _ => 0) .never ()
      ∃ s e s', m.Reaches s ∧ travel m.setting 1 s = .failed e s' ∧ e.fault = .controlOutsideLoop "break" ∧
        e.node = some ⟨0⟩ ∧ e.span = some ⟨0, 6⟩ := by
  constructor
  · intro m
    have hrun : travel m.setting 12 m.state = .running (travel m.setting 12 m.state).state :=
      Progress.eq_running (by decide +kernel)
    generalize hs : (travel m.setting 12 m.state).state = s at hrun
    have hnext : s.agenda.head?.bind Item.break? = some ⟨2⟩ := by rw [← hs]; decide +kernel
    have hagenda := State.agenda_of_break hnext
    have hmarker : (Agenda.onward .loopEnd s.agenda.tail).head?.any (·.isMarker .loopEnd) = true := by
      rw [← hs]; decide +kernel
    have hrestores : (Agenda.before .loopEnd s.agenda.tail).restores.length = 1 := by rw [← hs]; decide +kernel
    have hfree : (travel m.setting 3 s).isLimited = false := by rw [← hs]; decide +kernel
    rw [Agenda.eq_of_head_isMarker hmarker] at hagenda
    have hreaches : m.Reaches s := reaches_iff.mpr ⟨12, hrun⟩
    obtain hlimit | ⟨s', hleaves⟩ := (leaving_a_loop .leavingBlock .standard [] default (fun _ => 0) .never () hreaches
      rfl rfl hagenda (Agenda.freeOf_before _ _)).1 _ rfl
    · rw [hrestores] at hlimit
      exact absurd (hfree.symm.trans hlimit) Bool.false_ne_true
    · exact ⟨s, s', _, _, hreaches, hagenda, hrestores, hleaves⟩
  · intro m
    have hrun : travel m.setting 2 m.state = .running (travel m.setting 2 m.state).state :=
      Progress.eq_running (by decide +kernel)
    generalize hs : (travel m.setting 2 m.state).state = s at hrun
    have hnext : s.agenda.head?.bind Item.break? = some ⟨0⟩ := by rw [← hs]; decide +kernel
    have hagenda := State.agenda_of_break hnext
    have hbottom : (Agenda.onward .loopEnd s.agenda.tail).isEmpty = true := by rw [← hs]; decide +kernel
    have hrestores : (Agenda.before .loopEnd s.agenda.tail).restores.length = 0 := by rw [← hs]; decide +kernel
    have hfree : (travel m.setting 1 s).isLimited = false := by rw [← hs]; decide +kernel
    rw [List.isEmpty_iff.mp hbottom] at hagenda
    have hreaches : m.Reaches s := reaches_iff.mpr ⟨2, hrun⟩
    have hfails := (leaving_a_loop .breakAlone .standard [] default (fun _ => 0) .never () hreaches
      rfl rfl hagenda (Agenda.freeOf_before _ _)).2 nofun
    rw [hrestores] at hfails
    obtain ⟨e, s', hfailed, hfault, hnode, hspan⟩ := hfails.resolve_left fun hlimit =>
      Bool.false_ne_true (hfree.symm.trans hlimit)
    exact ⟨s, e, s', hreaches, hfailed, hfault, hnode, hspan⟩

end Machine

end ExplicitControl
