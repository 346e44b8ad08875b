import ExplicitControl.Proofs.TailCalls

/-!
# Jumps stay in their function

Of the calls that are live, the innermost is the one whose end is pending first.  In a well-placed tree its
function has a marker right in front of that end, and no other in between, so `return` comes to just this end, and
the search for a loop stops before it.  Without a loop inside of the function the search fails.  An arrow whose
expression is a jump has no marker: there the jump goes on in the caller.
-/

namespace ExplicitControl

/-! ## 1. Jumps -/

/-- What a jump searches for, with the word that it is written by; a `return` searches for no loop. -/
inductive Jump where
  | leave
  | loop (target : Marker) (keyword : String)

def NodeKind.jump? : NodeKind → Option Jump
  | .returnStatement _ => some .leave
  | .breakStatement => some (.loop .loopEnd "break")
  | .continueStatement => some (.loop .tripEnd "continue")
  | _ => none

def Instr.jump? : Instr → Option Jump
  | .reset => some .leave
  | .breakLoop _ => some (.loop .loopEnd "break")
  | .continueLoop _ => some (.loop .tripEnd "continue")
  | _ => none

def Item.jump? (t : Tree) : Item → Option Jump
  | .node id => (t.kind? id).bind NodeKind.jump?
  | .instr i => i.jump?

/-- The work `inside` belongs to the innermost call that is live, which ends with the first item of `b`. -/
structure Agenda.InsideCall (inside b : Agenda) : Prop where
  live : closers inside = 0
  ends : b.endsCall = true

namespace Agenda

variable {inside front b : Agenda}

/-- Where the way is clear, the innermost call has its own marker right in front of its end, and no other. -/
theorem InsideCall.marker (h : InsideCall inside b) (htidy : (inside ++ b).Tidy)
    (hclear : isClear (inside ++ b) = true) :
    ∃ front, inside = front ++ [.instr (.marker .call)] ∧ unwindCall (inside ++ b) = b := by
  have hmarker : .instr (.marker .call) ∈ inside ++ b :=
    List.mem_append_left _ (mem_marker_of_clear h.ends inside hclear)
  have hends := htidy.endsCall_unwindCall hmarker
  -- The marker is in front of an end with as many others behind it as the first of `b` has.
  have hclosers : closers (unwindCall (inside ++ b)) = closers b := by
    rw [closers_unwindCall hclear, closers_append, h.live, Nat.zero_add]
  have hunwind : unwindCall (inside ++ b) = b :=
    eq_of_closers (unwindCall_suffix _) (List.suffix_append inside b) hends h.ends hclosers
  obtain ⟨front, -, heq⟩ | ⟨hnone, -⟩ := unwindCall_cases (inside ++ b)
  · rw [hunwind, List.append_cons] at heq
    exact ⟨front, List.append_cancel_right heq, hunwind⟩
  · exact absurd (hnone _ hmarker) (by decide)

theorem InsideCall.append {items : List Item} (h : InsideCall inside b)
    (hitems : ∀ item ∈ items, item.closesCall = false) :
    InsideCall (items ++ inside) b := by
  refine ⟨?_, h.ends⟩
  rw [closers_append, h.live, Nat.add_zero]
  exact closers_eq_zero hitems

theorem InsideCall.suffix {c : Agenda} (h : InsideCall inside b) (hc : c <:+ inside) : InsideCall c b :=
  ⟨Nat.le_zero.mp (h.live ▸ closers_suffix hc), h.ends⟩

/-- No item inside of the innermost call ends a call. -/
theorem InsideCall.closesCall (h : InsideCall inside b) {item : Item} (hitem : item ∈ inside) :
    item.closesCall = false := by
  have hnone := List.countP_eq_zero.mp h.live item hitem
  simpa using hnone

/-! ## 2. Searches -/

variable {target : Marker} {rest : Agenda} {item : Item}

/-- A search inside of a function ends at a loop or at the end of a scope that is inside as well, or it fails. -/
theorem searchLoop_inside (htarget : target ≠ .call) (front b : Agenda) :
    (∃ after, .instr (.marker target) :: after <:+ front ∧
        searchLoop target (front ++ .instr (.marker .call) :: b) = .reached (after ++ .instr (.marker .call) :: b)) ∨
      (∃ env closesCall after, .instr (.restore env closesCall) :: after <:+ front ∧
        searchLoop target (front ++ .instr (.marker .call) :: b) =
          .scope (.instr (.restore env closesCall)) (after ++ .instr (.marker .call) :: b)) ∨
      searchLoop target (front ++ .instr (.marker .call) :: b) = .outside := by
  obtain ⟨dropped, hdropped, ⟨after, rfl, -⟩ | ⟨env, closesCall, after, rfl, -⟩ | ⟨after, rfl, -⟩ | ⟨rfl, -⟩⟩ :=
    exists_searchLoop target front
  · refine .inl ⟨after, List.suffix_append _ _, ?_⟩
    rw [List.append_assoc, searchLoop_append _ hdropped, List.cons_append, searchLoop_target]
  · refine .inr (.inl ⟨env, closesCall, after, List.suffix_append _ _, ?_⟩)
    rw [List.append_assoc, searchLoop_append _ hdropped, List.cons_append, searchLoop_restore]
  · refine .inr (.inr ?_)
    rw [List.append_assoc, searchLoop_append _ hdropped, List.cons_append, searchLoop_call htarget]
  · refine .inr (.inr ?_)
    rw [searchLoop_append _ hdropped, searchLoop_call htarget]

end Agenda

namespace Machine

open Agenda

variable {p : Setting} {s s' : State} {inside front b : Agenda} {item : Item} {jump : Jump}

theorem isStatementWork_of_jump {t : Tree} (h : item.jump? t = some jump) : item.isStatementWork t = true := by
  cases item with
  | node id =>
    obtain ⟨kind, hkind, hjump⟩ := Option.bind_eq_some_iff.mp h
    rw [Item.isStatementWork, Tree.isStatement_of_kind hkind]
    cases kind <;> first | rfl | cases hjump
  | instr i => cases i <;> first | rfl | cases h

theorem not_isPlainInstr_of_jump {i : Instr} (h : i.jump? = some jump) : ¬isPlainInstr i = true := by
  cases i with
  | reset | breakLoop node | continueLoop node => exact Bool.false_ne_true
  | _ => cases h

theorem target_ne_call {i : Instr} {target : Marker} (h : i.target? = some target) : target ≠ .call := by
  cases i <;> cases h <;> decide

/-! ## 3. Where a jump leads -/

/-- A step of a jump stays inside of the call, and leaves all calls live. -/
theorem Move.confined (h : Move p s s' item) (hjump : item.jump? p.tree = some jump)
    (hagenda : s.agenda = inside ++ b) (hfront : inside = front ++ [.instr (.marker .call)])
    (hunwind : unwindCall (inside ++ b) = b) (hinside : InsideCall inside b) :
    ∃ inside', s'.agenda = inside' ++ b ∧ InsideCall inside' b ∧ s'.calls = s.calls := by
  have hnil : InsideCall [] b := ⟨rfl, hinside.ends⟩
  have hsearched : s.agenda = front ++ .instr (.marker .call) :: b := by
    rw [hagenda, hfront, List.append_assoc]
    rfl
  -- What is behind a place inside of the function is the rest of the function.
  have behind : ∀ {after : Agenda}, after <:+ front →
      after ++ .instr (.marker .call) :: b = (after ++ [.instr (.marker .call)]) ++ b ∧
        InsideCall (after ++ [.instr (.marker .call)]) b := by
    rintro after ⟨dropped, rfl⟩
    refine ⟨by rw [List.append_assoc]; rfl, hinside.suffix ?_⟩
    rw [hfront, List.append_assoc]
    exact List.suffix_append _ _
  cases h with
  | @plain id kind hkind hopened hgoes hagenda' hstill =>
    have hkindJump : kind.jump? = some jump := by simpa [Item.jump?, hkind] using hjump
    refine ⟨kindItems p id kind ++ inside, ?_, hinside.append fun item hitem => ?_, hstill.calls⟩
    · rw [hagenda', hagenda, List.append_assoc]
      cases kind <;> first | rfl | cases hkindJump
    · exact Item.closesCall_of_not_isRestore (Item.not_isRestore_of_isQuiet (isQuiet_kindItems _ _ item hitem))
  | @scope id kind name hkind hopened hagenda' hcalls hsnapshots hmade hnames =>
    have hkindJump : kind.jump? = some jump := by simpa [Item.jump?, hkind] using hjump
    cases kind <;> first | exact absurd rfl hopened | cases hkindJump
  | @returned id argument hkind hagenda' hstash hstill =>
    have hvalue : (returnItem argument).closesCall = false := by cases argument <;> rfl
    rw [hagenda, hunwind] at hagenda'
    split at hagenda'
    · exact ⟨[returnItem argument], hagenda', hnil.append (List.forall_mem_singleton.mpr hvalue), hstill.calls⟩
    · refine ⟨[returnItem argument, .instr .reset] ++ inside, by rw [hagenda', List.append_assoc]; rfl, ?_,
        hstill.calls⟩
      exact hinside.append (List.forall_mem_cons.mpr ⟨hvalue, List.forall_mem_singleton.mpr rfl⟩)
  | instr hplain hoffered hagenda' hstill => exact absurd hplain (not_isPlainInstr_of_jump hjump)
  | reset hagenda' hstash hstill =>
    rw [hagenda, hunwind] at hagenda'
    exact ⟨[], hagenda', hnil, hstill.calls⟩
  | @reached i target rest htarget hsearch hagenda' hstash hstill =>
    rw [hsearched] at hsearch
    obtain ⟨after, hafter, heq⟩ | ⟨env, closesCall, after, -, heq⟩ | heq :=
      searchLoop_inside (target_ne_call htarget) front b <;> rw [heq] at hsearch <;> cases hsearch
    obtain ⟨hrest, hlive⟩ := behind ((List.suffix_cons _ _).trans hafter)
    exact ⟨_, hagenda'.trans hrest, hlive, hstill.calls⟩
  | @stopped i target item rest htarget hsearch hagenda' hstash hstill =>
    rw [hsearched] at hsearch
    obtain ⟨after, -, heq⟩ | ⟨env, closesCall, after, hafter, heq⟩ | heq :=
      searchLoop_inside (target_ne_call htarget) front b <;> rw [heq] at hsearch <;> cases hsearch
    obtain ⟨hrest, hlive⟩ := behind ((List.suffix_cons _ _).trans hafter)
    have hscope : (Item.instr (.restore env closesCall)).closesCall = false := by
      refine hinside.closesCall ?_
      rw [hfront]
      exact List.mem_append_left _ (hafter.subset List.mem_cons_self)
    have hjumps : (Item.instr i).closesCall = false := by cases i <;> first | rfl | cases htarget
    refine ⟨[.instr (.restore env closesCall), .instr i] ++ (after ++ [.instr (.marker .call)]), ?_, ?_, hstill.calls⟩
    · rw [hagenda', hrest]
      rfl
    · exact hlive.append (List.forall_mem_cons.mpr ⟨hscope, List.forall_mem_singleton.mpr hjumps⟩)
  | _ => cases hjump

/-! ## 4. Searches that fail -/

/-- The machine fails because a jump has found no loop, unless a limit of steps or of time comes first. -/
def LacksLoop (p : Setting) (keyword : String) (s : State) : Prop :=
  ∃ n e s', travel p n s = .failed e s' ∧ (e.fault = .controlOutsideLoop keyword ∨ ∃ steps, e.fault = .timeout steps)

variable {keyword : String} {target : Marker} {i : Instr}

theorem LacksLoop.step {rest : Agenda} (hs : s.agenda = item :: rest)
    (h : Ensures (execute p item) { s with agenda := rest } (fun _ s' => LacksLoop p keyword s')
      fun e _ => e.fault = .controlOutsideLoop keyword ∨ ∃ steps, e.fault = .timeout steps) :
    LacksLoop p keyword s := by
  unfold Ensures at h
  cases hx : execute p item { s with agenda := rest } with
  | ok a s₁ =>
    rw [hx] at h
    obtain ⟨n, e, s', hrun, he⟩ := h
    exact ⟨n + 1, e, s', (travelBy_running n (advanceBy_ok hs hx)).trans hrun, he⟩
  | error e s₁ =>
    rw [hx] at h
    exact ⟨1, _, s₁, travelBy_failed 0 (advanceBy_error hs hx), by rwa [locateError_fault]⟩

theorem LacksLoop.instr {rest : Agenda} (hs : s.agenda = .instr i :: rest)
    (h : ∀ steps readings, Ensures (execInstr p i) { s with agenda := rest, steps, readings }
      (fun _ s' => LacksLoop p keyword s') fun e _ => e.fault = .controlOutsideLoop keyword) :
    LacksLoop p keyword s := by
  refine LacksLoop.step hs ?_
  unfold execute
  rw [ensures_bind]
  refine ensures_tick (fun steps readings => ?_) fun _ _ n => .inr ⟨n, rfl⟩
  exact (h steps readings).mono (fun _ _ h => h) fun _ _ h => .inl h

theorem execInstr_of_jump (h : i.jump? = some (.loop target keyword)) :
    target ≠ .call ∧ ∃ node, execInstr p i = leaveLoop p target keyword i node := by
  cases i with
  | breakLoop node => cases h; exact ⟨by decide, node, rfl⟩
  | continueLoop node => cases h; exact ⟨by decide, node, rfl⟩
  | _ => cases h

/-- Without a loop of its own around it, a jump leaves the scopes of the function one after another, and fails at
the function's marker. -/
theorem lacksLoop_of_marker (hjump : i.jump? = some (.loop target keyword))
    (hs : s.agenda = .instr i :: (front ++ .instr (.marker .call) :: b)) (hnone : .instr (.marker target) ∉ front) :
    LacksLoop p keyword s := by
  obtain ⟨htarget, node, hexec⟩ := execInstr_of_jump (p := p) hjump
  -- On what there is of the function behind the jump: each end of a scope makes it less.
  induction hlength : front.length using Nat.strongRecOn generalizing front s with
  | ind k ih =>
    refine LacksLoop.instr hs fun steps readings => ?_
    rw [hexec]
    obtain ⟨after, hafter, hsearch⟩ | ⟨env, closesCall, after, hafter, hsearch⟩ | hsearch :=
      searchLoop_inside htarget front b
    · exact absurd (hafter.subset List.mem_cons_self) hnone
    · rw [ensures_of_ok (leaveLoop_scope p hsearch)]
      refine LacksLoop.instr rfl fun steps readings => ?_
      have hshorter : after.length < k := hlength ▸ hafter.length_le
      have hstill : .instr (.marker target) ∉ after := fun h => hnone (hafter.subset (List.mem_cons_of_mem _ h))
      cases closesCall with
      | true => exact ih _ hshorter rfl hstill rfl
      | false => exact ih _ hshorter rfl hstill rfl
    · rw [ensures_of_error (leaveLoop_outside p hsearch)]
      rfl

theorem lacksLoop_of_node {id : NodeId} {kind : NodeKind} (hkind : p.tree.kind? id = some kind)
    (hjump : kind.jump? = some (.loop target keyword))
    (hs : s.agenda = .node id :: (front ++ .instr (.marker .call) :: b)) (hnone : .instr (.marker target) ∉ front) :
    LacksLoop p keyword s := by
  refine LacksLoop.step hs ?_
  unfold execute evalNode
  rw [ensures_bind]
  refine ensures_tick (fun steps readings => ?_) fun _ _ n => .inr ⟨n, rfl⟩
  rw [ensures_bind, ensures_modify, ensures_bind, ensures_kindOf hkind]
  cases kind with
  | breakStatement => cases hjump; exact lacksLoop_of_marker (i := .breakLoop id) rfl rfl hnone
  | continueStatement => cases hjump; exact lacksLoop_of_marker (i := .continueLoop id) rfl rfl hnone
  | _ => cases hjump

/-! ## 5. Runs -/

section

variable {σ : Type}

/-- **Control stays in the function that it is in.**  Let a jump be next, in whatever state of a run, and let `b`
begin with the end of the innermost call that is live.  If the tree is well-placed, the jump stays in front of `b`
and leaves all calls live.  A `return` has its value evaluated in front of `b`, or of a `reset`, which comes to `b`
and nowhere else; the jump of `break` or `continue` fails if there is no loop in front of `b`, unless a limit of
steps or of time comes first. -/
theorem jumps_stay_inside (t : Tree) (config : Config) (hosts : List EmbeddedFunction) (output : Output)
    (clock : Nat → Nat) (rule : PauseRule σ) (memory : σ) (ht : t.WellPlaced) {s : State} {item : Item}
    {inside b : Agenda} {jump : Jump} (hs : (build t config hosts output clock rule memory).Reaches s)
    (hagenda : s.agenda = item :: (inside ++ b)) (hjump : item.jump? t = some jump) (hinside : InsideCall inside b) :
    let p := (build t config hosts output clock rule memory).setting
    (∀ s', advance p s = .running s' →
      (∃ inside', s'.agenda = inside' ++ b ∧ InsideCall inside' b ∧ s'.calls = s.calls) ∧
        match item with
        | .node id => ∀ argument, t.kind? id = some (.returnStatement argument) →
          s'.agenda = returnItem argument :: b ∨ s'.agenda = returnItem argument :: .instr .reset :: (inside ++ b)
        | .instr .reset => s'.agenda = b
        | .instr _ => True) ∧
      ∀ target keyword, jump = .loop target keyword → .instr (.marker target) ∉ inside → LacksLoop p keyword s := by
  intro p
  have hclear : isClear (inside ++ b) = true := by
    have hplaced := hs.balanced.now.placed ht
    rw [hagenda] at hplaced
    exact hplaced.1 (isStatementWork_of_jump hjump)
  have htidy : (inside ++ b).Tidy := hs.tidy.agenda.suffix (hagenda ▸ List.suffix_cons _ _)
  obtain ⟨front, hfront, hunwind⟩ := hinside.marker htidy hclear
  refine ⟨fun s' hrun => ?_, fun target keyword hloop hnone => ?_⟩
  · have hmove := move_of_advance hagenda hrun
    refine ⟨hmove.confined hjump rfl hfront hunwind hinside, ?_⟩
    cases hmove with
    | plain hkind hopened hgoes =>
      exact fun argument hkind' =>
        absurd (Option.some.inj (hkind.symm.trans hkind')) (hgoes argument)
    | scope hkind hopened =>
      rintro argument hkind'
      cases hkind.symm.trans hkind'
      exact absurd rfl hopened
    | returned hkind hagenda' =>
      rintro argument hkind'
      cases hkind.symm.trans hkind'
      rw [hagenda', hunwind]
      split
      · exact .inl rfl
      · exact .inr rfl
    | reset hagenda' => exact hagenda'.trans hunwind
    | instr hplain => exact absurd hplain (not_isPlainInstr_of_jump hjump)
    | @reached i target rest htarget => cases i <;> trivial
    | @stopped i target item rest htarget => cases i <;> trivial
    | _ => trivial
  · subst hloop
    have hbehind : inside ++ b = front ++ .instr (.marker .call) :: b := by
      rw [hfront, List.append_assoc]
      rfl
    have hfree : .instr (.marker target) ∉ front := fun h => hnone (hfront ▸ List.mem_append_left _ h)
    rw [hbehind] at hagenda
    cases item with
    | instr i => exact lacksLoop_of_marker hjump hagenda hfree
    | node id =>
      obtain ⟨kind, hkind, hjump⟩ := Option.bind_eq_some_iff.mp hjump
      exact lacksLoop_of_node hkind hjump hagenda hfree

end

end Machine

/-! ### Three programs -/

def State.endsWith (id : NodeId) (s : State) : Bool :=
  match s.agenda with
  | .node next :: .instr (.marker .call) :: b => next == id && Agenda.endsCall b
  | _ => false

theorem State.exists_of_endsWith {id : NodeId} {s : State} (h : s.endsWith id = true) :
    ∃ b, s.agenda = .node id :: ([.instr (.marker .call)] ++ b) ∧ Agenda.InsideCall [.instr (.marker .call)] b := by
  unfold endsWith at h
  split at h
  next next b hagenda =>
    rw [Bool.and_eq_true] at h
    exact ⟨b, by rw [hagenda, eq_of_beq h.1]; rfl, rfl, h.2⟩
  · cases h

/-- A loop that calls an arrow whose expression is a `break`. -/
def Tree.breaking : Tree where
  names := .initial
  nodes := #[⟨.breakStatement, .dummy⟩, ⟨.function none [] (.expression ⟨0⟩), .dummy⟩, ⟨.call ⟨1⟩ [], .dummy⟩,
    ⟨.expressionStatement ⟨2⟩, .dummy⟩, ⟨.literal (.bool true), .dummy⟩, ⟨.whileLoop ⟨4⟩ ⟨3⟩, .dummy⟩,
    ⟨.program [⟨5⟩], .dummy⟩]
  root := ⟨6⟩
  accepted := by decide

/-- A function that calls an arrow whose expression is a `return`, and has an empty block after that. -/
def Tree.returning : Tree where
  names := .initial
  nodes := #[⟨.returnStatement none, .dummy⟩, ⟨.function none [] (.expression ⟨0⟩), .dummy⟩, ⟨.call ⟨1⟩ [], .dummy⟩,
    ⟨.expressionStatement ⟨2⟩, .dummy⟩, ⟨.block [], .dummy⟩, ⟨.function none [] (.block [⟨3⟩, ⟨4⟩]), .dummy⟩,
    ⟨.call ⟨5⟩ [], .dummy⟩, ⟨.expressionStatement ⟨6⟩, .dummy⟩, ⟨.program [⟨7⟩], .dummy⟩]
  root := ⟨8⟩
  accepted := by decide

def State.jumpsAtEnd (jump : Instr) (s : State) : Bool :=
  match s.agenda with
  | .instr (.breakLoop id) :: b => (match jump with | .breakLoop id' => id == id' | _ => false) && Agenda.endsCall b
  | .instr .reset :: b => (match jump with | .reset => true | _ => false) && Agenda.endsCall b
  | _ => false

theorem State.exists_of_jumpsAtEnd {jump : Instr} {s : State} (h : s.jumpsAtEnd jump = true) :
    ∃ b, s.agenda = .instr jump :: ([] ++ b) ∧ Agenda.InsideCall [] b := by
  unfold jumpsAtEnd at h
  split at h
  next id b hagenda =>
    rw [Bool.and_eq_true] at h
    obtain ⟨hjump, hends⟩ := h
    cases jump with
    | breakLoop id' => exact ⟨b, by rw [hagenda, eq_of_beq hjump]; rfl, rfl, hends⟩
    | _ => cases hjump
  next b hagenda =>
    rw [Bool.and_eq_true] at h
    obtain ⟨hjump, hends⟩ := h
    cases jump with
    | reset => exact ⟨b, hagenda, rfl, hends⟩
    | _ => cases hjump
  · cases h

namespace Machine

open Agenda

theorem jumps_stay_inside_sample :
    let m := build .sample .standard [] default (fun _ => 0) .never ()
    Tree.sample.WellPlaced ∧ ∃ s b, m.Reaches s ∧ s.agenda = .node ⟨1⟩ :: ([.instr (.marker .call)] ++ b) ∧
      (Item.node ⟨1⟩).jump? Tree.sample = some .leave ∧ InsideCall [.instr (.marker .call)] b ∧
        ∀ s', advance m.setting s = .running s' → ∃ inside, s'.agenda = inside ++ b ∧ s'.calls = s.calls := by
  intro m
  have hrunning : (m.runThrough 5).progress.isRunning = true := by decide +kernel
  have hends : (m.runThrough 5).progress.state.endsWith ⟨1⟩ = true := by decide +kernel
  obtain ⟨b, hagenda, hinside⟩ := State.exists_of_endsWith hends
  have hs : m.Reaches (m.runThrough 5).progress.state := ⟨5, Progress.eq_running hrunning⟩
  refine ⟨Tree.sample_wellPlaced, _, b, hs, hagenda, rfl, hinside, fun s' hrun => ?_⟩
  obtain ⟨⟨inside, hagenda', -, hcalls⟩, -⟩ := (jumps_stay_inside .sample .standard [] default (fun _ => 0) .never ()
    Tree.sample_wellPlaced hs hagenda rfl hinside).1 s' hrun
  exact ⟨inside, hagenda', hcalls⟩

theorem not_lacksLoop_of_finished {p : Setting} {keyword : String} {n : Nat} {s : State}
    (h : (travel p n s).isFinished = true) : ¬LacksLoop p keyword s := by
  rintro ⟨k, e, s', hfailed, -⟩
  have hlonger := travelBy_ended n hfailed nofun
  have hended := travelBy_ended k (r := travel p n s) rfl fun s' hrun => by rw [hrun] at h; cases h
  rw [Nat.add_comm, hlonger] at hended
  rw [← hended] at h
  cases h

/-- Without statements where statements belong, jumps leave their function.  The `break` of an arrow, which has no
loop, ends the loop that calls the arrow.  The `return` of an arrow drops the end of its call. -/
theorem jumps_leave_arrows :
    (let m := build .breaking .standard [] default (fun _ => 0) .never ()
      ∃ s b, m.Reaches s ∧ s.agenda = .instr (.breakLoop ⟨0⟩) :: ([] ++ b) ∧ InsideCall [] b ∧
        ¬LacksLoop m.setting "break" s) ∧
      let m := build .returning .standard [] default (fun _ => 0) .never ()
      ∃ s b s', m.Reaches s ∧ s.agenda = .instr .reset :: ([] ++ b) ∧ InsideCall [] b ∧
        advance m.setting s = .running s' ∧ ¬b <:+ s'.agenda := by
  constructor
  · intro m
    have hrunning : (m.runThrough 11).progress.isRunning = true := by decide +kernel
    have hjumps : (m.runThrough 11).progress.state.jumpsAtEnd (.breakLoop ⟨0⟩) = true := by decide +kernel
    have hfinished : (travel m.setting 5 (m.runThrough 11).progress.state).isFinished = true := by decide +kernel
    obtain ⟨b, hagenda, hinside⟩ := State.exists_of_jumpsAtEnd hjumps
    exact ⟨_, b, ⟨11, Progress.eq_running hrunning⟩, hagenda, hinside, not_lacksLoop_of_finished hfinished⟩
  · intro m
    have hrunning : (m.runThrough 11).progress.isRunning = true := by decide +kernel
    have hjumps : (m.runThrough 11).progress.state.jumpsAtEnd .reset = true := by decide +kernel
    have hgoes : (advance m.setting (m.runThrough 11).progress.state).isRunning = true := by decide +kernel
    have hshorter : (advance m.setting (m.runThrough 11).progress.state).state.agenda.length + 1 <
        (m.runThrough 11).progress.state.agenda.length := by decide +kernel
    obtain ⟨b, hagenda, hinside⟩ := State.exists_of_jumpsAtEnd hjumps
    refine ⟨_, b, _, ⟨11, Progress.eq_running hrunning⟩, hagenda, hinside, Progress.eq_running hgoes, fun hsuffix => ?_⟩
    rw [hagenda, List.nil_append, List.length_cons] at hshorter
    exact absurd hsuffix.length_le (Nat.not_le.mpr (Nat.lt_of_succ_lt_succ hshorter))

end Machine

end ExplicitControl
