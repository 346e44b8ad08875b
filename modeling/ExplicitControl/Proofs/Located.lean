import ExplicitControl.Proofs.Contracts
import ExplicitControl.Proofs.Moves
import ExplicitControl.Proofs.Safety

/-!
# Where errors are placed

A handler fails with an error of one of three kinds: one without a place, which is that of a limit or of a stash
without values; one that is placed at a node which the handler was given; and an overflow of calls, which has its
span from the call and its node from the handler.  All of these nodes are nodes of the tree.  No handler tells the
live calls.  So it is enough to complete an error once, after the handler: from the node evaluated last, unless there
is a place already, and from the live calls.
-/

namespace ExplicitControl

namespace Tree

/-- The span of a node is the one that it is written with. -/
theorem exists_span (t : Tree) {id : NodeId} (h : t.Has id) :
    ∃ node, t.node? id = some node ∧ t.span id = node.span := by
  obtain ⟨kind, hkind⟩ := h
  obtain ⟨node, hnode, -⟩ := Option.map_eq_some_iff.mp hkind
  exact ⟨node, hnode, by rw [span, hnode]; rfl⟩

end Tree

def Progress.error? : Progress → Option EvalError
  | .failed e _ => some e
  | _ => none

theorem Progress.exists_failed {α : Type} {progress : Progress} {f : EvalError → α} {a : α}
    (h : progress.error?.map f = some a) : ∃ e, progress = .failed e progress.state ∧ f e = a := by
  cases progress with
  | failed e s => exact ⟨e, rfl, Option.some.inj h⟩
  | running s => cases h
  | finished v s => cases h

namespace EvalError

variable {t : Tree} {e : EvalError}

def PlacedIn (t : Tree) (e : EvalError) : Prop :=
  ∃ id node, t.node? id = some node ∧ e.node = some id ∧ e.span = some node.span

def IsUnplaced (e : EvalError) : Prop :=
  e.span = none ∧ e.node = none

/-- What a handler may fail with: no calls are told yet, and there is no place or that of a node. -/
structure Raw (t : Tree) (e : EvalError) : Prop where
  untold : e.backtrace = none
  place : e.IsUnplaced ∨ e.PlacedIn t

theorem raw_ofFault (t : Tree) (fault : Fault) : (ofFault fault).Raw t :=
  ⟨rfl, .inl ⟨rfl, rfl⟩⟩

/-- An error without a number gets one, and keeps its span only if that is the one of the node. -/
theorem placedIn_locate {id : NodeId} (hid : t.Has id) (hnode : e.node = none)
    (hspan : ∀ span ∈ e.span, span = t.span id) : (e.locate id (t.span id)).PlacedIn t := by
  obtain ⟨node, hfound, hwritten⟩ := t.exists_span hid
  refine ⟨id, node, hfound, ?_, ?_⟩
  · show some (e.node.getD id) = some id
    rw [hnode, Option.getD_none]
  · show some (e.span.getD (t.span id)) = some node.span
    cases hs : e.span with
    | none => rw [Option.getD_none, hwritten]
    | some span => rw [Option.getD_some, hspan span hs, hwritten]

theorem raw_locate {id : NodeId} (hid : t.Has id) (fault : Fault) : ((ofFault fault).locate id (t.span id)).Raw t :=
  ⟨rfl, .inr (placedIn_locate hid rfl fun _ h => by cases h)⟩

end EvalError

/-- The node evaluated last is `c`, and every call stack, of the registers or of a captured continuation, tells an
error's `k` most recent calls. -/
structure State.Records (c : Option NodeId) (k : Nat) (s : State) : Prop where
  current : s.current = c
  calls : s.calls.traceFrames = k
  snapshots : ∀ kept ∈ s.snapshots, kept.calls.traceFrames = k

def Item.latest (item : Item) (c : Option NodeId) : Option NodeId :=
  match item with
  | .node id => some id
  | .instr _ => c

namespace Machine

/-! ## 1. Operations that fail at nodes of the tree -/

variable {c : Option NodeId} {k : Nat} {p : Setting}

def Contract.placing (p : Setting) (c : Option NodeId) (k : Nat) : Contract p where
  value _ _ := True
  item _ _ := True
  also s := s.Records c k
  allows e := e.Raw p.tree
  spot id := p.tree.Has id
  value_mono _ h := h
  item_mono _ h := h
  inert _ _ := trivial
  continuation _ := trivial
  spot_of_has h := h
  item_node _ := trivial
  item_instr _ _ := trivial
  same hs h := ⟨h.current.trans hs.current, h.calls.trans hs.calls, h.snapshots ▸ hs.snapshots⟩
  captured hs := by
    -- The calls that are kept tell as many of them as the live ones.
    refine { hs with snapshots := fun kept hkept => ?_ }
    rcases Array.mem_push.mp hkept with hkept | rfl
    · exact hs.snapshots kept hkept
    · exact hs.calls
  resumed hs hkept := { hs with calls := hs.snapshots _ hkept }
  bare _ := EvalError.raw_ofFault p.tree _
  placed _ hid := EvalError.raw_locate hid _
  missing := .inl fun hid => EvalError.raw_locate hid _

/-- A call that does not fit brings the span of the node along at which it is made. -/
theorem Contract.placing_allowsOverflow : (Contract.placing p c k).AllowsOverflow := by
  intro calls callee args node h
  refine ⟨rfl, .inr (EvalError.placedIn_locate h rfl ?_)⟩
  rintro span ⟨⟩
  rfl

theorem Contract.holds_placing {s : State} (hs : s.Records c k) : (Contract.placing p c k).Holds s :=
  holds_of_any (fun _ _ => trivial) (fun _ _ => trivial) hs

/-! ## 2. Steps -/

/-- A step fails because it is one too many, or while its item is carried out. -/
theorem places_execute (hp : p.PreludeOnly) {n : Nat} {item : Item} (hitem : item.InTree p.tree n) {s : State}
    (hs : s.Records c k) :
    Ensures (execute p item) s (fun _ s' => s'.Records (item.latest c) k) fun e s' =>
      (s'.Records c k ∧ s'.steps = s.steps + 1 ∧ e = .ofFault (.timeout (s.steps + 1))) ∨
        s'.Records (item.latest c) k ∧ e.Raw p.tree := by
  unfold execute
  rw [ensures_bind]
  refine ensures_count (fun readings => ?_) fun readings => .inl ⟨{ hs with }, rfl, rfl⟩
  cases item with
  | node id =>
    have hs' : State.Records (some id) k { s with steps := s.steps + 1, readings, current := some id } :=
      { hs with current := rfl }
    exact (Contract.meets_evalNode hitem (Contract.holds_placing hs') fun _ _ _ _ _ => trivial).mono
      (fun _ _ h => h.also) fun _ _ h => Or.inr h
  | instr i =>
    have hs' : State.Records c k { s with steps := s.steps + 1, readings } := { hs with }
    exact (Contract.meets_execInstr (Contract.hosted_of_preludeOnly _ hp) (Contract.holds_placing hs') hitem.1
      (fun _ _ => trivial)
      (fun _ _ _ _ => Contract.placing_allowsOverflow) fun _ _ _ hid => EvalError.raw_locate hid _).mono
      (fun _ _ h => h.also) fun _ _ h => Or.inr h

/-! ## 3. Completing an error -/

section

variable {p : Setting} {s : State} {e : EvalError}

/-- Live calls are told if there are any, and nothing has told them before. -/
theorem attachBacktrace_backtrace (c : CallStack) (he : e.backtrace = none) :
    (c.attachBacktrace e).backtrace = if c.depth = 0 then none else some c.capture := by
  unfold CallStack.attachBacktrace CallStack.isEmpty CallStack.depth
  rw [he, Option.isSome_none, Bool.or_false]
  by_cases hempty : c.frames.size = 0
  · rw [if_pos hempty, if_pos (by rw [Array.isEmpty, hempty]; rfl), he]
  · rw [if_neg hempty, if_neg (by rw [Array.isEmpty, decide_eq_true_eq]; exact hempty)]

theorem locateError_backtrace (p : Setting) (s : State) (he : e.backtrace = none) :
    (locateError p s e).backtrace = if s.calls.depth = 0 then none else some s.calls.capture := by
  refine attachBacktrace_backtrace _ ?_
  split
  · split
    · exact he
    · exact he
  · exact he

/-- An error that a handler fails with gets a place from the node evaluated last, unless it has one. -/
theorem placedIn_locateError {id : NodeId} (hcurrent : s.current = some id) (hid : p.tree.Has id) (he : e.Raw p.tree) :
    (locateError p s e).PlacedIn p.tree := by
  have placed : (if e.span.isNone then e.locate id (p.tree.span id) else e).PlacedIn p.tree := by
    obtain ⟨hspan, hnode⟩ | ⟨found, node, hfound, hnode, hspan⟩ := he.place
    · rw [hspan, Option.isNone_none, if_pos rfl]
      refine EvalError.placedIn_locate hid hnode fun span hs => ?_
      rw [hspan] at hs
      cases hs
    · rw [hspan, Option.isNone_some, if_neg Bool.false_ne_true]
      exact ⟨found, node, hfound, hnode, hspan⟩
  obtain ⟨found, node, hfound, hnode, hspan⟩ := placed
  unfold locateError
  rw [hcurrent]
  dsimp only
  exact ⟨found, node, hfound, (attachBacktrace_place _ _).1.trans hnode, (attachBacktrace_place _ _).2.trans hspan⟩

/-- Before any node has been evaluated there is no place to be had. -/
theorem isUnplaced_locateError (hcurrent : s.current = none) (he : e.IsUnplaced) : (locateError p s e).IsUnplaced := by
  unfold locateError
  rw [hcurrent]
  dsimp only
  exact ⟨(attachBacktrace_place _ _).2.trans he.1, (attachBacktrace_place _ _).1.trans he.2⟩

end

/-! ## 4. Runs -/

section

variable {σ : Type} {m : Machine σ} {s s' : State}

/-- A run that fails does so at the last of its steps. -/
theorem exists_failing_step {p : Setting} {n : Nat} {e : EvalError} (h : travel p n s = .failed e s') :
    ∃ k r, travel p k s = .running r ∧ advance p r = .failed e s' := by
  induction n generalizing s with
  | zero => cases h
  | succ n ih =>
    rw [travel_succ] at h
    cases ha : advance p s with
    | running s₁ =>
      rw [ha] at h
      obtain ⟨k, r, hr, hfails⟩ := ih h
      exact ⟨k + 1, r, (travelBy_running k ha).trans hr, hfails⟩
    | finished v s₁ => rw [ha] at h; cases h
    | failed e' s₁ =>
      rw [ha] at h
      cases h
      exact ⟨0, s, rfl, ha⟩

/-- A step that fails leaves the error of its item, completed. -/
theorem exists_error_of_advance {p : Setting} {e : EvalError} (h : advance p s = .failed e s') :
    ∃ item rest e₀, s.agenda = item :: rest ∧ execute p item { s with agenda := rest } = .error e₀ s' ∧
      e = locateError p s' e₀ := by
  cases hagenda : s.agenda with
  | nil => rw [advance_nil p hagenda] at h; cases h
  | cons item rest =>
    cases hx : execute p item { s with agenda := rest } with
    | ok _ r => rw [advance, advanceBy_ok hagenda hx] at h; cases h
    | error e₀ r =>
      rw [advance, advanceBy_error hagenda hx] at h
      cases h
      exact ⟨item, rest, e₀, rfl, hx, rfl⟩

/-- What a run knows of its place: it is within the tree, all call stacks tell `k` calls, and until a node is
evaluated the root is all that there is to do. -/
structure Oriented (t : Tree) (k : Nat) (s : State) : Prop where
  inTree : s.InTree t
  records : s.Records s.current k
  fresh : s.current = none → s.agenda = [.node t.root] ∧ s.steps = 0

theorem oriented_build (t : Tree) (config : Config) (hosts : List EmbeddedFunction) (output : Output)
    (clock : Nat → Nat) (rule : PauseRule σ) (memory : σ) :
    Oriented t config.traceFrames (build t config hosts output clock rule memory).state where
  inTree := inTree_build t config hosts output clock rule memory
  records := ⟨rfl, rfl, fun _ h => absurd h (Array.not_mem_empty _)⟩
  fresh := fun _ => ⟨rfl, rfl⟩

/-- As long as no node has been evaluated, the next item is one. -/
theorem Oriented.latest {t : Tree} {k : Nat} (h : Oriented t k s) {item : Item} {rest : Agenda}
    (hagenda : s.agenda = item :: rest) : item.latest s.current ≠ none := by
  cases item with
  | node id => exact Option.some_ne_none id
  | instr i =>
    intro hnone
    have := (h.fresh hnone).1
    rw [hagenda] at this
    cases this

/-- A step stays oriented, or fails with an error that is placed in the tree if at all; without a place, and before any
node is evaluated, only at the limit. -/
theorem oriented_execute {p : Setting} {k : Nat} (hp : p.PreludeOnly) (h : Oriented p.tree k s) {item : Item}
    {rest : Agenda} (hagenda : s.agenda = item :: rest) :
    Ensures (execute p item) { s with agenda := rest } (fun _ s' => Oriented p.tree k s') fun e s' =>
      s'.calls.traceFrames = k ∧ e.Raw p.tree ∧ (s'.current = none → s'.steps = 1 ∧ e = .ofFault (.timeout 1)) ∧
        ∀ id ∈ s'.current, p.tree.Has id := by
  have items := h.inTree.agenda
  rw [hagenda, List.forall_mem_cons] at items
  have hlatest : ∀ id ∈ item.latest s.current, p.tree.Has id := by
    cases item with
    | node id => rintro _ ⟨⟩; exact items.1
    | instr i => exact h.inTree.current
  have stays := inTree_execute hp items.1 (s := { s with agenda := rest }) { h.inTree with agenda := items.2 }
  have places := places_execute hp items.1 (s := { s with agenda := rest }) { h.records with }
  unfold Ensures at stays places ⊢
  cases hx : execute p item { s with agenda := rest } with
  | ok _ s' =>
    rw [hx] at stays places
    exact ⟨stays, { places with current := rfl },
      fun hnone => absurd (places.current.symm.trans hnone) (h.latest hagenda)⟩
  | error e s' =>
    rw [hx] at places
    obtain ⟨hs', hsteps, rfl⟩ | ⟨hs', he⟩ := places
    · refine ⟨hs'.calls, EvalError.raw_ofFault _ _, fun hnone => ?_, fun id hid => h.inTree.current id ?_⟩
      · have hzero : s.steps = 0 := (h.fresh (hs'.current.symm.trans hnone)).2
        exact ⟨by rw [hsteps, hzero], by dsimp only; rw [hzero]⟩
      · rwa [hs'.current] at hid
    · refine ⟨hs'.calls, he, fun hnone => absurd (hs'.current.symm.trans hnone) (h.latest hagenda), fun id hid => ?_⟩
      exact hlatest id (hs'.current ▸ hid)

theorem Reaches.oriented (hs : m.Reaches s) (hp : m.setting.PreludeOnly) {k : Nat}
    (start : Oriented m.setting.tree k m.state) : Oriented m.setting.tree k s :=
  hs.induct start fun _ _ _ _ _ hr hagenda hrun _ => (oriented_execute hp hr hagenda).of_advance hagenda hrun

end

end Machine

/-- Where an error says that it happened, when it leaves the registers in the state `s`. -/
structure EvalError.Located (t : Tree) (traceFrames : Nat) (s : State) (e : EvalError) : Prop where
  /-- Unless a node has been evaluated, the first step was one too many. -/
  unplaced : s.current = none → s.steps = 1 ∧ e.fault = .timeout 1 ∧ e.IsUnplaced
  /-- Otherwise the error has the number of a node of the tree, and the span of just that node. -/
  placed : s.current ≠ none → e.PlacedIn t
  /-- The live calls are told just if there are any. -/
  told : e.backtrace.isSome = true ↔ 0 < s.calls.depth
  /-- They are told most recent first, as many of them as may be. -/
  calls : ∀ b ∈ e.backtrace, b.frames = s.calls.frames.toList.reverse.take traceFrames ∧
    b.frames.length = min traceFrames s.calls.depth

namespace Machine

variable {σ : Type} (t : Tree) (config : Config) (output : Output) (clock : Nat → Nat) (rule : PauseRule σ) (memory : σ)

/-- Whatever tree a program is, and wherever a run of it fails: the error is placed at a node of the tree, or it
comes before the first node.  It tells the most recent of the calls that were live, up to the number that it may. -/
theorem failures_are_located {n : Nat} {e : EvalError} {s : State}
    (h : ((build t config [] output clock rule memory).runThrough n).progress = .failed e s) :
    e.Located t config.traceFrames s := by
  obtain ⟨k, -, hk⟩ := exists_travel (build t config [] output clock rule memory) n
  obtain ⟨j, r, hr, hfails⟩ := exists_failing_step (hk.symm.trans h)
  obtain ⟨item, rest, e₀, hagenda, hx, rfl⟩ := exists_error_of_advance hfails
  have hp := preludeOnly_build t config output clock rule memory
  have hr : (build t config [] output clock rule memory).Reaches r := reaches_iff.mpr ⟨j, hr⟩
  have hexecute := oriented_execute hp (hr.oriented hp (oriented_build t config [] output clock rule memory)) hagenda
  obtain ⟨hcalls, hraw, hfirst, hhas⟩ := (ensures_of_error hx).mp hexecute
  have hbacktrace := locateError_backtrace (build t config [] output clock rule memory).setting s hraw.untold
  refine ⟨fun hnone => ?_, fun hsome => ?_, ?_, fun b hb => ?_⟩
  · obtain ⟨hsteps, rfl⟩ := hfirst hnone
    exact ⟨hsteps, locateError_fault _ _ _, isUnplaced_locateError hnone ⟨rfl, rfl⟩⟩
  · obtain ⟨id, hid⟩ := Option.ne_none_iff_exists'.mp hsome
    exact placedIn_locateError hid (hhas id hid) hraw
  · rw [hbacktrace]
    by_cases hdepth : s.calls.depth = 0
    · rw [if_pos hdepth, hdepth]
      exact iff_of_false Bool.false_ne_true (Nat.lt_irrefl 0)
    · rw [if_neg hdepth]
      exact ⟨fun _ => Nat.pos_of_ne_zero hdepth, fun _ => rfl⟩
  · rw [hbacktrace] at hb
    split at hb
    · cases hb
    · cases hb
      have hframes : s.calls.capture.frames = s.calls.frames.toList.reverse.take config.traceFrames := by
        rw [CallStack.capture, hcalls]
      exact ⟨hframes, by rw [hframes, List.length_take, List.length_reverse, Array.length_toList]; rfl⟩

end Machine

/-- The program `(() => x)();`. -/
def Tree.unbound : Tree where
  names := ⟨#["", "x"]⟩
  nodes := #[⟨.identifier ⟨1⟩, ⟨7, 8⟩⟩, ⟨.function none [] (.expression ⟨0⟩), ⟨1, 8⟩⟩, ⟨.call ⟨1⟩ [], ⟨0, 11⟩⟩,
    ⟨.expressionStatement ⟨2⟩, ⟨0, 12⟩⟩, ⟨.program [⟨3⟩], ⟨0, 12⟩⟩]
  root := ⟨4⟩
  accepted := by decide

namespace Machine

/-- The name is written in a function and means nothing there, so its error is placed at the name, and the call of
the function is live.  With no time to take a step, the error is that of the limit, and has no place. -/
theorem failures_are_located_unbound :
    (let m := build .unbound .standard [] default (fun _ => 0) .never ()
      ∃ e s, (m.runThrough 9).progress = .failed e s ∧ e.Located .unbound 10 s ∧
        e.node = some ⟨0⟩ ∧ e.span = some ⟨7, 8⟩ ∧ s.calls.depth = 1) ∧
      let m := build .unbound { Config.standard with stepLimit := some 0 } [] default (fun _ => 0) .never ()
      ∃ e s, (m.runThrough 1).progress = .failed e s ∧ e.Located .unbound 10 s ∧ s.current = none := by
  constructor
  · intro m
    have hplace : (m.runThrough 9).progress.error?.map (fun e => (e.node, e.span)) =
        some (some ⟨0⟩, some ⟨7, 8⟩) := by decide +kernel
    have hdepth : (m.runThrough 9).progress.state.calls.depth = 1 := by decide +kernel
    obtain ⟨e, hfailed, hwhere⟩ := Progress.exists_failed hplace
    exact ⟨e, _, hfailed, failures_are_located .unbound .standard default (fun _ => 0) .never () hfailed,
      congrArg Prod.fst hwhere, congrArg Prod.snd hwhere, hdepth⟩
  · intro m
    have hfails : (m.runThrough 1).progress.error?.map (fun _ => ()) = some () := by decide +kernel
    have hcurrent : (m.runThrough 1).progress.state.current = none := by decide +kernel
    obtain ⟨e, hfailed, -⟩ := Progress.exists_failed hfails
    exact ⟨e, _, hfailed, failures_are_located .unbound _ default (fun _ => 0) .never () hfailed, hcurrent⟩

end Machine

end ExplicitControl
