import ExplicitControl.Proofs.Faults
import ExplicitControl.Proofs.Placement
import ExplicitControl.Proofs.Travel

/-!
# Conversions extend checks

Without runtime checks operands are converted instead of refused.  Whatever a checked operation accepts needs
no conversion, so the operation without checks gives the same: a run in a checked language that does not end
in a type mismatch is, state by state, the run in the native language.
-/

namespace ExplicitControl

/-! ## 1. Values -/

/-- The second result is the first, unless the first is a type mismatch. -/
def Fault.Extends {α : Type} (r r' : Except Fault α) : Prop :=
  r' = r ∨ ∃ fault, r = .error fault ∧ fault.isTypeMismatch = true

theorem UnaryOp.eval_extends (op : UnaryOp) (operand : Value) (checks : RuntimeChecks) :
    Fault.Extends (op.eval operand checks) (op.eval operand .none) := by
  -- A check either accepts the operand as it is or fails.
  cases hchecks : checks.unary with
  | false => cases op <;> cases operand <;> simp [Fault.Extends, eval, hchecks, RuntimeChecks.none]
  | true =>
    cases op <;> cases operand <;>
      simp [Fault.Extends, eval, hchecks, Fault.isTypeMismatch]

theorem BinaryOp.eval_extends (op : BinaryOp) (h : Heap) (left right : Value) (checks : RuntimeChecks) :
    Fault.Extends (op.eval h left right checks) (op.eval h left right .none) := by
  have hnone : op.eval h left right .none = .ok (op.apply h left right) := rfl
  rw [hnone, eval]
  split
  · split
    next hmismatch => exact .inr ⟨_, rfl, mismatch?_isTypeMismatch hmismatch⟩
    next => exact .inl rfl
  · exact .inl rfl

theorem LogicalOp.truth_extends (op : LogicalOp) (left : Value) (checks : RuntimeChecks) :
    Fault.Extends (op.truth left checks) (op.truth left .none) := by
  cases hchecks : checks.logical <;> cases left <;>
    simp [Fault.Extends, truth, hchecks, RuntimeChecks.none, Fault.isTypeMismatch]

theorem Value.condition_extends (context : String) (test : Value) (checks : RuntimeChecks) :
    Fault.Extends (test.condition context checks) (test.condition context .none) := by
  cases hchecks : checks.conditional <;> cases test <;>
    simp [Fault.Extends, condition, hchecks, RuntimeChecks.none, Fault.isTypeMismatch]

theorem Member.unlessChecked_extends (checks : RuntimeChecks) {fault : Fault}
    (hfault : fault.isTypeMismatch = true) (v : Value) :
    Fault.Extends (unlessChecked checks fault v) (unlessChecked .none fault v) := by
  unfold unlessChecked
  split
  · exact .inr ⟨fault, rfl, hfault⟩
  · exact .inl rfl

theorem Member.ofArray_extends (elements : Array Value) (key : Value) (checks : RuntimeChecks) :
    Fault.Extends (ofArray elements key checks) (ofArray elements key .none) := by
  unfold ofArray
  split
  · exact .inl rfl
  · split
    · split
      · exact .inl rfl
      · exact unlessChecked_extends checks rfl _
    · exact unlessChecked_extends checks rfl _

theorem memberGet_extends (h : Heap) (object key : Value) (checks : RuntimeChecks) :
    Fault.Extends (memberGet h object key checks) (memberGet h object key .none) := by
  cases object with
  | array c => exact Member.ofArray_extends _ key checks
  | object c =>
    cases key with
    | string s => exact .inl rfl
    | _ =>
      simp only [memberGet]
      split
      · exact .inr ⟨_, rfl, rfl⟩
      · exact .inl rfl
  | string s =>
    simp only [memberGet]
    split
    · split
      · exact .inl rfl
      · exact Member.unlessChecked_extends checks rfl _
    · exact Member.unlessChecked_extends checks rfl _
  | undefined => exact .inl rfl
  | null => exact .inl rfl
  | _ => exact Member.unlessChecked_extends checks rfl _

/-- A write that is refused where members are checked. -/
theorem Member.refused_extends (checks : RuntimeChecks) {fault : Fault}
    (hfault : fault.isTypeMismatch = true) (h : Heap) (r : EStateM.Result Fault Heap Unit) :
    r = (if checks.member then .error fault h else r) ∨
      ∃ fault' h', (if checks.member then .error fault h else r) = .error fault' h' ∧
        fault'.isTypeMismatch = true := by
  split
  · exact .inr ⟨fault, h, rfl, hfault⟩
  · exact .inl rfl

theorem memberSet_extends (object key v : Value) (checks : RuntimeChecks) (h : Heap) :
    memberSet object key v .none h = memberSet object key v checks h ∨
      ∃ fault h', memberSet object key v checks h = .error fault h' ∧ fault.isTypeMismatch = true := by
  cases object with
  | array c =>
    simp only [memberSet, Member.setElement]
    split
    · exact .inl rfl
    · exact Member.refused_extends checks rfl h _
  | object c =>
    cases key with
    | string s => exact .inl rfl
    | _ => exact Member.refused_extends checks rfl h _
  | undefined => exact .inl rfl
  | null => exact .inl rfl
  | _ =>
    cases hmember : checks.member with
    | true => exact .inr ⟨_, h, by simp only [memberSet, hmember, if_true]; rfl, rfl⟩
    | false => exact .inl (by simp [memberSet, hmember, RuntimeChecks.none])

def Setting.native (p : Setting) : Setting :=
  { p with config := { p.config with language := .native } }

namespace Machine

variable {α β : Type} {p : Setting}

theorem findMethod_extends (h : Heap) (object key : Value) :
    Fault.Extends (findMethod p h object key) (findMethod p.native h object key) := by
  unfold findMethod
  split
  · split
    next hmethod => exact .inl (by rw [show p.native.methods = p.methods from rfl, hmethod])
    next hmethod =>
      rw [show p.native.methods = p.methods from rfl, hmethod]
      exact memberGet_extends _ _ _ p.checks
  · exact memberGet_extends _ _ _ p.checks

/-! ## 2. Operations -/

/-- The second operation does what the first does, unless that fails with a type mismatch. -/
def Extends (x y : MachineM α) : Prop :=
  ∀ s, y s = x s ∨ ∃ e s', x s = .error e s' ∧ e.fault.isTypeMismatch = true

theorem extends_refl (x : MachineM α) : Extends x x :=
  fun _ => .inl rfl

theorem Extends.bind {x y : MachineM α} {f g : α → MachineM β} (h : Extends x y)
    (hfg : ∀ a, Extends (f a) (g a)) : Extends (x >>= f) (y >>= g) := by
  intro s
  obtain hs | ⟨e, s', hs, he⟩ := h s
  · cases hx : x s with
    | ok a s' =>
      rw [bind_of_ok hx, bind_of_ok (hs.trans hx)]
      exact hfg a s'
    | error e s' =>
      rw [bind_of_error hx, bind_of_error (hs.trans hx)]
      exact .inl rfl
  · exact .inr ⟨e, s', bind_of_error hs, he⟩

/-- What comes first may be the same. -/
theorem Extends.after (x : MachineM α) {f g : α → MachineM β} (h : ∀ a, Extends (f a) (g a)) :
    Extends (x >>= f) (x >>= g) :=
  (extends_refl x).bind h

theorem extends_orFailAt (node : NodeId) {r r' : Except Fault α} (h : Fault.Extends r r') :
    Extends (orFailAt p node r) (orFailAt p node r') := by
  obtain rfl | ⟨fault, rfl, hfault⟩ := h
  · exact extends_refl _
  · exact fun s => .inr ⟨_, s, rfl, hfault⟩

theorem extends_branch (consequent : NodeId) (alternate : Option NodeId) (node : NodeId) :
    Extends (branch p consequent alternate node) (branch p.native consequent alternate node) :=
  Extends.after _ fun test => (extends_orFailAt node (test.condition_extends _ p.checks)).bind fun _ =>
    extends_refl _

theorem extends_logical (op : LogicalOp) (right node : NodeId) :
    Extends (logical p op right node) (logical p.native op right node) :=
  Extends.after _ fun left => (extends_orFailAt node (op.truth_extends left p.checks)).bind fun _ =>
    extends_refl _

theorem extends_memberSet (node : NodeId) (object key v : Value) :
    Extends (onHeap p node (memberSet object key v p.checks))
      (onHeap p.native node (memberSet object key v p.native.checks)) := by
  intro s
  simp only [onHeap]
  obtain h | ⟨fault, heap, h, hfault⟩ := memberSet_extends object key v p.checks s.heap
  · rw [show p.native.checks = .none from rfl, h]
    exact .inl rfl
  · rw [h]
    exact .inr ⟨_, _, rfl, hfault⟩

theorem extends_execInstr (i : Instr) : Extends (execInstr p i) (execInstr p.native i) := by
  cases i with
  | marker m => cases m <;> exact extends_refl _
  | unary op node =>
    exact .after _ fun operand => (extends_orFailAt node (op.eval_extends operand p.checks)).bind fun _ =>
      extends_refl _
  | binary op node =>
    exact .after _ fun right => .after _ fun left => .after _ fun s =>
      (extends_orFailAt node (op.eval_extends s.heap left right p.checks)).bind fun _ => extends_refl _
  | logical op right node => exact extends_logical op right node
  | branch consequent alternate node => exact extends_branch consequent alternate node
  | whileTest test body node =>
    exact .after _ fun value => (extends_orFailAt node (value.condition_extends _ p.checks)).bind fun _ =>
      extends_refl _
  | forTest test update body vars node =>
    exact .after _ fun value => (extends_orFailAt node (value.condition_extends _ p.checks)).bind fun _ =>
      extends_refl _
  | memberGet node =>
    exact .after _ fun key => .after _ fun object => .after _ fun s =>
      (extends_orFailAt node (memberGet_extends s.heap object key p.checks)).bind fun _ => extends_refl _
  | memberSet node =>
    exact .after _ fun v => .after _ fun key => .after _ fun object =>
      (extends_memberSet node object key v).bind fun _ => extends_refl _
  | methodLookup property node =>
    -- The key is at hand or on the stash.
    cases property <;>
      exact .after _ fun key => .after _ fun object => .after _ fun s =>
        (extends_orFailAt node (findMethod_extends s.heap object key)).bind fun _ => extends_refl _
  -- Nothing else looks at the language.
  | _ => exact extends_refl _

theorem extends_execute (item : Item) : Extends (execute p item) (execute p.native item) := by
  cases item with
  | node id => exact extends_refl _
  | instr i => exact .after (tick p) fun _ => extends_execInstr i

/-! ## 3. Steps -/

def native {σ : Type} (m : Machine σ) : Machine σ :=
  { m with setting := m.setting.native }

end Machine

def Outcome.native {σ : Type} : Outcome σ → Outcome σ
  | .running m => .running m.native
  | .finished v m => .finished v m.native
  | .paused id m => .paused id m.native
  | .failed e m => .failed e m.native

def Outcome.isTypeMismatch {σ : Type} : Outcome σ → Bool
  | .failed e _ => e.fault.isTypeMismatch
  | _ => false

namespace Machine

variable {σ : Type}

theorem askRule_native (m : Machine σ) (item : Item) :
    m.native.askRule item = ((m.askRule item).1, (m.askRule item).2.native) := by
  cases item with
  | instr i => rfl
  | node id =>
    obtain ⟨p, s, rule, memory, resuming⟩ := m
    cases resuming <;> rfl

theorem carryOut_native (item : Item) (m : Machine σ) :
    carryOut item m.native = (carryOut item m).native ∨ (carryOut item m).isTypeMismatch = true := by
  obtain ⟨p, s, rule, memory, resuming⟩ := m
  simp only [native, carryOut]
  obtain h | ⟨e, s', h, he⟩ := extends_execute (p := p) item s
  · rw [h]
    cases execute p item s with
    | error e s' => exact .inl rfl
    | ok _ s' =>
      rw [show p.native.tree = p.tree from rfl]
      dsimp only
      cases debuggerOf? p.tree item <;> exact .inl rfl
  · rw [h]
    exact .inr (by rw [Outcome.isTypeMismatch, locateError_fault]; exact he)

theorem step_native (m : Machine σ) : m.native.step = m.step.native ∨ m.step.isTypeMismatch = true := by
  simp only [step, askRule_native, show m.native.state = m.state from rfl]
  cases m.state.agenda with
  | nil => exact .inl rfl
  | cons item rest =>
    dsimp only
    obtain ⟨pauses, m'⟩ := m.askRule item
    cases pauses with
    | true => cases item <;> exact .inl rfl
    | false => exact carryOut_native item m'.dropItem

/-! ## 4. Runs -/

theorem run_native (m : Machine σ) (n : Nat) :
    m.native.run n = (m.run n).native ∨ (m.run n).isTypeMismatch = true := by
  induction n generalizing m with
  | zero => exact .inl rfl
  | succ n ih =>
    rw [run, run]
    obtain h | h := step_native m
    · rw [h]
      cases m.step with
      | running m' => exact ih m'
      | _ => exact .inl rfl
    · cases hstep : m.step with
      | failed e m' => rw [hstep] at h; exact .inr h
      | _ => rw [hstep] at h; cases h

theorem runThrough_native (m : Machine σ) (n : Nat) :
    m.native.runThrough n = (m.runThrough n).native ∨ (m.runThrough n).isTypeMismatch = true := by
  induction n generalizing m with
  | zero => exact .inl rfl
  | succ n ih =>
    rw [runThrough, runThrough]
    obtain h | h := step_native m
    · rw [h]
      cases m.step with
      | running m' => exact ih m'
      | paused id m' => exact ih m'
      | _ => exact .inl rfl
    · cases hstep : m.step with
      | failed e m' => rw [hstep] at h; exact .inr h
      | _ => rw [hstep] at h; cases h

/-- A run that does not end in a type mismatch is, whatever the language, the run without runtime checks, pause
by pause and state by state: if it ends it ends with the same value or the same error.  A type mismatch is the
only thing that checks can make of a run. -/
theorem native_extends (t : Tree) (config : Config) (hosts : List EmbeddedFunction) (output : Output)
    (clock : Nat → Nat) (rule : PauseRule σ) (memory : σ) (n : Nat) :
    let checked := build t config hosts output clock rule memory
    let unchecked := build t { config with language := .native } hosts output clock rule memory
    ((checked.run n).isTypeMismatch = false → unchecked.run n = (checked.run n).native) ∧
      ((checked.runThrough n).isTypeMismatch = false →
        unchecked.runThrough n = (checked.runThrough n).native) := by
  intro checked unchecked
  have hnative : unchecked = checked.native := rfl
  rw [hnative]
  refine ⟨fun h => ?_, fun h => ?_⟩
  · exact (run_native checked n).resolve_right (by simp [h])
  · exact (runThrough_native checked n).resolve_right (by simp [h])

end Machine

/-- The program `const o = { a: "x" }; o.b = !(o.a < "y") || true; o.b ? false : true;`. -/
def Tree.checking : Tree where
  names := ⟨#["", "o", "a", "b"]⟩
  nodes := #[⟨.literal (.string "x"), .dummy⟩, ⟨.objectLiteral [(⟨2⟩, ⟨0⟩)], .dummy⟩,
    ⟨.declaration .constKind ⟨1⟩ ⟨1⟩, .dummy⟩, ⟨.identifier ⟨1⟩, .dummy⟩, ⟨.member ⟨3⟩ (.named ⟨2⟩), .dummy⟩,
    ⟨.literal (.string "y"), .dummy⟩, ⟨.binary .lt ⟨4⟩ ⟨5⟩, .dummy⟩, ⟨.unary .not ⟨6⟩, .dummy⟩,
    ⟨.literal (.bool true), .dummy⟩, ⟨.logical .or ⟨7⟩ ⟨8⟩, .dummy⟩, ⟨.identifier ⟨1⟩, .dummy⟩,
    ⟨.memberAssignment ⟨10⟩ (.named ⟨3⟩) ⟨9⟩, .dummy⟩, ⟨.expressionStatement ⟨11⟩, .dummy⟩,
    ⟨.identifier ⟨1⟩, .dummy⟩, ⟨.member ⟨13⟩ (.named ⟨3⟩), .dummy⟩, ⟨.literal (.bool false), .dummy⟩,
    ⟨.conditional ⟨14⟩ ⟨15⟩ ⟨8⟩, .dummy⟩, ⟨.expressionStatement ⟨16⟩, .dummy⟩,
    ⟨.program [⟨2⟩, ⟨12⟩, ⟨17⟩], .dummy⟩]
  root := ⟨18⟩
  accepted := by decide

namespace Machine

/-- A run that passes a check of each kind, and ends. -/
theorem native_extends_checking :
    ((build .checking .standard [] default (fun _ => 0) .never ()).runThrough 60).isTypeMismatch = false ∧
      ((build .checking .standard [] default (fun _ => 0) .never ()).runThrough 60).progress.isFinished = true ∧
      (build .checking { Config.standard with language := .native } [] default (fun _ => 0) .never ()).runThrough
          60 =
        ((build .checking .standard [] default (fun _ => 0) .never ()).runThrough 60).native := by
  have h : ((build .checking .standard [] default (fun _ => 0) .never ()).runThrough 60).isTypeMismatch =
      false := by
    decide +kernel
  exact ⟨h, by decide +kernel, (native_extends .checking .standard [] default (fun _ => 0) .never () 60).2 h⟩

end Machine

end ExplicitControl
