import ExplicitControl.Machine.Breakpoints
import ExplicitControl.Machine.Execute

/-!
Running a machine. A step carries out one item of work, or pauses before it; a `debugger` statement pauses
after its step. Nothing is kept outside the machine, so a paused machine goes on from where it stopped.
-/

namespace ExplicitControl

structure Machine (σ : Type) where
  setting : Setting
  state : State
  rule : PauseRule σ
  memory : σ
  /-- The next node has been paused at already, and shall run now. -/
  resuming : Bool

inductive Outcome (σ : Type) where
  | running (m : Machine σ)
  | finished (v : Value) (m : Machine σ)
  /-- Before a node at a breakpoint, or after a `debugger` statement. -/
  | paused (node : NodeId) (m : Machine σ)
  | failed (e : EvalError) (m : Machine σ)

namespace Machine

variable {σ : Type}

/-- Ask the pause rule about the next item. Only nodes are asked about, and none twice. -/
def askRule (m : Machine σ) (item : Item) : Bool × Machine σ :=
  match item with
  | .node id =>
    if m.resuming then (false, m)
    else
      let (pause, memory) := m.rule m.memory m.setting.tree id
      (pause, { m with memory })
  | .instr _ => (false, m)

def debuggerOf? (t : Tree) : Item → Option NodeId
  | .node id => if (t.kind? id).any NodeKind.isDebugger then some id else none
  | .instr _ => none

def carryOut (item : Item) : Machine σ → Outcome σ
  | ⟨p, s, rule, memory, _⟩ =>
    match execute p item s with
    | .ok () s =>
      match debuggerOf? p.tree item with
      | some id => .paused id ⟨p, s, rule, memory, false⟩
      | none => .running ⟨p, s, rule, memory, false⟩
    | .error e s => .failed (locateError p s e) ⟨p, s, rule, memory, false⟩

def dropItem : Machine σ → Machine σ
  | ⟨p, s, rule, memory, resuming⟩ => ⟨p, { s with agenda := s.agenda.tail }, rule, memory, resuming⟩

def step (m : Machine σ) : Outcome σ :=
  match m.state.agenda with
  | [] => .finished m.state.result m
  | item :: _ =>
    match m.askRule item with
    | (true, m) =>
      match item with
      | .node id => .paused id { m with resuming := true }
      | .instr _ => .running m
    | (false, m) => carryOut item m.dropItem

/-- Take steps until the program ends, pauses or fails, at most `fuel` of them. -/
def run (fuel : Nat) (m : Machine σ) : Outcome σ :=
  match fuel with
  | 0 => .running m
  | fuel + 1 =>
    match m.step with
    | .running m => run fuel m
    | outcome => outcome

/-- Take steps until the program ends or fails, whatever pauses there are, at most `fuel` of them. -/
def runThrough (fuel : Nat) (m : Machine σ) : Outcome σ :=
  match fuel with
  | 0 => .running m
  | fuel + 1 =>
    match m.step with
    | .running m | .paused _ m => runThrough fuel m
    | outcome => outcome

def withClock (m : Machine σ) (clock : Nat → Nat) : Machine σ :=
  { m with setting := { m.setting with clock } }

def clearOutput (m : Machine σ) : Machine σ :=
  { m with state := { m.state with output := m.state.output.clear } }

/-! ## Building -/

/-- Give every function of a list an identity, from `next` on. -/
def identify (next : Nat) (functions : List HostFunction) : List (String × Value) :=
  (functions.zipIdx next).map fun (f, identity) => (f.name, .host identity f)

def embeddedFunctions (fs : List EmbeddedFunction) : List HostFunction :=
  fs.zipIdx.map fun (f, index) => ⟨f.name, f.arity, .embedded index⟩

/-- What every program finds, by name. An added function takes the place of one with the same name. -/
def globals (hosts : List EmbeddedFunction) : Object :=
  Object.ofPairs (Prelude.constants ++ identify 0 (Prelude.functions ++ embeddedFunctions hosts))

def install (env : Env) : List (String × Value) → NameTable → Scopes → NameTable × Scopes
  | [], names, scopes => (names, scopes)
  | (text, v) :: rest, names, scopes =>
    let (name, names) := names.intern text
    install env rest names (scopes.insert env.frame name ⟨some v, .fixed⟩)

def build (t : Tree) (config : Config) (hosts : List EmbeddedFunction) (output : Output)
    (clock : Nat → Nat) (rule : PauseRule σ) (memory : σ) : Machine σ :=
  let (env, scopes) := Scopes.empty.root 0 "global"
  let (names, scopes) := install env (globals hosts).entries t.names scopes
  let count := Prelude.functions.length + hosts.length
  let setting : Setting :=
    ⟨t, names, config, clock, hosts.toArray, identify count Prelude.methods, env⟩
  let state : State :=
    ⟨[.node t.root], [], env, CallStack.initial config.maxCallDepth config.traceFrames, scopes,
      Heap.empty, #[], 1, count + Prelude.methods.length, 0, 0, none, output⟩
  ⟨setting, state, rule, memory, false⟩

end Machine

end ExplicitControl
