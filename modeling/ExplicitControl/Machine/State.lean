import ExplicitControl.CallStack
import ExplicitControl.Host.Basic
import ExplicitControl.Machine.Instruction
import ExplicitControl.Machine.Stash
import ExplicitControl.Operators
import ExplicitControl.Tree.Basic

/-!
The machine's registers, and the operations on them from which its instructions are made. Whatever a run
never changes is kept apart, in the setting: the tree, the limits, the clock, the functions of the host.
-/

namespace ExplicitControl

structure Config where
  maxCallDepth : Nat
  /-- The number of calls that an error tells. -/
  traceFrames : Nat
  stepLimit : Option Nat
  /-- The time that may be spent, in milliseconds. -/
  timeLimit : Option Nat
  /-- The number of steps between two looks at the clock. -/
  checkInterval : Nat
  language : LanguageLevel
deriving DecidableEq

def Config.standard : Config :=
  ⟨10000, 10, none, none, 1024, .source 4⟩

/-- What a run never changes. -/
structure Setting where
  tree : Tree
  /-- The names of the tree and of what every program finds. -/
  names : NameTable
  config : Config
  /-- The nanoseconds spent, at each look at the clock. -/
  clock : Nat → Nat
  embedded : Array EmbeddedFunction
  methods : List (String × Value)
  /-- The environment of what every program finds. -/
  global : Env

namespace Setting

def checks (p : Setting) : RuntimeChecks :=
  p.config.language.checks

def nameText (p : Setting) (name : Name) : String :=
  p.names.lookup name

end Setting

/-- The registers at one moment, as a continuation keeps them. -/
structure Snapshot where
  agenda : Agenda
  stash : Stash
  env : Env
  calls : CallStack
deriving Inhabited

structure State where
  agenda : Agenda
  stash : Stash
  env : Env
  calls : CallStack
  scopes : Scopes
  heap : Heap
  /-- The captured continuations, in order. -/
  snapshots : Array Snapshot
  nextEnvId : UInt32
  nextIdentity : Nat
  steps : Nat
  /-- Looks at the clock. -/
  readings : Nat
  /-- The node evaluated last. -/
  current : Option NodeId
  output : Output
deriving Inhabited

abbrev MachineM := EStateM EvalError State

namespace State

def result (s : State) : Value :=
  s.stash.head?.getD .undefined

def inspect (s : State) : String :=
  "Machine \x7b agenda: " ++ toString s.agenda.length ++ ", stash: " ++ toString s.stash.length ++
    ", env: " ++ s.scopes.inspect s.env ++ ", calls: " ++ toString s.calls.depth ++ ", steps: " ++
    toString s.steps ++ ", .. \x7d"

end State

namespace Machine

/-! ## Failing -/

def failAt (p : Setting) (node : NodeId) (fault : Fault) : MachineM α :=
  throw ((EvalError.ofFault fault).locate node (p.tree.span node))

/-- The result, or its fault at a node. -/
def orFailAt (p : Setting) (node : NodeId) : Except Fault α → MachineM α
  | .ok a => pure a
  | .error fault => failAt p node fault

def kindOf (p : Setting) (node : NodeId) : MachineM NodeKind :=
  match p.tree.kind? node with
  | some kind => pure kind
  | none => failAt p node (.malformedTree "missing node")

/-! ## Agenda and stash -/

def schedule (items : List Item) : MachineM Unit :=
  modify fun s => { s with agenda := items ++ s.agenda }

/-- Operate on the stash; a failure has no place of its own. -/
def onStash (op : StashM α) : MachineM α := fun s =>
  match op s.stash with
  | .ok a stash => .ok a { s with stash }
  | .error fault stash => .error (.ofFault fault) { s with stash }

def push (v : Value) : MachineM Unit := onStash (Stash.push v)

def pop : MachineM Value := onStash Stash.pop

/-! ## Calls, heap and variables -/

def onCalls (p : Setting) (node : NodeId) (op : EStateM EvalError CallStack α) : MachineM α :=
  fun s =>
    let calls := s.calls
    let s := { s with calls := default }
    match op calls with
    | .ok a calls => .ok a { s with calls }
    | .error e calls => .error (e.locate node (p.tree.span node)) { s with calls }

def onHeap (p : Setting) (node : NodeId) (op : EStateM Fault Heap α) : MachineM α := fun s =>
  let heap := s.heap
  let s := { s with heap := default }
  match op heap with
  | .ok a heap => .ok a { s with heap }
  | .error fault heap =>
    .error ((EvalError.ofFault fault).locate node (p.tree.span node)) { s with heap }

def allocate (make : Heap → Value × Heap) : MachineM Value := fun s =>
  let heap := s.heap
  let s := { s with heap := default }
  let (v, heap) := make heap
  .ok v { s with heap }

def onName (p : Setting) (node : NodeId) (name : Name) (op : ScopeM α) : MachineM α := fun s =>
  let scopes := s.scopes
  let s := { s with scopes := default }
  match op scopes with
  | .ok a scopes => .ok a { s with scopes }
  | .error e scopes =>
    .error ((EvalError.ofFault (e.fault (p.nameText name))).locate node (p.tree.span node))
      { s with scopes }

def newFrame (make : UInt32 → Scopes → Env × Scopes) : MachineM Env := fun s =>
  let scopes := s.scopes
  let id := s.nextEnvId
  let s := { s with scopes := default, nextEnvId := id + 1 }
  let (env, scopes) := make id scopes
  .ok env { s with scopes }

def setEnv (env : Env) : MachineM Unit :=
  modify fun s => { s with env }

def freshIdentity : MachineM Nat :=
  modifyGet fun s => (s.nextIdentity, { s with nextIdentity := s.nextIdentity + 1 })

/-! ## Limits -/

def checkDeadline (p : Setting) : MachineM Unit := fun s =>
  match p.config.timeLimit with
  | none => .ok () s
  | some limit =>
    let late := limit * 1000000 < p.clock s.readings
    let s := { s with readings := s.readings + 1 }
    if late then .error (.ofFault (.timeout s.steps)) s else .ok () s

def tick (p : Setting) : MachineM Unit := do
  modify fun s => { s with steps := s.steps + 1 }
  let steps := (← get).steps
  if p.config.stepLimit.any fun limit => limit < steps then throw (.ofFault (.timeout steps))
  if steps % max p.config.checkInterval 1 = 0 then checkDeadline p

end Machine

end ExplicitControl
