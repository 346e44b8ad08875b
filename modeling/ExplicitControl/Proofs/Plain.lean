import ExplicitControl.Proofs.Travel
import ExplicitControl.Proofs.Turns

/-!
# The machine without shortcuts

The machine saves room in three ways: a scope whose end comes right before the end of another is left without
an end of its own, a `return` in tail position drops the rest of its function before its argument is
evaluated, and a call in tail position takes over the end of a call or of a scope.  The plain machine does
none of this.  Everything else it has in common with the machine.
-/

namespace ExplicitControl.Plain

open Machine

/-! ## 1. Nodes -/

/-- Go into a new frame. The current one always comes back by an item of its own. -/
def enterScope (name : String) : MachineM Unit := do
  let env := (← get).env
  schedule [.instr (.restore env false)]
  setEnv (← newFrame fun id scopes => scopes.child env id name)

def evalBlock (p : Setting) (body : List NodeId) (name : String) : MachineM Unit := do
  if p.tree.hasDeclarations body then
    enterScope name
    declareAll p body
  schedule (Agenda.ofStatements body)

/-- The work of `return`: the argument, and then always a search for the end of the function. -/
def evalReturn (argument : Option NodeId) : MachineM Unit :=
  schedule [(argument.map Item.node).getD (.instr (.push .undefined)), .instr .reset]

def evalFor (p : Setting) (id : NodeId) (init test update : Option NodeId) (body : NodeId) :
    MachineM Unit := do
  let mut vars := []
  if let some (node, name, kind) := loopDeclaration p init then
    enterScope "for"
    onName p node name (Scopes.declare (← get).env name kind.mutability)
    vars := [name]
  let start := (init.map fun node => [Item.node node, .instr .pop]).getD []
  schedule (start ++ [.instr (.freshTrip vars), .instr (.push .undefined), loopTest test,
    .instr (.forTest test update body vars id), .instr (.marker .loopEnd)])

def evalKind (p : Setting) (id : NodeId) : NodeKind → MachineM Unit
  | .program body => do
    schedule [.instr .pushUndefinedIfNeeded]
    evalBlock p body "program"
  | .block body => evalBlock p body "block"
  | .returnStatement argument => evalReturn argument
  | .forLoop init test update body => evalFor p id init test update body
  | kind => Machine.evalKind p id kind

/-! ## 2. Calls -/

def enterCall (p : Setting) (node : NodeId) (frame : CallFrame) : MachineM Unit := do
  onCalls p node (CallStack.push frame)
  modify fun s => { s with agenda := .instr (.restore s.env true) :: s.agenda }

def applyClosure (p : Setting) (f : Closure) (args : List Value) (receiver : Option Value)
    (node : NodeId) (name : String) : MachineM Unit := do
  match p.tree.kind? f.node with
  | some (.function _ params body) =>
    if params.length ≠ args.length then
      failAt p node (.arityMismatch name (.exact params.length) args.length)
    enterCall p node ⟨name, args, p.tree.span node⟩
    closureFrame p f params args receiver node body
    schedule (bodyItems body)
  | _ => failAt p node (.malformedTree "closure does not refer to a function")

def applyPlain (p : Setting) (callee : Value) (args : List Value) (receiver : Option Value)
    (node : NodeId) (name : String) : MachineM Unit :=
  match callee with
  | .closure _ f => applyClosure p f args receiver node name
  | other => Machine.applyPlain p other args receiver node name

def applyCallCc (p : Setting) (args : List Value) (node : NodeId) : MachineM Unit := do
  match args with
  | [function] =>
    let continuation ← capture
    match function with
    | .callCc => applyPlain p continuation [← capture] none node (valueName p continuation)
    | function => applyPlain p function [continuation] none node (valueName p function)
  | _ => failAt p node (.arityMismatch "call_cc" (.exact 1) args.length)

def applyValue (p : Setting) (callee : Value) (args : List Value) (receiver : Option Value)
    (node : NodeId) : MachineM Unit := do
  checkDeadline p
  match callee with
  | .callCc => applyCallCc p args node
  | callee => applyPlain p callee args receiver node (calleeName p node callee)

def apply (p : Setting) (arity : Nat) (hasReceiver : Bool) (node : NodeId) : MachineM Unit := do
  let args ← onStash (Stash.popN arity)
  let callee ← pop
  let receiver ← if hasReceiver then some <$> pop else pure none
  applyValue p callee args receiver node

/-! ## 3. Items and runs -/

def execInstr (p : Setting) : Instr → MachineM Unit
  | .apply arity hasReceiver node => apply p arity hasReceiver node
  | i => Machine.execInstr p i

def execute (p : Setting) (item : Item) : MachineM Unit := do
  tick p
  match item with
  | .node id =>
    modify fun s => { s with current := some id }
    evalKind p id (← kindOf p id)
  | .instr i => execInstr p i

def travel (p : Setting) : Nat → State → Progress :=
  travelBy (execute p) p

end ExplicitControl.Plain

namespace ExplicitControl

def State.plainTurned (p : Setting) (kind : NodeKind) (s : State) : State :=
  let opened (s : State) : State :=
    if Machine.opensScope p kind then { s with agenda := .instr (.restore s.env false) :: s.agenda }
    else s
  match kind with
  | .program _ => opened { s with agenda := .instr .pushUndefinedIfNeeded :: s.agenda }
  -- The rest of the function is never dropped before the value is there.
  | .returnStatement argument =>
    { s with agenda := Machine.returnItem argument :: .instr .reset :: s.agenda }
  | _ => opened s

namespace Plain

open Machine

variable {p : Setting}

theorem evalBlock_eq (body : List NodeId) (name : String) (s : State) :
    evalBlock p body name s = blockWork p body name
      (if p.tree.hasDeclarations body then
        { s with agenda := .instr (.restore s.env false) :: s.agenda } else s) := by
  unfold evalBlock blockWork
  dsimp only
  split
  · rfl
  · rfl

theorem evalFor_eq (id : NodeId) (init test update : Option NodeId) (body : NodeId) (s : State) :
    evalFor p id init test update body s = forWork p id init test update body
      (if (loopDeclaration p init).isSome then
        { s with agenda := .instr (.restore s.env false) :: s.agenda } else s) := by
  unfold evalFor forWork
  dsimp only
  cases loopDeclaration p init with
  | none => rfl
  | some declared => rfl

/-- The plain machine turns control in its own way, and then does the same work. -/
theorem evalKind_eq (id : NodeId) (kind : NodeKind) (s : State) :
    evalKind p id kind s = kindWork p id kind (s.plainTurned p kind) := by
  cases kind with
  | program body =>
    show (schedule [.instr .pushUndefinedIfNeeded] >>= fun _ => evalBlock p body "program") s = _
    rw [schedule_bind]
    exact evalBlock_eq body "program" _
  | block body => exact evalBlock_eq body "block" s
  | forLoop init test update body => exact evalFor_eq id init test update body s
  | _ => rfl

end Plain

end ExplicitControl
