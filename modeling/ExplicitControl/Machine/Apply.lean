import ExplicitControl.Host.Prelude
import ExplicitControl.Machine.Evaluate

/-!
Calls. A call of a program's function binds its arguments in a new frame and schedules its body; the caller's
environment comes back through an item that also ends the call. A call made when such an item is next takes
the place of the call that the item ends, so that tail calls need no room.
-/

namespace ExplicitControl.Machine

/-- The name of a function without one. -/
def anonymous : String := "<anonymous>"

def valueName (p : Setting) : Value → String
  | .closure _ f => (f.name.map p.nameText).getD anonymous
  | .host _ f => f.name
  | .callCc => "call_cc"
  | .continuation _ => "continuation"
  | _ => anonymous

/-- The name of what is called, as the call is written; that of the value where the writing is more than a
name. -/
def calleeName (p : Setting) (node : NodeId) (callee : Value) : String :=
  match p.tree.kind? node with
  | some (.call written _) =>
    match p.tree.kind? written with
    | some (.identifier name) => p.nameText name
    | some (.member object (.named property)) =>
      match p.tree.kind? object with
      | some (.identifier name) => p.nameText name ++ "." ++ p.nameText property
      | _ => p.nameText property
    | _ => valueName p callee
  | _ => valueName p callee

inductive CallPosition where
  /-- The item ends a call, whose place this one takes. -/
  | tailOfCall
  /-- The item ends a scope, and shall end this call too. -/
  | tailOfBlock
  /-- The current environment has to be brought back. -/
  | nested

def callPosition : Agenda → CallPosition
  | .instr (.restore _ true) :: _ => .tailOfCall
  | .instr (.restore _ false) :: _ => .tailOfBlock
  | _ => .nested

/-- Let the next item, which brings an environment back, end a call too. -/
def closeWithNext : Agenda → Agenda
  | .instr (.restore env _) :: rest => .instr (.restore env true) :: rest
  | agenda => agenda

def enterCall (p : Setting) (node : NodeId) (frame : CallFrame) : MachineM Unit := do
  match callPosition (← get).agenda with
  | .tailOfCall => modify fun s => { s with calls := s.calls.replaceTop frame }
  | .tailOfBlock =>
    onCalls p node (CallStack.push frame)
    modify fun s => { s with agenda := closeWithNext s.agenda }
  | .nested =>
    onCalls p node (CallStack.push frame)
    modify fun s => { s with agenda := .instr (.restore s.env true) :: s.agenda }

def applyClosure (p : Setting) (f : Closure) (args : List Value) (receiver : Option Value)
    (node : NodeId) (name : String) : MachineM Unit := do
  match p.tree.kind? f.node with
  | some (.function _ params body) =>
    if params.length ≠ args.length then
      failAt p node (.arityMismatch name (.exact params.length) args.length)
    enterCall p node ⟨name, args, p.tree.span node⟩
    let frameName := (f.name.map p.nameText).getD anonymous
    let env ← newFrame fun id scopes => scopes.call f.env id frameName node receiver
    (params.zip args).forM fun (param, arg) =>
      onName p node param (Scopes.define env param arg .assignable)
    setEnv env
    match body with
    | .expression expr => schedule [.node expr]
    | .block statements =>
      declareAll p statements
      schedule (Agenda.ofStatements statements ++ [.instr (.marker .call)])
  | _ => failAt p node (.malformedTree "closure does not refer to a function")

def hostBody (p : Setting) : HostAction → HostBody
  | .builtin b => Prelude.body b
  | .embedded index => fun receiver args =>
    match p.embedded[index]? with
    | some f => f.body receiver args
    | none => throw (.failed "no such function")

def onHost (act : HostM α) (fault : HostError → EvalError) : MachineM α := fun s =>
  let heap := s.heap
  let output := s.output
  let s := { s with heap := default, output := default }
  match act ⟨heap, output⟩ with
  | .ok a ⟨heap, output⟩ => .ok a { s with heap, output }
  | .error e ⟨heap, output⟩ => .error (fault e) { s with heap, output }

/-- Call a host function. A failure is placed at the call; an error of evaluation is passed on. -/
def applyHost (p : Setting) (f : HostFunction) (args : List Value) (receiver : Option Value)
    (node : NodeId) : MachineM Unit := do
  if !f.arity.accepts args.length then
    failAt p node (.arityMismatch f.name f.arity args.length)
  let fault : HostError → EvalError
    | .eval e => e
    | .failed message =>
      (EvalError.ofFault (.hostFailure f.name message)).locate node (p.tree.span node)
  push (← onHost (hostBody p f.action receiver args) fault)

/-- Make the registers as they were when a continuation was captured, with the argument as the value of the
capturing call. -/
def invoke (p : Setting) (snapshot : Nat) (args : List Value) (node : NodeId) : MachineM Unit := do
  if 1 < args.length then
    failAt p node (.arityMismatch "continuation" (.atMost 1) args.length)
  match (← get).snapshots[snapshot]? with
  | some kept =>
    modify fun s =>
      { s with
        agenda := kept.agenda
        stash := args.head?.getD .undefined :: kept.stash
        env := kept.env
        calls := kept.calls }
  | none => failAt p node (.malformedTree "missing continuation")

def capture : MachineM Value :=
  modifyGet fun s =>
    (.continuation s.snapshots.size,
      { s with snapshots := s.snapshots.push ⟨s.agenda, s.stash, s.env, s.calls⟩ })

def applyPlain (p : Setting) (callee : Value) (args : List Value) (receiver : Option Value)
    (node : NodeId) (name : String) : MachineM Unit :=
  match callee with
  | .closure _ f => applyClosure p f args receiver node name
  | .host _ f => applyHost p f args receiver node
  | .continuation snapshot => invoke p snapshot args node
  | other => failAt p node (.notCallable other)

/-- Capture the continuation of a call and give it to a function. If that function captures continuations
itself, the first continuation is at once given the second. -/
def applyCallCc (p : Setting) (args : List Value) (node : NodeId) : MachineM Unit := do
  match args with
  | [function] =>
    let continuation ← capture
    match function with
    | .callCc => applyPlain p continuation [← capture] none node (valueName p continuation)
    | function => applyPlain p function [continuation] none node (valueName p function)
  | _ => failAt p node (.arityMismatch "call_cc" (.exact 1) args.length)

def apply (p : Setting) (arity : Nat) (hasReceiver : Bool) (node : NodeId) : MachineM Unit := do
  let args ← onStash (Stash.popN arity)
  let callee ← pop
  let receiver ← if hasReceiver then some <$> pop else pure none
  checkDeadline p
  match callee with
  | .callCc => applyCallCc p args node
  | callee => applyPlain p callee args receiver node (calleeName p node callee)

end ExplicitControl.Machine
