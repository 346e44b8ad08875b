import ExplicitControl.Machine.Execute
import ExplicitControl.Proofs.Placement
import ExplicitControl.Proofs.Travel

/-!
# The structural evaluator

This is the meaning of a program told without agenda, stash or restores.  The evaluator recurses over the
tree; the environment is an argument, a subexpression gives its value back, and a statement gives back how it
completes.  `break`, `continue` and `return` are completions that the statements around them hand on, up to
the loop or the function they belong to.

A recursion of Lean has to end, so all recursion is below a bound, the fuel; an evaluation that runs out of it
says nothing.  Nor does one that asks for its continuation, which is no part of a structural evaluator.
-/

namespace ExplicitControl

/-- All that a program has made so far, and the node whose evaluation began last. -/
structure Store where
  scopes : Scopes
  heap : Heap
  nextEnvId : UInt32
  nextIdentity : Nat
  current : Option NodeId
  output : Output

inductive Completion where
  | normal (v : Value)
  /-- By `break`, executed at a node. -/
  | broke (node : NodeId)
  /-- By `continue`, executed at a node. -/
  | continued (node : NodeId)
  | returned (v : Value)

inductive Stop where
  | failed (e : EvalError)
  /-- The program asks for its continuation. -/
  | captured
  | outOfFuel

abbrev EvalM := EStateM Stop Store

namespace Structural

variable {α : Type}

/-! ## 1. Operations on the store -/

def failAt (p : Setting) (node : NodeId) (fault : Fault) : EvalM α :=
  throw (.failed ((EvalError.ofFault fault).locate node (p.tree.span node)))

def orFailAt (p : Setting) (node : NodeId) : Except Fault α → EvalM α
  | .ok a => pure a
  | .error fault => failAt p node fault

def onName (p : Setting) (node : NodeId) (name : Name) (op : ScopeM α) : EvalM α := fun s =>
  match op s.scopes with
  | .ok a scopes => .ok a { s with scopes }
  | .error e scopes => failAt p node (e.fault (p.nameText name)) { s with scopes }

def onHeap (p : Setting) (node : NodeId) (op : EStateM Fault Heap α) : EvalM α := fun s =>
  match op s.heap with
  | .ok a heap => .ok a { s with heap }
  | .error fault heap => failAt p node fault { s with heap }

def allocate (make : Heap → Value × Heap) : EvalM Value := fun s =>
  .ok (make s.heap).1 { s with heap := (make s.heap).2 }

def newFrame (make : UInt32 → Scopes → Env × Scopes) : EvalM Env := fun s =>
  let made := make s.nextEnvId s.scopes
  .ok made.1 { s with scopes := made.2, nextEnvId := s.nextEnvId + 1 }

def freshIdentity : EvalM Nat := fun s =>
  .ok s.nextIdentity { s with nextIdentity := s.nextIdentity + 1 }

def onHost (act : HostM α) (fault : HostError → EvalError) : EvalM α := fun s =>
  match act ⟨s.heap, s.output⟩ with
  | .ok a ⟨heap, output⟩ => .ok a { s with heap, output }
  | .error e ⟨heap, output⟩ => .error (.failed (fault e)) { s with heap, output }

def enter (id : NodeId) : EvalM Unit :=
  modify fun s => { s with current := some id }

/-! ## 2. Parts of nodes -/

structure Evaluator where
  expression : NodeId → Env → EvalM Value
  statement : NodeId → Env → EvalM Completion

section

variable (p : Setting) (r : Evaluator)

def declareAll (body : List NodeId) (env : Env) : EvalM Unit :=
  (p.tree.declarations body).forM fun (node, name, kind) =>
    onName p node name (Scopes.declare env name kind.mutability)

def values (env : Env) : List NodeId → EvalM (List Value)
  | [] => pure []
  | id :: rest => do
    let v ← r.expression id env
    let vs ← values env rest
    pure (v :: vs)

/-- One statement after the other, until one of them does not complete normally. -/
def statements (env : Env) : List NodeId → EvalM Completion
  | [] => pure (.normal .undefined)
  -- The last statement gives its value to the list.
  | [id] => r.statement id env
  | id :: rest => do
    match ← r.statement id env with
    | .normal _ => statements env rest
    | completion => pure completion

/-- The environment of a block. Only a block that declares something gets a frame. -/
def blockScope (body : List NodeId) (name : String) (env : Env) : EvalM Env := do
  if p.tree.hasDeclarations body then
    let inner ← newFrame fun id scopes => scopes.child env id name
    declareAll p body inner
    pure inner
  else pure env

def block (body : List NodeId) (name : String) (env : Env) : EvalM Completion := do
  let inner ← blockScope p body name env
  statements r inner body

def key (env : Env) : MemberProperty → EvalM Value
  | .named name => pure (.string (p.nameText name))
  | .computed node => r.expression node env

/-! ## 3. Calls -/

def frame (f : Closure) (params : List Name) (args : List Value) (receiver : Option Value)
    (node : NodeId) (code : FunctionBody) : EvalM Env := do
  let frameName := (f.name.map p.nameText).getD Machine.anonymous
  let env ← newFrame fun id scopes => scopes.call f.env id frameName node receiver
  (params.zip args).forM fun (param, arg) =>
    onName p node param (Scopes.define env param arg .assignable)
  match code with
  | .expression _ => pure ()
  | .block body => declareAll p body env
  pure env

def body (env : Env) : FunctionBody → EvalM Value
  | .expression expr => r.expression expr env
  | .block body => do
    match ← statements r env body with
    | .normal _ => pure .undefined
    | .returned v => pure v
    | .broke node => failAt p node (.controlOutsideLoop "break")
    | .continued node => failAt p node (.controlOutsideLoop "continue")

def callClosure (f : Closure) (args : List Value) (receiver : Option Value) (node : NodeId)
    (name : String) : EvalM Value := do
  match p.tree.kind? f.node with
  | some (.function _ params code) =>
    if params.length ≠ args.length then
      failAt p node (.arityMismatch name (.exact params.length) args.length)
    else
      let env ← frame p f params args receiver node code
      body p r env code
  | _ => failAt p node (.malformedTree "closure does not refer to a function")

def callHost (f : HostFunction) (args : List Value) (receiver : Option Value) (node : NodeId) :
    EvalM Value :=
  if f.arity.accepts args.length then
    onHost (Machine.hostBody p f.action receiver args) fun
      | .eval e => e
      | .failed message =>
        (EvalError.ofFault (.hostFailure f.name message)).locate node (p.tree.span node)
  else failAt p node (.arityMismatch f.name f.arity args.length)

def call (callee : Value) (args : List Value) (receiver : Option Value) (node : NodeId) :
    EvalM Value :=
  match callee with
  | .closure _ f => callClosure p r f args receiver node (Machine.calleeName p node callee)
  | .host _ f => callHost p f args receiver node
  | .callCc =>
    -- With one argument the current continuation would be captured.
    if args.length = 1 then throw .captured
    else failAt p node (.arityMismatch "call_cc" (.exact 1) args.length)
  | .continuation _ =>
    if 1 < args.length then failAt p node (.arityMismatch "continuation" (.atMost 1) args.length)
    else failAt p node (.malformedTree "missing continuation")
  | other => failAt p node (.notCallable other)

def callee (callee : NodeId) (env : Env) : EvalM (Value × Option Value) := do
  match p.tree.kind? callee with
  | some (.member object property) =>
    let o ← r.expression object env
    let k ← key p r env property
    let f ← orFailAt p callee (Machine.findMethod p (← get).heap o k)
    pure (f, some o)
  | _ =>
    let f ← r.expression callee env
    pure (f, none)

/-! ## 4. Loops -/

def freshTrip (vars : List Name) (env : Env) : EvalM Env :=
  if vars.isEmpty then pure env else newFrame fun id scopes => scopes.copyBindings env id vars

/-- What comes of the completion of a loop's body: another trip, or the end of the loop. -/
def afterBody (next : Value → EvalM Completion) : Completion → EvalM Completion
  | .normal v => next v
  | .continued _ => next .undefined
  | .broke _ => pure (.normal .undefined)
  | .returned v => pure (.returned v)

/-- The trips of a `while` loop; `last` is the value of the trip before. -/
def whileTrips (id test body : NodeId) (env : Env) : Nat → Value → EvalM Completion
  | 0, _ => throw .outOfFuel
  | fuel + 1, last => do
    let v ← r.expression test env
    if ← orFailAt p id (v.condition "while" p.checks) then
      afterBody (whileTrips id test body env fuel) (← r.statement body env)
    else pure (.normal last)

def loopTest (env : Env) : Option NodeId → EvalM Value
  | some test => r.expression test env
  | none => pure (.bool true)

def update (env : Env) : Option NodeId → EvalM Unit
  | some node => do
    let _ ← r.expression node env
    pure ()
  | none => pure ()

/-- The trips of a `for` loop. Each begins with the test and ends with fresh variables and the update. -/
def forTrips (id : NodeId) (test update? : Option NodeId) (body : NodeId) (vars : List Name) :
    Nat → Env → Value → EvalM Completion
  | 0, _, _ => throw .outOfFuel
  | fuel + 1, env, last => do
    let v ← loopTest r env test
    if ← orFailAt p id (v.condition "for" p.checks) then
      -- The closures of a trip keep its variables; the next trip has copies.
      let next (v : Value) : EvalM Completion := do
        let env ← freshTrip vars env
        update r env update?
        forTrips id test update? body vars fuel env v
      afterBody next (← r.statement body env)
    else pure (.normal last)

def loopHead (env : Env) : Option NodeId → EvalM Completion
  | none => pure (.normal .undefined)
  | some node =>
    -- A declaration is a statement, any other head an expression.
    if p.tree.isStatement node then r.statement node env
    else do
      let v ← r.expression node env
      pure (.normal v)

/-- The environment of a `for` loop, and the variables that each trip copies: the one that the head declares,
which lives in a frame of its own. -/
def loopScope (init : Option NodeId) (env : Env) : EvalM (List Name × Env) := do
  match Machine.loopDeclaration p init with
  | some (node, name, kind) =>
    let inner ← newFrame fun id scopes => scopes.child env id "for"
    onName p node name (Scopes.declare inner name kind.mutability)
    pure ([name], inner)
  | none => pure ([], env)

/-- What comes of the completion of a loop's head. `break` leaves the loop already; `continue` belongs to the
loop around. -/
def afterHead (trips : EvalM Completion) : Completion → EvalM Completion
  | .normal _ => trips
  | .broke _ => pure (.normal .undefined)
  | completion => pure completion

def forLoop (fuel : Nat) (id : NodeId) (init test update? : Option NodeId) (body : NodeId)
    (vars : List Name) (env : Env) : EvalM Completion := do
  let trips : EvalM Completion := do
    let first ← freshTrip vars env
    forTrips p r id test update? body vars fuel first .undefined
  afterHead trips (← loopHead p r env init)

/-! ## 5. Nodes -/

def identifier (id : NodeId) (env : Env) (name : Name) : EvalM Value := do
  match (← get).scopes.lookup env name with
  | .ok v => pure v
  | .error e => failAt p id (e.fault (p.nameText name))

def application (id : NodeId) (env : Env) (written : NodeId) (args : List NodeId) : EvalM Value := do
  let (f, receiver) ← callee p r written env
  -- The arguments come after the callee and, for a member, its object and key.
  let vs ← values r env args
  call p r f vs receiver id

def expression (id : NodeId) (env : Env) : NodeKind → EvalM Value
  | .literal literal => pure (Machine.literalValue literal)
  | .identifier name => identifier p id env name
  | .this => do pure (((← get).scopes.receiver? env).getD .undefined)
  | .function name params _ => do
    let identity ← freshIdentity
    pure (.closure identity ⟨id, name, params.length, env⟩)
  | .unary op operand => do
    let v ← r.expression operand env
    orFailAt p id (op.eval v p.checks)
  | .binary op left right => do
    let v ← r.expression left env
    let w ← r.expression right env
    orFailAt p id (op.eval (← get).heap v w p.checks)
  | .logical op left right => do
    let v ← r.expression left env
    if (← orFailAt p id (op.truth v p.checks)) == op.shortCircuitsOn then pure v
    else r.expression right env
  | .conditional test consequent alternate => do
    let v ← r.expression test env
    if ← orFailAt p id (v.condition "conditional" p.checks) then r.expression consequent env
    else r.expression alternate env
  | .assignment name value => do
    let v ← r.expression value env
    onName p id name (Scopes.assign env name v)
    pure v
  | .call written args => application p r id env written args
  | .arrayLiteral elements => do
    let vs ← values r env elements
    allocate fun heap => heap.allocArray vs.toArray
  | .objectLiteral properties => do
    let vs ← values r env (properties.map Prod.snd)
    let keys := (properties.map Prod.fst).map p.nameText
    allocate fun heap => heap.allocObject (Object.ofPairs (keys.zip vs))
  | .member object property => do
    let o ← r.expression object env
    let k ← key p r env property
    orFailAt p id (memberGet (← get).heap o k p.checks)
  | .memberAssignment object property value => do
    let o ← r.expression object env
    let k ← key p r env property
    let v ← r.expression value env
    onHeap p id (memberSet o k v p.checks)
    pure v
  | _ => failAt p id (.malformedTree "not an expression")

def result (env : Env) : Option NodeId → EvalM Value
  | some argument => r.expression argument env
  | none => pure .undefined

def statement (fuel : Nat) (id : NodeId) (env : Env) : NodeKind → EvalM Completion
  | .program body => block p r body "program" env
  | .block body => block p r body "block" env
  | .expressionStatement expr => do
    let v ← r.expression expr env
    pure (.normal v)
  | .declaration _ name init => do
    let v ← r.expression init env
    onName p id name (Scopes.fill env name v)
    pure (.normal .undefined)
  | .functionDeclaration name declared => do
    let v ← r.expression declared env
    onName p id name (Scopes.fill env name v)
    pure (.normal .undefined)
  | .returnStatement argument => do
    let v ← result r env argument
    pure (.returned v)
  | .ifStatement test consequent alternate => do
    let v ← r.expression test env
    if ← orFailAt p id (v.condition "if" p.checks) then r.statement consequent env
    else
      match alternate with
      | some alternate => r.statement alternate env
      | none => pure (.normal .undefined)
  | .whileLoop test body => whileTrips p r id test body env fuel .undefined
  | .forLoop init test update? body => do
    let scope ← loopScope p init env
    forLoop p r fuel id init test update? body scope.1 scope.2
  | .breakStatement => pure (.broke id)
  | .continueStatement => pure (.continued id)
  | .debuggerStatement => pure (.normal .undefined)
  | _ => failAt p id (.malformedTree "not a statement")

end

def begin (p : Setting) (id : NodeId) : EvalM NodeKind := do
  enter id
  match p.tree.kind? id with
  | some kind => pure kind
  | none => failAt p id (.malformedTree "missing node")

/-- The evaluator that recurses no deeper than `fuel`, and makes no more trips through a loop. -/
def evaluator (p : Setting) : Nat → Evaluator
  | 0 => ⟨fun _ _ => throw .outOfFuel, fun _ _ => throw .outOfFuel⟩
  -- The fuel that is left bounds the trips of a loop as well.
  | fuel + 1 =>
    ⟨fun id env => do expression p (evaluator p fuel) id env (← begin p id),
      fun id env => do statement p (evaluator p fuel) fuel id env (← begin p id)⟩

/-- The value of a program. `return` is allowed at its outermost level; `break` and `continue` are not. -/
def program (p : Setting) (fuel : Nat) (env : Env) : EvalM Value := do
  match ← (evaluator p fuel).statement p.tree.root env with
  | .normal v => pure v
  | .returned v => pure v
  | .broke node => failAt p node (.controlOutsideLoop "break")
  | .continued node => failAt p node (.controlOutsideLoop "continue")

/-- An error without a place is placed at the node whose evaluation began last. -/
def located (p : Setting) (s : Store) (e : EvalError) : EvalError :=
  match s.current with
  | some node => if e.span.isNone then e.locate node (p.tree.span node) else e
  | none => e

def ending (p : Setting) : EStateM.Result Stop Store Value → Option Ending
  | .ok v s => some (.finished v s.heap s.output)
  | .error (.failed e) s =>
    let e := located p s e
    some (.failed e.fault e.node e.span s.heap s.output)
  | .error .captured _ | .error .outOfFuel _ => none

end Structural

end ExplicitControl
