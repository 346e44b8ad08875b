import ExplicitControl.Machine.State

/-!
Evaluating a node: what remains to be done becomes items of work. A statement leaves one value on the stash
in the end, and so does an expression; in a sequence the values of all statements but the last are dropped.
-/

namespace ExplicitControl.Machine

def literalValue : Literal → Value
  | .undefined => .undefined
  | .null => .null
  | .bool b => .bool b
  | .number x => .number x
  | .string s => .string s

def loopTest : Option NodeId → Item
  | some test => .node test
  | none => .instr (.push (.bool true))

def keyItem (p : Setting) : MemberProperty → Item
  | .named name => .instr (.push (.string (p.nameText name)))
  | .computed key => .node key

def declareAll (p : Setting) (body : List NodeId) : MachineM Unit :=
  (p.tree.declarations body).forM fun (node, name, kind) => do
    onName p node name (Scopes.declare (← get).env name kind.mutability)

/-- Go into a new frame, and make sure that the current one comes back. If the next item brings another back
anyway, nothing runs in between, and nothing is scheduled: a call that ends the scope stays a tail call. -/
def enterScope (name : String) : MachineM Unit := do
  let env := (← get).env
  unless (← get).agenda.head?.any Item.isRestore do
    schedule [.instr (.restore env false)]
  setEnv (← newFrame fun id scopes => scopes.child env id name)

/-- The work of a block. Only a block that declares something gets a frame. -/
def evalBlock (p : Setting) (body : List NodeId) (name : String) : MachineM Unit := do
  if p.tree.hasDeclarations body then
    enterScope name
    declareAll p body
  schedule (Agenda.ofStatements body)

/-- The work of `return`. If nothing but ends of scopes lies between here and the end of the function, that
work is discarded at once, so that a call in the argument is a tail call. -/
def evalReturn (argument : Option NodeId) : MachineM Unit := do
  let value := (argument.map Item.node).getD (.instr (.push .undefined))
  if Agenda.inTailPosition (← get).agenda then
    modify fun s => { s with agenda := value :: Agenda.unwindCall s.agenda }
  else schedule [value, .instr .reset]

def loopDeclaration (p : Setting) (init : Option NodeId) : Option (NodeId × Name × DeclKind) :=
  init.bind fun node =>
    match p.tree.kind? node with
    | some (.declaration kind name _) => some (node, name, kind)
    | _ => none

/-- The work of a `for` loop. A variable declared in its head lives in a frame of its own, which each trip
copies. -/
def evalFor (p : Setting) (id : NodeId) (init test update : Option NodeId) (body : NodeId) :
    MachineM Unit := do
  let mut vars := []
  if let some (node, name, kind) := loopDeclaration p init then
    enterScope "for"
    onName p node name (Scopes.declare (← get).env name kind.mutability)
    vars := [name]
  let start := (init.map fun node => [Item.node node, .instr .pop]).getD []
  schedule (start ++ [.instr (.freshTrip vars), .instr (.push .undefined), loopTest test,
    .instr (.forTest test update body vars id), .instr (.marker .loopEnd)])

/-- The work of a call. On a member expression the object is evaluated once and stays beneath the callee, as
the receiver. -/
def evalCall (p : Setting) (id callee : NodeId) (args : List NodeId) : MachineM Unit := do
  let arguments := args.map Item.node
  match ← kindOf p callee with
  | .member object (.named name) =>
    schedule (.node object :: .instr (.methodLookup (some name) callee) ::
      (arguments ++ [.instr (.apply args.length true id)]))
  | .member object (.computed key) =>
    schedule (.node object :: .node key :: .instr (.methodLookup none callee) ::
      (arguments ++ [.instr (.apply args.length true id)]))
  | _ => schedule (.node callee :: (arguments ++ [.instr (.apply args.length false id)]))

def makeClosure (id : NodeId) (name : Option Name) (arity : Nat) : MachineM Value := do
  let identity ← freshIdentity
  return .closure identity ⟨id, name, arity, (← get).env⟩

def evalIdentifier (p : Setting) (id : NodeId) (name : Name) : MachineM Unit := do
  match (← get).scopes.lookup (← get).env name with
  | .ok v => push v
  | .error e => failAt p id (e.fault (p.nameText name))

def evalKind (p : Setting) (id : NodeId) : NodeKind → MachineM Unit
  | .program body => do
    schedule [.instr .pushUndefinedIfNeeded]
    evalBlock p body "program"
  | .block body => evalBlock p body "block"
  | .expressionStatement expr => schedule [.node expr]
  | .declaration _ name init => schedule [.node init, .instr (.declare name id)]
  | .functionDeclaration name declared => schedule [.node declared, .instr (.declare name id)]
  | .returnStatement argument => evalReturn argument
  | .ifStatement test consequent alternate =>
    schedule [.node test, .instr (.branch consequent alternate id)]
  | .whileLoop test body =>
    schedule [.instr (.push .undefined), .node test, .instr (.whileTest test body id),
      .instr (.marker .loopEnd)]
  | .forLoop init test update body => evalFor p id init test update body
  | .breakStatement => schedule [.instr (.breakLoop id)]
  | .continueStatement => schedule [.instr (.continueLoop id)]
  | .debuggerStatement => push .undefined
  | .literal literal => push (literalValue literal)
  | .identifier name => evalIdentifier p id name
  | .this => do push (((← get).scopes.receiver? (← get).env).getD .undefined)
  | .function name params _ => do push (← makeClosure id name params.length)
  | .unary op operand => schedule [.node operand, .instr (.unary op id)]
  | .binary op left right => schedule [.node left, .node right, .instr (.binary op id)]
  | .logical op left right => schedule [.node left, .instr (.logical op right id)]
  | .conditional test consequent alternate =>
    schedule [.node test, .instr (.branch consequent (some alternate) id)]
  | .assignment name value => schedule [.node value, .instr (.assign name id)]
  | .call callee args => evalCall p id callee args
  | .arrayLiteral elements =>
    schedule (elements.map Item.node ++ [.instr (.makeArray elements.length id)])
  | .objectLiteral properties =>
    schedule (properties.map (fun property => Item.node property.2) ++
      [.instr (.makeObject (properties.map Prod.fst) id)])
  | .member object property =>
    schedule [.node object, keyItem p property, .instr (.memberGet id)]
  | .memberAssignment object property value =>
    schedule [.node object, keyItem p property, .node value, .instr (.memberSet id)]

def evalNode (p : Setting) (id : NodeId) : MachineM Unit := do
  evalKind p id (← kindOf p id)

end ExplicitControl.Machine
