import ExplicitControl.Machine.Apply

/-!
Carrying out items of work.
-/

namespace ExplicitControl.Machine

/-- Schedule one more trip through a `for` loop: the body, fresh copies of the variables, the update, the
test. -/
def nextTrip (test update : Option NodeId) (body : NodeId) (vars : List Name) (node : NodeId) :
    MachineM Unit :=
  let updating := (update.map fun id => [Item.node id, .instr .pop]).getD []
  schedule ([.instr .pop, .node body, .instr (.marker .tripEnd), .instr (.freshTrip vars)] ++
    updating ++ [loopTest test, .instr (.forTest test update body vars node)])

/-- Discard work up to the end of the loop, or of the trip through it. The end of a scope on the way comes
first, and the search goes on after it. -/
def leaveLoop (p : Setting) (target : Marker) (keyword : String) (again : Instr) (node : NodeId) :
    MachineM Unit := do
  match Agenda.searchLoop target (← get).agenda with
  | .reached rest =>
    modify fun s => { s with agenda := rest }
    push .undefined
  | .scope item rest => modify fun s => { s with agenda := item :: .instr again :: rest }
  | .outside => failAt p node (.controlOutsideLoop keyword)

def findMethod (p : Setting) (h : Heap) (object key : Value) : Except Fault Value :=
  match object, key with
  | .array _, .string name =>
    match p.methods.lookup name with
    | some method => .ok method
    | none => memberGet h object key p.checks
  | _, _ => memberGet h object key p.checks

def branch (p : Setting) (consequent : NodeId) (alternate : Option NodeId) (node : NodeId) :
    MachineM Unit := do
  let context :=
    match p.tree.kind? node with
    | some (.ifStatement ..) => "if"
    | _ => "conditional"
  let test ← pop
  if ← orFailAt p node (test.condition context p.checks) then schedule [.node consequent]
  else
    match alternate with
    | some alternate => schedule [.node alternate]
    | none => push .undefined

def logical (p : Setting) (op : LogicalOp) (right node : NodeId) : MachineM Unit := do
  let left ← pop
  if (← orFailAt p node (op.truth left p.checks)) == op.shortCircuitsOn then push left
  else schedule [.node right]

def execInstr (p : Setting) : Instr → MachineM Unit
  | .reset => modify fun s => { s with agenda := Agenda.unwindCall s.agenda }
  | .marker .call => onStash (Stash.replaceTop .undefined)
  | .marker .loopEnd => pure ()
  | .marker .tripEnd => pure ()
  | .pop => do let _ ← pop
  | .push v => push v
  | .pushUndefinedIfNeeded => do if (← get).stash.isEmpty then push .undefined
  | .assign name node => do
    let v ← onStash Stash.peek
    onName p node name (Scopes.assign (← get).env name v)
  | .declare name node => do
    let v ← pop
    onName p node name (Scopes.fill (← get).env name v)
    push .undefined
  | .unary op node => do
    let operand ← pop
    push (← orFailAt p node (op.eval operand p.checks))
  | .binary op node => do
    let right ← pop
    let left ← pop
    push (← orFailAt p node (op.eval (← get).heap left right p.checks))
  | .logical op right node => logical p op right node
  | .branch consequent alternate node => branch p consequent alternate node
  | .restore env closesCall => do
    setEnv env
    if closesCall then modify fun s => { s with calls := s.calls.pop }
  | .whileTest test body node => do
    let value ← pop
    if ← orFailAt p node (value.condition "while" p.checks) then
      schedule [.instr .pop, .node body, .instr (.marker .tripEnd), .node test,
        .instr (.whileTest test body node)]
  | .forTest test update body vars node => do
    let value ← pop
    if ← orFailAt p node (value.condition "for" p.checks) then nextTrip test update body vars node
  | .freshTrip vars => do
    unless vars.isEmpty do
      let env := (← get).env
      setEnv (← newFrame fun id scopes => scopes.copyBindings env id vars)
  | .apply arity hasReceiver node => apply p arity hasReceiver node
  | .breakLoop node => leaveLoop p .loopEnd "break" (.breakLoop node) node
  | .continueLoop node => leaveLoop p .tripEnd "continue" (.continueLoop node) node
  | .makeArray size _ => do
    let elements ← onStash (Stash.popN size)
    push (← allocate fun heap => heap.allocArray elements.toArray)
  | .makeObject keys _ => do
    let values ← onStash (Stash.popN keys.length)
    let o := Object.ofPairs ((keys.map p.nameText).zip values)
    push (← allocate fun heap => heap.allocObject o)
  | .memberGet node => do
    let key ← pop
    let object ← pop
    push (← orFailAt p node (ExplicitControl.memberGet (← get).heap object key p.checks))
  | .memberSet node => do
    let v ← pop
    let key ← pop
    let object ← pop
    onHeap p node (ExplicitControl.memberSet object key v p.checks)
    push v
  | .methodLookup property node => do
    let key ←
      match property with
      | some name => pure (.string (p.nameText name))
      | none => pop
    let object ← onStash Stash.peek
    push (← orFailAt p node (findMethod p (← get).heap object key))

def execute (p : Setting) (item : Item) : MachineM Unit := do
  tick p
  match item with
  | .node id =>
    modify fun s => { s with current := some id }
    evalNode p id
  | .instr i => execInstr p i

/-- Complete an error: it is placed at the node evaluated last if it has no place, and tells the live
calls. -/
def locateError (p : Setting) (s : State) (e : EvalError) : EvalError :=
  let e :=
    match s.current with
    | some node => if e.span.isNone then e.locate node (p.tree.span node) else e
    | none => e
  s.calls.attachBacktrace e

end ExplicitControl.Machine
