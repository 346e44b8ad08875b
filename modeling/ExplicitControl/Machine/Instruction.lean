import ExplicitControl.Value

/-!
The work that is still to be done. An item of work is a node to evaluate or an instruction to carry out. An
instruction holds all that it needs and does nothing until its turn comes.
-/

namespace ExplicitControl

inductive Marker where
  /-- The end of a function body, where `return` goes. -/
  | call
  /-- The end of a loop, where `break` goes. -/
  | loopEnd
  /-- The end of one trip through a loop, where `continue` goes. -/
  | tripEnd
deriving DecidableEq, Inhabited

inductive Instr where
  /-- Discard work through the nearest call marker. -/
  | reset
  | marker (m : Marker)
  | pop
  | push (v : Value)
  /-- Make sure that there is a value in the end. -/
  | pushUndefinedIfNeeded
  /-- Assign the topmost value, which stays. -/
  | assign (name : Name) (node : NodeId)
  /-- Give a declared variable the topmost value; the declaration itself has the value `undefined`. -/
  | declare (name : Name) (node : NodeId)
  | unary (op : UnaryOp) (node : NodeId)
  | binary (op : BinaryOp) (node : NodeId)
  /-- Evaluate the right operand if the topmost value does not decide. -/
  | logical (op : LogicalOp) (right node : NodeId)
  /-- Evaluate one of two nodes; a missing one stands for `undefined`. -/
  | branch (consequent : NodeId) (alternate : Option NodeId) (node : NodeId)
  /-- Make an environment current again; `closesCall` if that ends a call. -/
  | restore (env : Env) (closesCall : Bool)
  /-- The test has been evaluated; beneath it is the value of the trip before. -/
  | whileTest (test body node : NodeId)
  | forTest (test update : Option NodeId) (body : NodeId) (vars : List Name) (node : NodeId)
  /-- Go on with fresh copies of the loop's variables. -/
  | freshTrip (vars : List Name)
  /-- Callee and arguments have been evaluated, and beneath them the receiver if there is one. -/
  | apply (arity : Nat) (hasReceiver : Bool) (node : NodeId)
  | breakLoop (node : NodeId)
  | continueLoop (node : NodeId)
  | makeArray (size : Nat) (node : NodeId)
  | makeObject (keys : List Name) (node : NodeId)
  | memberGet (node : NodeId)
  | memberSet (node : NodeId)
  /-- Find a method of the topmost value, which stays as the receiver. Without a name the key has been
  evaluated. -/
  | methodLookup (property : Option Name) (node : NodeId)
deriving Inhabited

def Instr.describe : Instr → String
  | reset => "reset"
  | marker .call => "call marker"
  | marker .loopEnd => "break marker"
  | marker .tripEnd => "continue marker"
  | pop => "pop"
  | push _ => "push"
  | pushUndefinedIfNeeded => "push undefined if needed"
  | assign .. => "assign"
  | declare .. => "declare"
  | unary .. => "unary"
  | binary .. => "binary"
  | logical .. => "logical"
  | branch .. => "branch"
  | restore .. => "environment"
  | whileTest .. => "while"
  | forTest .. => "for"
  | freshTrip _ => "iteration environment"
  | apply .. => "application"
  | breakLoop _ => "break"
  | continueLoop _ => "continue"
  | makeArray .. => "array literal"
  | makeObject .. => "object literal"
  | memberGet _ => "member access"
  | memberSet _ => "member assign"
  | methodLookup .. => "method lookup"

inductive Item where
  | node (id : NodeId)
  | instr (i : Instr)
deriving Inhabited

namespace Item

def isMarker (item : Item) (m : Marker) : Bool :=
  match item with
  | instr (.marker found) => found == m
  | _ => false

def isRestore : Item → Bool
  | instr (.restore ..) => true
  | _ => false

def text : Item → String
  | node id => "node " ++ toString id.index.toNat
  | instr i => i.describe

end Item

abbrev Agenda := List Item

namespace Agenda

/-- Discard items through the nearest call marker. -/
def unwindCall : Agenda → Agenda
  | [] => []
  | item :: rest => if item.isMarker .call then rest else unwindCall rest

/-- Whether nothing but the ends of scopes comes before the end of the function. -/
def inTailPosition : Agenda → Bool
  | .instr (.restore _ false) :: rest => inTailPosition rest
  | item :: _ => item.isMarker .call
  | [] => false

/-- Where a search for the end of a loop, or of a trip through it, leads. -/
inductive LoopSearch where
  /-- To the marker searched for; the items after it. -/
  | reached (rest : Agenda)
  /-- To the end of a scope, which comes first; that item, and those after it. -/
  | scope (item : Item) (rest : Agenda)
  /-- To the end of the function or of all work. -/
  | outside

def searchLoop (target : Marker) : Agenda → LoopSearch
  | [] => .outside
  | item :: rest =>
    if item.isMarker target then .reached rest
    else if item.isMarker .call then .outside
    else if item.isRestore then .scope item rest
    else searchLoop target rest

/-- The work of a list of statements: the value of each but the last is dropped, and an empty list has the
value `undefined`. -/
def ofStatements : List NodeId → Agenda
  | [] => [.instr (.push .undefined)]
  | [id] => [.node id]
  | id :: rest => .node id :: .instr .pop :: ofStatements rest

end Agenda

end ExplicitControl
