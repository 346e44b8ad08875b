import ExplicitControl.Printer
import ExplicitControl.Scopes

/-!
Failures of evaluation. A fault says what went wrong, with the values involved; an error adds where it
happened and which calls were live. A fault keeps values and not their texts, so its message is made with the
heap at hand.
-/

namespace ExplicitControl

inductive Side where
  | left | right
deriving DecidableEq, Inhabited

def Side.text : Side → String
  | left => "left"
  | right => "right"

structure CallFrame where
  callee : String
  args : List Value
  span : Span
deriving Inhabited

def CallFrame.text (f : CallFrame) (h : Heap) : String :=
  f.callee ++ "(" ++ ", ".intercalate (f.args.map h.stringify) ++ ")"

inductive Fault where
  | redeclaration (name : String)
  | uninitializedAccess (name : String)
  | undefinedVariable (name : String)
  | constAssignment (name : String)
  | unaryTypeMismatch (op : UnaryOp) (expected : String) (found : Value)
  | binaryTypeMismatch (op : BinaryOp) (side : Side) (expected : String) (found : Value)
  | logicalTypeMismatch (op : LogicalOp) (found : Value)
  | conditionalTypeMismatch (context : String) (found : Value)
  | memberTypeMismatch (part expected : String) (found : Value)
  | arityMismatch (name : String) (expected : Arity) (found : Nat)
  | notCallable (found : Value)
  | controlOutsideLoop (keyword : String)
  /-- `frames` are the most recent calls, oldest first, with the call that did not fit at the end. -/
  | stackOverflow (limit : Nat) (frames : List CallFrame)
  | timeout (steps : Nat)
  | hostFailure (name message : String)
  | stashUnderflow
  | malformedTree (message : String)
  /-- The text of a property's key needs the object that is being written. -/
  | objectInUse
deriving Inhabited

namespace Fault

def kind : Fault → String
  | redeclaration _ => "Redeclaration"
  | uninitializedAccess _ => "UninitializedAccess"
  | undefinedVariable _ => "UndefinedVariable"
  | constAssignment _ => "ConstAssignment"
  | unaryTypeMismatch .. => "UnaryTypeMismatch"
  | binaryTypeMismatch .. => "BinaryTypeMismatch"
  | logicalTypeMismatch .. => "LogicalTypeMismatch"
  | conditionalTypeMismatch .. => "ConditionalTypeMismatch"
  | memberTypeMismatch .. => "MemberTypeMismatch"
  | arityMismatch .. => "ArityMismatch"
  | notCallable _ => "NotCallable"
  | controlOutsideLoop _ => "ControlOutsideLoop"
  | stackOverflow .. => "StackOverflow"
  | timeout _ => "Timeout"
  | hostFailure .. => "HostFailure"
  | stashUnderflow => "StashUnderflow"
  | malformedTree _ => "MalformedTree"
  | objectInUse => "ObjectInUse"

def message (h : Heap) : Fault → String
  | redeclaration name => "`" ++ name ++ "` has already been declared in this scope"
  | uninitializedAccess name => "cannot access `" ++ name ++ "` before initialization"
  | undefinedVariable name => "undefined variable `" ++ name ++ "`"
  | constAssignment name => "assignment to constant `" ++ name ++ "`"
  | unaryTypeMismatch op expected found =>
    "expected " ++ expected ++ " operand for `" ++ op.symbol ++ "`, found " ++ h.describe found
  | binaryTypeMismatch op side expected found =>
    "expected " ++ expected ++ " on the " ++ side.text ++ " of `" ++ op.symbol ++ "`, found " ++
      h.describe found
  | logicalTypeMismatch op found =>
    "expected boolean on the left of `" ++ op.symbol ++ "`, found " ++ h.describe found
  | conditionalTypeMismatch context found =>
    "expected boolean as " ++ context ++ " condition, found " ++ h.describe found
  | memberTypeMismatch part expected found =>
    "expected " ++ expected ++ " as member " ++ part ++ ", found " ++ h.describe found
  | arityMismatch name expected found =>
    "`" ++ name ++ "` expects " ++ expected.text ++ ", got " ++ toString found
  | notCallable found => "calling non-function value " ++ h.describe found
  | controlOutsideLoop keyword => "`" ++ keyword ++ "` outside of a loop"
  | stackOverflow limit frames =>
    "maximum call stack size of " ++ toString limit ++ " exceeded: " ++
      " <- ".intercalate (frames.reverse.map fun f => f.text h)
  | timeout steps => "execution timed out after " ++ toString steps ++ " steps"
  | hostFailure name message => "`" ++ name ++ "` failed: " ++ message
  | stashUnderflow => "internal error: value stack underflow"
  | malformedTree message => "internal error: malformed tree: " ++ message
  | objectInUse => "internal error: object read while one of its properties is written"

def isResource : Fault → Bool
  | stackOverflow .. | timeout _ => true
  | _ => false

/-- The exit code of a command whose program ends in the fault. The fault of an object in use is not one of the
program, and the command breaks off. -/
def exitCode : Fault → Nat
  | objectInUse => 101
  | _ => 1

end Fault

def ScopeError.fault (e : ScopeError) (name : String) : Fault :=
  match e with
  | redeclaration => .redeclaration name
  | uninitialized => .uninitializedAccess name
  | undefined => .undefinedVariable name
  | constant => .constAssignment name

def ScopeError.kind : ScopeError → String
  | redeclaration => "Redeclaration"
  | uninitialized => "Uninitialized"
  | undefined => "Undefined"
  | constant => "Const"

structure Note where
  message : String
  span : Option Span
deriving Inhabited

structure Backtrace where
  frames : List CallFrame
deriving Inhabited

def Backtrace.text (b : Backtrace) (h : Heap) : String :=
  if b.frames.isEmpty then ""
  else
    "stack backtrace:\n" ++ String.join (b.frames.zipIdx.map fun (f, i) =>
      "  " ++ toString i ++ ": " ++ f.text h ++ " at " ++ f.span.text ++ "\n")

structure EvalError where
  fault : Fault
  span : Option Span
  node : Option NodeId
  backtrace : Option Backtrace
  notes : List Note
deriving Inhabited

namespace EvalError

def ofFault (fault : Fault) : EvalError :=
  ⟨fault, none, none, none, []⟩

def message (e : EvalError) (h : Heap) : String :=
  e.fault.message h

/-- Place an error at a node, unless it already has a place. -/
def locate (e : EvalError) (node : NodeId) (span : Span) : EvalError :=
  { e with span := some (e.span.getD span), node := some (e.node.getD node) }

end EvalError

end ExplicitControl
