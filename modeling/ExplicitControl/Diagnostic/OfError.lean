import ExplicitControl.Diagnostic.Basic
import ExplicitControl.EvalError

/-!
Diagnostics of evaluation errors. A stack overflow lists the calls that it keeps, oldest first; any other
error inside a function lists the live calls, most recent first.
-/

namespace ExplicitControl

namespace Fault

def code : Fault → ErrorCode
  | redeclaration _ => .e7001
  | uninitializedAccess _ => .e7002
  | undefinedVariable _ => .e7003
  | constAssignment _ => .e7004
  | unaryTypeMismatch .. => .e7101
  | binaryTypeMismatch .. => .e7102
  | logicalTypeMismatch .. => .e7103
  | conditionalTypeMismatch .. => .e7104
  | memberTypeMismatch .. => .e7105
  | arityMismatch .. => .e7201
  | notCallable _ => .e7202
  | controlOutsideLoop _ => .e7203
  | hostFailure .. => .e7204
  | stackOverflow .. => .e7301
  | timeout _ => .e7302
  | stashUnderflow | malformedTree _ | objectInUse => .e9001

def label (h : Heap) : Fault → String
  | redeclaration name => "`" ++ name ++ "` declared again here"
  | uninitializedAccess name => "`" ++ name ++ "` is in its temporal dead zone here"
  | undefinedVariable name => "`" ++ name ++ "` is not in scope"
  | constAssignment name => "cannot assign to `" ++ name ++ "`"
  | unaryTypeMismatch _ _ found | binaryTypeMismatch _ _ _ found | logicalTypeMismatch _ found
  | conditionalTypeMismatch _ found | memberTypeMismatch _ _ found => "this is " ++ h.describe found
  | arityMismatch _ _ found => "called with " ++ Arity.countText found
  | notCallable _ => "not a function"
  | controlOutsideLoop keyword => "`" ++ keyword ++ "` used here"
  | hostFailure name _ => "`" ++ name ++ "` called here"
  | stackOverflow .. => "this call exceeded the limit"
  | timeout _ => "evaluation stopped here"
  | stashUnderflow | malformedTree _ | objectInUse => "while evaluating this"

def suggestion? : Fault → Option String
  | uninitializedAccess name => some ("move the declaration of `" ++ name ++ "` before its first use")
  | constAssignment name => some ("declare `" ++ name ++ "` with `let` to allow reassignment")
  | binaryTypeMismatch .. | unaryTypeMismatch .. =>
    some "run with `--native` to use host coercions instead of checks"
  | stackOverflow .. =>
    some "calls in tail position do not grow the stack; raise the limit with `--max-depth`"
  | timeout _ => some "raise the limit with `--steps` or `--timeout-ms`"
  | _ => none

end Fault

namespace EvalError

def callChain (e : EvalError) : List CallFrame :=
  match e.fault, e.backtrace with
  | .stackOverflow _ frames, _ => frames
  | _, some backtrace => backtrace.frames
  | _, none => []

def addNote (d : Diagnostic) (note : Note) : Diagnostic :=
  let d :=
    match note.span with
    | some span => d.withSecondaryLabel span note.message
    | none => d
  d.withNote note.message

def toDiagnostic (e : EvalError) (h : Heap) : Diagnostic :=
  let d := (Diagnostic.ofCode e.fault.code).withMessage (e.message h)
  let d :=
    match e.span with
    | some span => d.withLabel span (e.fault.label h)
    | none => d
  let d := { d with callChain := e.callChain.map fun frame => ⟨frame.text h, frame.span⟩ }
  let d := e.notes.foldl addNote d
  match e.fault.suggestion? with
  | some suggestion => d.withSuggestion suggestion
  | none => d

end EvalError

end ExplicitControl
