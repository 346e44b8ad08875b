import ExplicitControl.Host.Basic
import ExplicitControl.Member

/-!
What every program finds: a few functions for output, types, numbers and arrays, the methods of arrays, and
constants.
-/

namespace ExplicitControl.Prelude

def functions : List HostFunction :=
  [⟨"display", .atLeast 1, .builtin .display⟩,
   ⟨"error", .atLeast 1, .builtin .error⟩,
   ⟨"stringify", .exact 1, .builtin .stringify⟩,
   ⟨"array_length", .exact 1, .builtin .arrayLength⟩,
   ⟨"push", .atLeast 1, .builtin .push⟩,
   ⟨"is_number", .exact 1, .builtin .isNumber⟩,
   ⟨"is_string", .exact 1, .builtin .isString⟩,
   ⟨"is_boolean", .exact 1, .builtin .isBoolean⟩,
   ⟨"is_function", .exact 1, .builtin .isFunction⟩,
   ⟨"is_array", .exact 1, .builtin .isArray⟩,
   ⟨"is_undefined", .exact 1, .builtin .isUndefined⟩,
   ⟨"math_floor", .exact 1, .builtin .mathFloor⟩,
   ⟨"math_sqrt", .exact 1, .builtin .mathSqrt⟩]

def methods : List HostFunction :=
  [⟨"push", .atLeast 0, .builtin .pushMethod⟩,
   ⟨"pop", .exact 0, .builtin .popMethod⟩]

def constants : List (String × Value) :=
  [("undefined", .undefined), ("NaN", .number (0.0 / 0.0)), ("Infinity", .number (1.0 / 0.0)),
   ("call_cc", .callCc)]

def join (h : Heap) (args : List Value) : String :=
  " ".intercalate (args.map h.display)

def first (args : List Value) : Value :=
  args.head?.getD .undefined

def failed (message : String) : HostM α :=
  throw (.failed message)

def display (args : List Value) : HostM Value := fun ⟨heap, output⟩ =>
  .ok (first args) ⟨heap, output.println (join heap args)⟩

def error (args : List Value) : HostM Value := do
  failed (join (← get).heap args)

def stringify (args : List Value) : HostM Value := do
  return .string ((← get).heap.stringify (first args))

def arrayLength (args : List Value) : HostM Value := do
  let h := (← get).heap
  match first args with
  | .array c => return Member.length ((h.array? c).getD #[]).size
  | other => failed ("expected an array, found " ++ h.describe other)

def append (target : Value) (vs : List Value) : HostM Value := fun ⟨heap, output⟩ =>
  match target with
  | .array c =>
    let heap := heap.modifyArray c fun elements => elements ++ vs.toArray
    .ok (Member.length ((heap.array? c).getD #[]).size) ⟨heap, output⟩
  | other => .error (.failed ("cannot push onto " ++ heap.describe other)) ⟨heap, output⟩

def push (args : List Value) : HostM Value :=
  match args with
  | [] => failed "push expects an array"
  | target :: vs => append target vs

def popMethod (receiver : Option Value) : HostM Value := fun ⟨heap, output⟩ =>
  match receiver with
  | some (.array c) =>
    let last := ((heap.array? c).getD #[]).back?
    .ok (last.getD .undefined) ⟨heap.modifyArray c Array.pop, output⟩
  | some other => .error (.failed ("cannot pop from " ++ heap.describe other)) ⟨heap, output⟩
  | none => .error (.failed "cannot pop from nothing") ⟨heap, output⟩

def test (p : Value → Bool) (args : List Value) : HostM Value :=
  return .bool (p (first args))

def numberArgument (name : String) (args : List Value) : HostM Float := do
  match first args with
  | .number x => return x
  | other => failed (name ++ " expects a number, found " ++ (← get).heap.describe other)

def mathFloor (args : List Value) : HostM Value := do
  return .number (← numberArgument "math_floor" args).floor

def mathSqrt (args : List Value) : HostM Value := do
  let x ← numberArgument "math_sqrt" args
  if x < 0 then failed ("math_sqrt of negative number " ++ Decimal.numberText x)
  else return .number x.sqrt

def body (b : Builtin) : HostBody := fun receiver args =>
  match b with
  | .display => display args
  | .error => error args
  | .stringify => stringify args
  | .arrayLength => arrayLength args
  | .push => push args
  | .isNumber => test (fun v => v matches .number _) args
  | .isString => test (fun v => v matches .string _) args
  | .isBoolean => test (fun v => v matches .bool _) args
  | .isFunction => test Value.isCallable args
  | .isArray => test (fun v => v matches .array _) args
  | .isUndefined => test (fun v => v matches .undefined) args
  | .mathFloor => mathFloor args
  | .mathSqrt => mathSqrt args
  | .pushMethod => append (receiver.getD .undefined) args
  | .popMethod => popMethod receiver

end ExplicitControl.Prelude
