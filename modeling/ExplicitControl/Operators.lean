import ExplicitControl.Decimal.Reader
import ExplicitControl.EvalError
import ExplicitControl.Text.Blank

/-!
What operators and conditions mean. Each looks at its operands first and fails before it has any effect. With
a check switched off the operands are converted instead: to truth values, to numbers or to strings.
-/

namespace ExplicitControl

structure RuntimeChecks where
  unary : Bool
  binary : Bool
  /-- The left operands of `&&` and `||`. -/
  logical : Bool
  /-- The tests of branches and loops. -/
  conditional : Bool
  member : Bool
deriving DecidableEq

namespace RuntimeChecks

def all : RuntimeChecks := ⟨true, true, true, true, true⟩
def none : RuntimeChecks := ⟨false, false, false, false, false⟩

/-- The checks as one number, a bit for each family. -/
def bits (c : RuntimeChecks) : Nat :=
  c.unary.toNat + 2 * c.binary.toNat + 4 * c.logical.toNat + 8 * c.conditional.toNat +
    16 * c.member.toNat

end RuntimeChecks

inductive LanguageLevel where
  /-- A teaching language: everything is checked. -/
  | source (chapter : UInt8)
  /-- Nothing is checked, operands are converted. -/
  | native
deriving DecidableEq

namespace LanguageLevel

def checks : LanguageLevel → RuntimeChecks
  | source _ => .all
  | native => .none

def inspect : LanguageLevel → String
  | source chapter => "Source \x7b chapter: " ++ toString chapter.toNat ++ " \x7d"
  | native => "Native"

end LanguageLevel

def Value.toNumber : Value → Float
  | null => 0
  | bool b => if b then 1 else 0
  | number x => x
  | string s =>
    let cs := Text.trimBlanks s.toList
    if cs.isEmpty then 0 else (Decimal.read? cs).getD (0.0 / 0.0)
  | _ => 0.0 / 0.0

namespace UnaryOp

def eval (op : UnaryOp) (operand : Value) (checks : RuntimeChecks) : Except Fault Value :=
  match op, operand with
  | not, .bool b => .ok (.bool (!b))
  | neg, .number x => .ok (.number (-x))
  | not, found =>
    if checks.unary then .error (.unaryTypeMismatch op "boolean" found)
    else .ok (.bool (!found.isTruthy))
  | neg, found =>
    if checks.unary then .error (.unaryTypeMismatch op "number" found)
    else .ok (.number (-found.toNumber))

end UnaryOp

namespace BinaryOp

def mismatch? (op : BinaryOp) (left right : Value) : Option Fault :=
  if op == add || op.isComparison then
    match left, right with
    | .number _, .number _ | .string _, .string _ => none
    | .number _, found => some (.binaryTypeMismatch op .right "number" found)
    | .string _, found => some (.binaryTypeMismatch op .right "string" found)
    | found, _ => some (.binaryTypeMismatch op .left "number or string" found)
  else
    match left, right with
    | .number _, .number _ => none
    | .number _, found => some (.binaryTypeMismatch op .right "number" found)
    | found, _ => some (.binaryTypeMismatch op .left "number" found)

/-- The order of two values: of strings by their characters, of numbers otherwise; none if one is no
number. -/
def order? (left right : Value) : Option Ordering :=
  match left, right with
  | .string a, .string b => some (if a < b then .lt else if a == b then .eq else .gt)
  | left, right =>
    let x := left.toNumber
    let y := right.toNumber
    if x < y then some .lt
    else if x == y then some .eq
    else if y < x then some .gt
    else none

def holds (op : BinaryOp) (order : Ordering) : Bool :=
  match op with
  | lt => order.isLT
  | ltEq => order.isLE
  | gt => order.isGT
  | _ => order.isGE

def sum (h : Heap) (left right : Value) : Value :=
  match left, right with
  | .number x, .number y => .number (x + y)
  | .string _, _ | _, .string _ => .string (h.display left ++ h.display right)
  | left, right => .number (left.toNumber + right.toNumber)

def apply (op : BinaryOp) (h : Heap) (left right : Value) : Value :=
  match op with
  | add => sum h left right
  | sub => .number (left.toNumber - right.toNumber)
  | mul => .number (left.toNumber * right.toNumber)
  | div => .number (left.toNumber / right.toNumber)
  | mod => .number (Decimal.remainder left.toNumber right.toNumber)
  | strictEq => .bool (left.strictEquals right)
  | strictNotEq => .bool (!left.strictEquals right)
  | lt | ltEq | gt | gtEq => .bool ((order? left right).any op.holds)

def eval (op : BinaryOp) (h : Heap) (left right : Value) (checks : RuntimeChecks) :
    Except Fault Value :=
  if checks.binary && !op.isEquality then
    match op.mismatch? left right with
    | some fault => .error fault
    | none => .ok (op.apply h left right)
  else .ok (op.apply h left right)

end BinaryOp

def LogicalOp.truth (op : LogicalOp) (left : Value) (checks : RuntimeChecks) : Except Fault Bool :=
  match left with
  | .bool b => .ok b
  | found => if checks.logical then .error (.logicalTypeMismatch op found) else .ok found.isTruthy

/-- The truth of the test of a branch or loop; `context` names the construct. -/
def Value.condition (context : String) (test : Value) (checks : RuntimeChecks) : Except Fault Bool :=
  match test with
  | .bool b => .ok b
  | found =>
    if checks.conditional then .error (.conditionalTypeMismatch context found)
    else .ok found.isTruthy

end ExplicitControl
