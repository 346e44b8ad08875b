/-!
The operators of the language, by the place of their operands and the way they are evaluated.
-/

namespace ExplicitControl

inductive BinaryOp where
  | add | sub | mul | div | mod
  | strictEq | strictNotEq
  | lt | ltEq | gt | gtEq
deriving DecidableEq, Inhabited

namespace BinaryOp

def all : List BinaryOp :=
  [add, sub, mul, div, mod, strictEq, strictNotEq, lt, ltEq, gt, gtEq]

def symbol : BinaryOp → String
  | add => "+"
  | sub => "-"
  | mul => "*"
  | div => "/"
  | mod => "%"
  | strictEq => "==="
  | strictNotEq => "!=="
  | lt => "<"
  | ltEq => "<="
  | gt => ">"
  | gtEq => ">="

/-- The operator as a tree writes it. -/
def tag : BinaryOp → String
  | add => "Add"
  | sub => "Sub"
  | mul => "Mul"
  | div => "Div"
  | mod => "Mod"
  | strictEq => "StrictEq"
  | strictNotEq => "StrictNotEq"
  | lt => "Lt"
  | ltEq => "LtEq"
  | gt => "Gt"
  | gtEq => "GtEq"

def isComparison (op : BinaryOp) : Bool :=
  op == lt || op == ltEq || op == gt || op == gtEq

def isEquality (op : BinaryOp) : Bool :=
  op == strictEq || op == strictNotEq

end BinaryOp

inductive UnaryOp where
  | not | neg
deriving DecidableEq, Inhabited

namespace UnaryOp

def all : List UnaryOp := [not, neg]

def symbol : UnaryOp → String
  | not => "!"
  | neg => "-"

def tag : UnaryOp → String
  | not => "Not"
  | neg => "Neg"

end UnaryOp

inductive LogicalOp where
  | and | or
deriving DecidableEq, Inhabited

namespace LogicalOp

def all : List LogicalOp := [and, or]

def symbol : LogicalOp → String
  | and => "&&"
  | or => "||"

def tag : LogicalOp → String
  | and => "And"
  | or => "Or"

/-- The truth of the left operand that decides. -/
def shortCircuitsOn (op : LogicalOp) : Bool :=
  op == or

end LogicalOp

inductive DeclKind where
  | letKind | constKind
deriving DecidableEq, Inhabited

namespace DeclKind

def all : List DeclKind := [letKind, constKind]

def isConst (kind : DeclKind) : Bool :=
  kind == constKind

def keyword : DeclKind → String
  | letKind => "let"
  | constKind => "const"

def tag : DeclKind → String
  | letKind => "Let"
  | constKind => "Const"

end DeclKind

end ExplicitControl
