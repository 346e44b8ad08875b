import ExplicitControl.NameTable
import ExplicitControl.Span
import ExplicitControl.Tree.Operator

/-!
The nodes of a syntax tree. A tree is flat: nodes stand in one list and refer to their children by place,
so that pending work on a node is just its number.
-/

namespace ExplicitControl

structure NodeId where
  index : UInt32
deriving DecidableEq, Inhabited

def NodeId.text (id : NodeId) : String :=
  "NodeId(" ++ toString id.index.toNat ++ ")"

inductive Literal where
  | undefined
  | null
  | bool (b : Bool)
  | number (x : Float)
  | string (s : String)
deriving Inhabited

inductive FunctionBody where
  /-- The one expression of an arrow; no `return` belongs to it. -/
  | expression (expr : NodeId)
  | block (body : List NodeId)
deriving DecidableEq, Inhabited

inductive MemberProperty where
  /-- As in `object.name`. -/
  | named (name : Name)
  /-- As in `object[key]`. -/
  | computed (key : NodeId)
deriving DecidableEq, Inhabited

def MemberProperty.key? : MemberProperty → Option NodeId
  | named _ => none
  | computed key => some key

/-- The kinds of nodes: statements first, then expressions. -/
inductive NodeKind where
  | program (body : List NodeId)
  | block (body : List NodeId)
  | expressionStatement (expr : NodeId)
  | declaration (kind : DeclKind) (name : Name) (init : NodeId)
  /-- Binds `name` as a `const` does. -/
  | functionDeclaration (name : Name) (function : NodeId)
  | returnStatement (argument : Option NodeId)
  | ifStatement (test consequent : NodeId) (alternate : Option NodeId)
  | whileLoop (test body : NodeId)
  /-- A missing test holds for ever. -/
  | forLoop (init test update : Option NodeId) (body : NodeId)
  | breakStatement
  | continueStatement
  | debuggerStatement
  | literal (value : Literal)
  | identifier (name : Name)
  | this
  | function (name : Option Name) (params : List Name) (body : FunctionBody)
  | unary (op : UnaryOp) (operand : NodeId)
  | binary (op : BinaryOp) (left right : NodeId)
  | logical (op : LogicalOp) (left right : NodeId)
  | conditional (test consequent alternate : NodeId)
  | assignment (name : Name) (value : NodeId)
  | call (callee : NodeId) (args : List NodeId)
  | arrayLiteral (elements : List NodeId)
  | objectLiteral (properties : List (Name × NodeId))
  | member (object : NodeId) (property : MemberProperty)
  | memberAssignment (object : NodeId) (property : MemberProperty) (value : NodeId)
deriving Inhabited

namespace NodeKind

def describe : NodeKind → String
  | program _ => "program"
  | block _ => "block"
  | expressionStatement _ => "expression statement"
  | declaration .. => "declaration"
  | functionDeclaration .. => "function declaration"
  | returnStatement _ => "return statement"
  | ifStatement .. => "if statement"
  | whileLoop .. => "while loop"
  | forLoop .. => "for loop"
  | breakStatement => "break statement"
  | continueStatement => "continue statement"
  | debuggerStatement => "debugger statement"
  | literal _ => "literal"
  | identifier _ => "identifier"
  | this => "this"
  | function .. => "function"
  | unary .. => "unary expression"
  | binary .. => "binary expression"
  | logical .. => "logical expression"
  | conditional .. => "conditional expression"
  | assignment .. => "assignment"
  | call .. => "call expression"
  | arrayLiteral _ => "array literal"
  | objectLiteral _ => "object literal"
  | member .. => "member access"
  | memberAssignment .. => "member assignment"

def isStatement : NodeKind → Bool
  | program _ | block _ | expressionStatement _ | declaration .. | functionDeclaration ..
  | returnStatement _ | ifStatement .. | whileLoop .. | forLoop .. | breakStatement
  | continueStatement | debuggerStatement => true
  | _ => false

def isProgram : NodeKind → Bool
  | program _ => true
  | _ => false

def isFunction : NodeKind → Bool
  | function .. => true
  | _ => false

def isDebugger : NodeKind → Bool
  | debuggerStatement => true
  | _ => false

/-- Every node that the kind refers to, in the order of the program's text. -/
def children : NodeKind → List NodeId
  | program body | block body => body
  | expressionStatement expr => [expr]
  | declaration _ _ init => [init]
  | functionDeclaration _ declared => [declared]
  | returnStatement argument => argument.toList
  | ifStatement test consequent alternate => test :: consequent :: alternate.toList
  | whileLoop test body => [test, body]
  | forLoop init test update body => init.toList ++ test.toList ++ update.toList ++ [body]
  | breakStatement | continueStatement | debuggerStatement | literal _ | identifier _ | this => []
  | function _ _ (.expression expr) => [expr]
  | function _ _ (.block body) => body
  | unary _ operand => [operand]
  | binary _ left right | logical _ left right => [left, right]
  | conditional test consequent alternate => [test, consequent, alternate]
  | assignment _ value => [value]
  | call callee args => callee :: args
  | arrayLiteral elements => elements
  | objectLiteral properties => properties.map Prod.snd
  | member object property => object :: property.key?.toList
  | memberAssignment object property value => object :: (property.key?.toList ++ [value])

end NodeKind

structure Node where
  kind : NodeKind
  span : Span
deriving Inhabited

end ExplicitControl
