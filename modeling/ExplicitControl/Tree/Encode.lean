import ExplicitControl.Json.Basic
import ExplicitControl.Tree.Basic

/-!
The JSON document of a tree: the names in the order of their places, the nodes, and the root. A node kind is
an object with one member, named for the kind; kinds without contents are plain strings.
-/

namespace ExplicitControl

namespace Json

def ofUInt32 (n : UInt32) : Json :=
  .number (.natural n.toUInt64)

def tagged (tag : String) (payload : Json) : Json :=
  .object [(tag, payload)]

end Json

namespace Encode

def id (id : NodeId) : Json := .ofUInt32 id.index
def ids (ids : List NodeId) : Json := .array (ids.map id)
def optionalId (id? : Option NodeId) : Json := (id?.map id).getD .null
def name (name : Name) : Json := .ofUInt32 name.index
def optionalName (name? : Option Name) : Json := (name?.map name).getD .null

def span (s : Span) : Json :=
  .object [("start", .ofUInt32 s.start), ("end", .ofUInt32 s.stop)]

def literal : Literal → Json
  | .undefined => .string "Undefined"
  | .null => .string "Null"
  | .bool b => .tagged "Bool" (.bool b)
  | .number x => .tagged "Number" (if x.isFinite then .number (.real x) else .null)
  | .string s => .tagged "Str" (.string s)

def functionBody : FunctionBody → Json
  | .expression expr => .tagged "Expression" (id expr)
  | .block body => .tagged "Block" (ids body)

def memberProperty : MemberProperty → Json
  | .named n => .tagged "Named" (name n)
  | .computed key => .tagged "Computed" (id key)

def kind : NodeKind → Json
  | .program body => .tagged "Program" (.object [("body", ids body)])
  | .block body => .tagged "Block" (.object [("body", ids body)])
  | .expressionStatement expr => .tagged "ExpressionStatement" (.object [("expr", id expr)])
  | .declaration k n init =>
    .tagged "Declaration" (.object [("kind", .string k.tag), ("name", name n), ("init", id init)])
  | .functionDeclaration n declared =>
    .tagged "FunctionDeclaration" (.object [("name", name n), ("function", id declared)])
  | .returnStatement argument =>
    .tagged "Return" (.object [("argument", optionalId argument)])
  | .ifStatement test consequent alternate =>
    .tagged "If" (.object [("test", id test), ("consequent", id consequent),
      ("alternate", optionalId alternate)])
  | .whileLoop test body => .tagged "While" (.object [("test", id test), ("body", id body)])
  | .forLoop init test update body =>
    .tagged "For" (.object [("init", optionalId init), ("test", optionalId test),
      ("update", optionalId update), ("body", id body)])
  | .breakStatement => .string "Break"
  | .continueStatement => .string "Continue"
  | .debuggerStatement => .string "Debugger"
  | .literal l => .tagged "Literal" (literal l)
  | .identifier n => .tagged "Identifier" (name n)
  | .this => .string "This"
  | .function n params body =>
    .tagged "Function" (.object [("name", optionalName n), ("params", .array (params.map name)),
      ("body", functionBody body)])
  | .unary op operand =>
    .tagged "Unary" (.object [("op", .string op.tag), ("operand", id operand)])
  | .binary op left right =>
    .tagged "Binary" (.object [("op", .string op.tag), ("left", id left), ("right", id right)])
  | .logical op left right =>
    .tagged "Logical" (.object [("op", .string op.tag), ("left", id left), ("right", id right)])
  | .conditional test consequent alternate =>
    .tagged "Conditional" (.object [("test", id test), ("consequent", id consequent),
      ("alternate", id alternate)])
  | .assignment n value => .tagged "Assignment" (.object [("name", name n), ("value", id value)])
  | .call callee args => .tagged "Call" (.object [("callee", id callee), ("args", ids args)])
  | .arrayLiteral elements => .tagged "ArrayLiteral" (.object [("elements", ids elements)])
  | .objectLiteral properties =>
    .tagged "ObjectLiteral" (.object [("properties",
      .array (properties.map fun (key, value) => .array [name key, id value]))])
  | .member object property =>
    .tagged "Member" (.object [("object", id object), ("property", memberProperty property)])
  | .memberAssignment object property value =>
    .tagged "MemberAssignment" (.object [("object", id object),
      ("property", memberProperty property), ("value", id value)])

def node (n : Node) : Json :=
  .object [("kind", kind n.kind), ("span", span n.span)]

end Encode

def Tree.toJson (t : Tree) : Json :=
  .object [("names", .array (t.names.strings.toList.map .string)),
    ("nodes", .array (t.nodes.toList.map Encode.node)), ("root", Encode.id t.root)]

end ExplicitControl
