import ExplicitControl.Tree.Basic

/-!
Building trees without source text, bottom up: each step adds a node and answers its place. A node without
a location of its own gets the synthetic span of its place, so that all nodes can be told apart.
-/

namespace ExplicitControl

structure TreeBuilder where
  nodes : Array Node
  names : NameTable

abbrev BuildM := StateM TreeBuilder

namespace TreeBuilder

def initial : TreeBuilder := ⟨#[], NameTable.initial⟩

def nextId (b : TreeBuilder) : NodeId :=
  ⟨if b.nodes.size ≤ 4294967295 then b.nodes.size.toUInt32 else 4294967295⟩

def name (s : String) : BuildM Name :=
  modifyGet fun b =>
    let (name, names) := b.names.intern s
    (name, { b with names })

def allocAt (kind : NodeKind) (span : Span) : BuildM NodeId :=
  modifyGet fun b => (b.nextId, { b with nodes := b.nodes.push ⟨kind, span⟩ })

/-- Add a node with the synthetic span of its place. -/
def alloc (kind : NodeKind) : BuildM NodeId := do
  allocAt kind (Span.synthetic (← get).nextId.index)

/-- Give a node another location. A place that holds no node is left alone. -/
def setSpan (id : NodeId) (span : Span) : BuildM Unit :=
  modify fun b => { b with nodes := b.nodes.modify id.index.toNat fun node => { node with span } }

/-! ## Literals and names -/

def number (x : Float) : BuildM NodeId := alloc (.literal (.number x))
def string (s : String) : BuildM NodeId := alloc (.literal (.string s))
def bool (b : Bool) : BuildM NodeId := alloc (.literal (.bool b))
def null : BuildM NodeId := alloc (.literal .null)
def undefined : BuildM NodeId := alloc (.literal .undefined)
def identifier (s : String) : BuildM NodeId := do alloc (.identifier (← name s))
def this : BuildM NodeId := alloc .this

/-! ## Operators -/

def unary (op : UnaryOp) (operand : NodeId) : BuildM NodeId := alloc (.unary op operand)
def binary (op : BinaryOp) (left right : NodeId) : BuildM NodeId := alloc (.binary op left right)
def logical (op : LogicalOp) (left right : NodeId) : BuildM NodeId := alloc (.logical op left right)

def conditional (test consequent alternate : NodeId) : BuildM NodeId :=
  alloc (.conditional test consequent alternate)

def assignment (s : String) (value : NodeId) : BuildM NodeId := do
  alloc (.assignment (← name s) value)

/-! ## Functions and calls -/

def call (callee : NodeId) (args : List NodeId) : BuildM NodeId := alloc (.call callee args)

def callNamed (s : String) (args : List NodeId) : BuildM NodeId := do
  call (← identifier s) args

def arrow (params : List String) (expr : NodeId) : BuildM NodeId := do
  alloc (.function none (← params.mapM name) (.expression expr))

/-- As in `(params) => { body }`, the braces being part of the program. -/
def arrowBlock (params : List String) (body : List NodeId) : BuildM NodeId := do
  alloc (.function none (← params.mapM name) (.block body))

/-- As in `function name(params) { body }`: the function, then the statement that declares it. -/
def functionDeclaration (s : String) (params : List String) (body : List NodeId) :
    BuildM NodeId := do
  let declared ← name s
  let params ← params.mapM name
  alloc (.functionDeclaration declared (← alloc (.function (some declared) params (.block body))))

/-! ## Arrays and objects -/

def array (elements : List NodeId) : BuildM NodeId := alloc (.arrayLiteral elements)

def object (properties : List (String × NodeId)) : BuildM NodeId := do
  alloc (.objectLiteral (← properties.mapM fun (key, value) => return (← name key, value)))

def memberAt (object key : NodeId) : BuildM NodeId := alloc (.member object (.computed key))

def memberNamed (object : NodeId) (field : String) : BuildM NodeId := do
  alloc (.member object (.named (← name field)))

def assignAt (object key value : NodeId) : BuildM NodeId :=
  alloc (.memberAssignment object (.computed key) value)

def assignNamed (object : NodeId) (field : String) (value : NodeId) : BuildM NodeId := do
  alloc (.memberAssignment object (.named (← name field)) value)

def methodCall (object : NodeId) (method : String) (args : List NodeId) : BuildM NodeId := do
  call (← memberNamed object method) args

/-! ## Statements -/

def expressionStatement (expr : NodeId) : BuildM NodeId := alloc (.expressionStatement expr)

def declaration (kind : DeclKind) (s : String) (init : NodeId) : BuildM NodeId := do
  alloc (.declaration kind (← name s) init)

def returnStatement (argument : Option NodeId) : BuildM NodeId := alloc (.returnStatement argument)

def ifStatement (test consequent : NodeId) (alternate : Option NodeId) : BuildM NodeId :=
  alloc (.ifStatement test consequent alternate)

def whileLoop (test body : NodeId) : BuildM NodeId := alloc (.whileLoop test body)

def forLoop (init test update : Option NodeId) (body : NodeId) : BuildM NodeId :=
  alloc (.forLoop init test update body)

def breakStatement : BuildM NodeId := alloc .breakStatement
def continueStatement : BuildM NodeId := alloc .continueStatement
def debuggerStatement : BuildM NodeId := alloc .debuggerStatement
def block (body : List NodeId) : BuildM NodeId := alloc (.block body)

def program (b : TreeBuilder) (body : List NodeId) : Except TreeError Tree :=
  let (root, b) := (alloc (.program body)).run b
  Tree.ofNodes b.names b.nodes root

end TreeBuilder

end ExplicitControl
