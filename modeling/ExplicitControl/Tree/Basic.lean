import ExplicitControl.Tree.Node

/-!
Syntax trees. A list of nodes is accepted as a tree when its root is a program, every child is a node of the
list, and every function declaration refers to a function. Nothing else is asked: nodes may be shared, may
contain themselves, and may stand where their kind makes no sense.
-/

namespace ExplicitControl

inductive TreeError where
  | empty
  | rootNotProgram (root : NodeId)
  | danglingChild (parent child : NodeId)
  | functionExpected (node : NodeId)
deriving DecidableEq

def TreeError.message : TreeError → String
  | empty => "tree has no nodes"
  | rootNotProgram root => "root " ++ root.text ++ " is not a program node"
  | danglingChild parent child => parent.text ++ " refers to missing node " ++ child.text
  | functionExpected node => node.text ++ " must be a function node"

namespace Tree

def nodeAt? (nodes : Array Node) (id : NodeId) : Option Node :=
  nodes[id.index.toNat]?

/-- What is wrong with the node at place `index`: its first missing child, else a declared function that is
none. -/
def nodeFault? (nodes : Array Node) (index : Nat) (kind : NodeKind) : Option TreeError :=
  match kind.children.find? fun child => nodes.size ≤ child.index.toNat with
  | some child => some (.danglingChild ⟨index.toUInt32⟩ child)
  | none =>
    match kind with
    | .functionDeclaration _ function =>
      if (nodeAt? nodes function).any fun node => node.kind.isFunction then none
      else some (.functionExpected function)
    | _ => none

/-- The first fault of a list of nodes: of the list, of the root, then of the nodes in order. -/
def fault? (nodes : Array Node) (root : NodeId) : Option TreeError :=
  if nodes.isEmpty then some .empty
  else if (nodeAt? nodes root).any fun node => node.kind.isProgram then
    nodes.toList.zipIdx.findSome? fun (node, index) => nodeFault? nodes index node.kind
  else some (.rootNotProgram root)

end Tree

/-- A syntax tree, which owns the names that its nodes refer to. Names are not checked: one outside the
table is only ever shown. -/
structure Tree where
  names : NameTable
  nodes : Array Node
  root : NodeId
  accepted : Tree.fault? nodes root = none

namespace Tree

def ofNodes (names : NameTable) (nodes : Array Node) (root : NodeId) : Except TreeError Tree :=
  match h : fault? nodes root with
  | some error => .error error
  | none => .ok ⟨names, nodes, root, h⟩

def size (t : Tree) : Nat :=
  t.nodes.size

def node? (t : Tree) (id : NodeId) : Option Node :=
  nodeAt? t.nodes id

def kind? (t : Tree) (id : NodeId) : Option NodeKind :=
  (t.node? id).map Node.kind

/-- The location of a node; nothing but a node of the tree is ever asked for. -/
def span (t : Tree) (id : NodeId) : Span :=
  ((t.node? id).map Node.span).getD Span.dummy

/-- The names that a list of statements declares itself, not in nested blocks, each with the declaring
statement. A function is declared as a `const` is. -/
def declarations (t : Tree) (body : List NodeId) : List (NodeId × Name × DeclKind) :=
  body.filterMap fun id =>
    match t.kind? id with
    | some (.declaration kind name _) => some (id, name, kind)
    | some (.functionDeclaration name _) => some (id, name, .constKind)
    | _ => none

def hasDeclarations (t : Tree) (body : List NodeId) : Bool :=
  !(t.declarations body).isEmpty

def body (t : Tree) : List NodeId :=
  match t.kind? t.root with
  | some (.program body) => body
  | _ => []

def text (t : Tree) : String :=
  "Ast \x7b nodes: " ++ toString t.size ++ ", root: " ++ t.root.text ++ " \x7d"

end Tree

end ExplicitControl
