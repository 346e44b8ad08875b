import ExplicitControl.Json.Reader
import ExplicitControl.Text.Quoted
import ExplicitControl.Tree.Basic

/-!
Reading a tree from its JSON document. A record may be written as an object or as the array of its fields in
order; in an object unknown members are passed over, a field must not repeat, and an optional field may be
missing. A kind without contents may also be written as an object with a null member.
-/

namespace ExplicitControl

inductive LoadError where
  /-- The text is no JSON document, or not one of this shape. -/
  | malformed
  | duplicateName (duplicate : NameTable.Duplicate)
  | invalid (error : TreeError)

/-- What is said of a text that is no tree; of a malformed one nothing is said here. -/
def LoadError.message? : LoadError → Option String
  | malformed => none
  | duplicateName d =>
    some ("invalid syntax tree: name table entry " ++ toString d.index ++ " (" ++
      Text.quote d.entry ++ ") is a duplicate")
  | invalid error => some ("invalid syntax tree: " ++ error.message)

namespace Decode

/-- The fields of a record, in the order given; `none` inside stands for a field left out. -/
def fields (names : List String) : Json → Option (List (Option Json))
  | .object members =>
    names.mapM fun name =>
      match Json.membersNamed name members with
      | [] => some none
      | [j] => some (some j)
      | _ => none
  | .array items => if items.length = names.length then some (items.map some) else none
  | _ => none

def required (read : Json → Option α) : Option Json → Option α
  | some j => read j
  | none => none

def optional (read : Json → Option α) : Option Json → Option (Option α)
  | none | some .null => some none
  | some j => (read j).map some

def record1 (name : String) (j : Json) : Option (Option Json) :=
  match fields [name] j with
  | some [a] => some a
  | _ => none

def record2 (first second : String) (j : Json) : Option (Option Json × Option Json) :=
  match fields [first, second] j with
  | some [a, b] => some (a, b)
  | _ => none

def record3 (first second third : String) (j : Json) :
    Option (Option Json × Option Json × Option Json) :=
  match fields [first, second, third] j with
  | some [a, b, c] => some (a, b, c)
  | _ => none

def choice : Json → Option (String × Option Json)
  | .string tag => some (tag, none)
  | .object [(tag, payload)] => some (tag, some payload)
  | _ => none

/-- A tag without contents, in either of its two forms. -/
def isBare : Option Json → Bool
  | none | some .null => true
  | _ => false

def oneOf (alternatives : List α) (tag : α → String) (j : Json) : Option α := do
  let (written, payload) ← choice j
  if isBare payload then alternatives.find? fun a => tag a == written else none

def id (j : Json) : Option NodeId := j.toUInt32?.map NodeId.mk
def ids (j : Json) : Option (List NodeId) := j.toListOf? id
def name (j : Json) : Option Name := j.toUInt32?.map Name.mk

def span (j : Json) : Option Span := do
  let (start, stop) ← record2 "start" "end" j
  return ⟨← required Json.toUInt32? start, ← required Json.toUInt32? stop⟩

def literal (j : Json) : Option Literal := do
  let (tag, payload) ← choice j
  match tag with
  | "Undefined" => if isBare payload then some .undefined else none
  | "Null" => if isBare payload then some .null else none
  | "Bool" => return .bool (← required Json.toBool? payload)
  | "Number" => return .number (← required Json.toFloat? payload)
  | "Str" => return .string (← required Json.toString? payload)
  | _ => none

def functionBody (j : Json) : Option FunctionBody := do
  match ← choice j with
  | ("Expression", some payload) => return .expression (← id payload)
  | ("Block", some payload) => return .block (← ids payload)
  | _ => none

def memberProperty (j : Json) : Option MemberProperty := do
  match ← choice j with
  | ("Named", some payload) => return .named (← name payload)
  | ("Computed", some payload) => return .computed (← id payload)
  | _ => none

def propertyPair : Json → Option (Name × NodeId)
  | .array [key, value] => do return (← name key, ← id value)
  | _ => none

def statement (tag : String) (payload : Json) : Option NodeKind := do
  match tag with
  | "Program" => return .program (← required ids (← record1 "body" payload))
  | "Block" => return .block (← required ids (← record1 "body" payload))
  | "ExpressionStatement" =>
    return .expressionStatement (← required id (← record1 "expr" payload))
  | "Declaration" =>
    let (kind, n, init) ← record3 "kind" "name" "init" payload
    return .declaration (← required (oneOf DeclKind.all DeclKind.tag) kind) (← required name n)
      (← required id init)
  | "FunctionDeclaration" =>
    let (n, declared) ← record2 "name" "function" payload
    return .functionDeclaration (← required name n) (← required id declared)
  | "Return" => return .returnStatement (← optional id (← record1 "argument" payload))
  | "If" =>
    let (test, consequent, alternate) ← record3 "test" "consequent" "alternate" payload
    return .ifStatement (← required id test) (← required id consequent) (← optional id alternate)
  | "While" =>
    let (test, body) ← record2 "test" "body" payload
    return .whileLoop (← required id test) (← required id body)
  | "For" =>
    match ← fields ["init", "test", "update", "body"] payload with
    | [init, test, update, body] =>
      return .forLoop (← optional id init) (← optional id test) (← optional id update)
        (← required id body)
    | _ => none
  | _ => none

def expression (tag : String) (payload : Json) : Option NodeKind := do
  match tag with
  | "Literal" => return .literal (← literal payload)
  | "Identifier" => return .identifier (← name payload)
  | "Function" =>
    let (n, params, body) ← record3 "name" "params" "body" payload
    return .function (← optional name n) (← required (fun j => j.toListOf? name) params)
      (← required functionBody body)
  | "Unary" =>
    let (op, operand) ← record2 "op" "operand" payload
    return .unary (← required (oneOf UnaryOp.all UnaryOp.tag) op) (← required id operand)
  | "Binary" =>
    let (op, left, right) ← record3 "op" "left" "right" payload
    return .binary (← required (oneOf BinaryOp.all BinaryOp.tag) op) (← required id left)
      (← required id right)
  | "Logical" =>
    let (op, left, right) ← record3 "op" "left" "right" payload
    return .logical (← required (oneOf LogicalOp.all LogicalOp.tag) op) (← required id left)
      (← required id right)
  | "Conditional" =>
    let (test, consequent, alternate) ← record3 "test" "consequent" "alternate" payload
    return .conditional (← required id test) (← required id consequent) (← required id alternate)
  | "Assignment" =>
    let (n, value) ← record2 "name" "value" payload
    return .assignment (← required name n) (← required id value)
  | "Call" =>
    let (callee, args) ← record2 "callee" "args" payload
    return .call (← required id callee) (← required ids args)
  | "ArrayLiteral" => return .arrayLiteral (← required ids (← record1 "elements" payload))
  | "ObjectLiteral" =>
    return .objectLiteral
      (← required (fun j => j.toListOf? propertyPair) (← record1 "properties" payload))
  | "Member" =>
    let (object, property) ← record2 "object" "property" payload
    return .member (← required id object) (← required memberProperty property)
  | "MemberAssignment" =>
    let (object, property, value) ← record3 "object" "property" "value" payload
    return .memberAssignment (← required id object) (← required memberProperty property)
      (← required id value)
  | _ => none

def bareKind : String → Option NodeKind
  | "Break" => some .breakStatement
  | "Continue" => some .continueStatement
  | "Debugger" => some .debuggerStatement
  | "This" => some .this
  | _ => none

def kind (j : Json) : Option NodeKind := do
  let (tag, payload) ← choice j
  match bareKind tag, payload with
  | some kind, payload => if isBare payload then some kind else none
  | none, some payload => (statement tag payload).orElse fun _ => expression tag payload
  | none, none => none

def node (j : Json) : Option Node := do
  let (k, s) ← record2 "kind" "span" j
  return ⟨← required kind k, ← required span s⟩

end Decode

/-- The tree of a document. Names that are not their own table are told before any fault of the nodes. -/
def Tree.ofJson (j : Json) : Except LoadError Tree :=
  match Decode.record3 "names" "nodes" "root" j with
  | none => .error .malformed
  | some (names, nodes, root) =>
    match Decode.required (fun j => j.toListOf? Json.toString?) names with
    | none => .error .malformed
    | some names =>
      match NameTable.ofList names with
      | .error duplicate => .error (.duplicateName duplicate)
      | .ok table =>
        match Decode.required (fun j => j.toListOf? Decode.node) nodes,
            Decode.required Decode.id root with
        | some nodes, some root =>
          match Tree.ofNodes table nodes.toArray root with
          | .error error => .error (.invalid error)
          | .ok tree => .ok tree
        | _, _ => .error .malformed

def Tree.parse (text : String) : Except LoadError Tree :=
  match Json.parse? text with
  | none => .error .malformed
  | some j => Tree.ofJson j

end ExplicitControl
