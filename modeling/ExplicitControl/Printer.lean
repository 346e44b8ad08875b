import ExplicitControl.Decimal.Notation
import ExplicitControl.Heap
import ExplicitControl.Text.Quoted

/-!
The text of a value, as a program would write it. Arrays and objects may contain themselves and may be
shared, so three limits keep the text finite: a container inside itself is written as `<circular>`, contents
beyond a depth of sixteen are left out, and after ten thousand values the rest is left out too.
-/

namespace ExplicitControl

structure Printer where
  out : String
  /-- The containers being written, innermost first. -/
  opened : List CellId
  /-- How many more values may be written. -/
  remaining : Nat
  /-- Whether a container was met that may not be read. -/
  blocked : Bool

namespace Printer

def maxDepth : Nat := 16

def maxValues : Nat := 10000

def initial : Printer := ⟨"", [], maxValues, false⟩

def put (p : Printer) (s : String) : Printer :=
  { p with out := p.out ++ s }

def elements (write : Value → Printer → Printer) : Bool → List Value → Printer → Printer
  | _, [], p => p
  | first, v :: rest, p =>
    let p := if first then p else p.put ", "
    if p.remaining = 0 then p.put "..." else elements write false rest (write v p)

def properties (write : Value → Printer → Printer) :
    Bool → List (String × Value) → Printer → Printer
  | _, [], p => p
  | first, (key, v) :: rest, p =>
    let p := if first then p else p.put ","
    if p.remaining = 0 then p.put " ..."
    else
      let p := p.put (" " ++ Text.quote key ++ ": ")
      properties write false rest (write v p)

def enclosed (c : CellId) (p : Printer) (contents : Printer → Printer) : Printer :=
  let p := contents { p with opened := c :: p.opened }
  { p with opened := p.opened.erase c }

/-- Write a value. `read` gives the contents of the containers that may be read; `depth` is the number of
levels that may still be written. -/
def write (read : CellId → Option Cell) (depth : Nat) (v : Value) (p : Printer) : Printer :=
  if p.remaining = 0 then p.put "..."
  else
    let p := { p with remaining := p.remaining - 1 }
    match v with
    | .undefined => p.put "undefined"
    | .null => p.put "null"
    | .bool b => p.put (if b then "true" else "false")
    | .number x => p.put (Decimal.numberText x)
    | .string s => p.put (Text.quote s)
    | .array c =>
      match depth with
      | 0 => p.put "[...]"
      | depth + 1 =>
        if p.opened.contains c then p.put "<circular>"
        else
          match read c with
          | some (.array vs) =>
            enclosed c p fun p => (elements (write read depth) true vs.toList (p.put "[")).put "]"
          | _ => { p with blocked := true }
    | .object c =>
      match depth with
      | 0 => p.put "\x7b...\x7d"
      | depth + 1 =>
        if p.opened.contains c then p.put "<circular>"
        else
          match read c with
          | some (.object o) =>
            if o.isEmpty then p.put "\x7b\x7d"
            else
              enclosed c p fun p =>
                (properties (write read depth) true o.entries (p.put "\x7b")).put " \x7d"
          | _ => { p with blocked := true }
    | .closure _ f =>
      let kind := if f.name.isSome then "function" else "lambda"
      p.put ("<" ++ kind ++ "/" ++ toString f.arity ++ ">")
    | .host _ f => p.put ("<builtin " ++ f.name ++ ">")
    | .callCc => p.put "<builtin call_cc>"
    | .continuation _ => p.put "<continuation>"

end Printer

namespace Heap

def stringify (h : Heap) (v : Value) : String :=
  (Printer.write h.cell? Printer.maxDepth v Printer.initial).out

def display (h : Heap) (v : Value) : String :=
  match v with
  | .string s => s
  | v => h.stringify v

/-- The text of a value while one container is being written and may not be read; none if the text would
need it. -/
def displayWithout (h : Heap) (held : CellId) (v : Value) : Option String :=
  match v with
  | .string s => some s
  | v =>
    let p := Printer.write (fun c => if c = held then none else h.cell? c) Printer.maxDepth v
      Printer.initial
    if p.blocked then none else some p.out

def describe (h : Heap) (v : Value) : String :=
  match v with
  | .undefined | .null => v.typeName
  | .closure .. | .host .. | .callCc | .continuation _ => h.stringify v
  | v => v.typeName ++ " " ++ h.stringify v

end Heap

end ExplicitControl
