import ExplicitControl.Object

/-!
The heap: arrays and objects, each in a cell of its own. Cells are never given back, so a cell once named
keeps its meaning.
-/

namespace ExplicitControl

inductive Cell where
  | array (elements : Array Value)
  | object (o : Object)
deriving Inhabited

structure Heap where
  cells : Array Cell
deriving Inhabited

namespace Heap

def empty : Heap := ⟨#[]⟩

def cell? (h : Heap) (c : CellId) : Option Cell :=
  h.cells[c.index]?

def array? (h : Heap) (c : CellId) : Option (Array Value) :=
  match h.cell? c with
  | some (.array elements) => some elements
  | _ => none

def object? (h : Heap) (c : CellId) : Option Object :=
  match h.cell? c with
  | some (.object o) => some o
  | _ => none

def alloc (h : Heap) (cell : Cell) : CellId × Heap :=
  (⟨h.cells.size⟩, ⟨h.cells.push cell⟩)

def allocArray (h : Heap) (elements : Array Value) : Value × Heap :=
  let (c, h) := h.alloc (.array elements)
  (.array c, h)

def allocObject (h : Heap) (o : Object) : Value × Heap :=
  let (c, h) := h.alloc (.object o)
  (.object c, h)

def modifyArray (h : Heap) (c : CellId) (f : Array Value → Array Value) : Heap :=
  ⟨h.cells.modify c.index fun
    | .array elements => .array (f elements)
    | cell => cell⟩

def modifyObject (h : Heap) (c : CellId) (f : Object → Object) : Heap :=
  ⟨h.cells.modify c.index fun
    | .object o => .object (f o)
    | cell => cell⟩

end Heap

end ExplicitControl
