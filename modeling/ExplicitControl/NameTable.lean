/-!
Identifiers are kept once, in a table, and referred to by their place in it. The empty text has place zero
in every table. Adding to a table never changes what an earlier place holds.
-/

namespace ExplicitControl

structure Name where
  index : UInt32
deriving DecidableEq, Inhabited

def Name.empty : Name := ⟨0⟩

def Name.inspect (n : Name) : String :=
  "Name(" ++ toString n.index.toNat ++ ")"

/-- The texts of a tree's identifiers, each at its place. -/
structure NameTable where
  strings : Array String

namespace NameTable

def initial : NameTable := ⟨#[""]⟩

instance : Inhabited NameTable := ⟨initial⟩

def size (t : NameTable) : Nat :=
  t.strings.size

def inspect (t : NameTable) : String :=
  "StringInterner \x7b len: " ++ toString t.size ++ " \x7d"

def find? (t : NameTable) (s : String) : Option Name :=
  (t.strings.idxOf? s).map fun i => ⟨i.toUInt32⟩

/-- The place of a text, which joins the table at its end if it is new. -/
def intern (t : NameTable) (s : String) : Name × NameTable :=
  match t.find? s with
  | some name => (name, t)
  | none => (⟨t.size.toUInt32⟩, ⟨t.strings.push s⟩)

/-- The text at a place. A place beyond the table has a text too, since it is only ever shown. -/
def lookup (t : NameTable) (name : Name) : String :=
  t.strings.getD name.index.toNat "<unknown>"

/-- An entry of a list of names that cannot be reproduced at its place: the text is there already. -/
structure Duplicate where
  index : Nat
  entry : String
deriving DecidableEq

/-- Intern the entries of a list in order, as long as each lands at its own place. -/
def internAll (t : NameTable) (index : Nat) : List String → Except Duplicate NameTable
  | [] => .ok t
  | s :: rest =>
    let (name, t) := t.intern s
    if name.index.toNat = index then internAll t (index + 1) rest else .error ⟨index, s⟩

def ofList (entries : List String) : Except Duplicate NameTable :=
  initial.internAll 0 entries

end NameTable

end ExplicitControl
