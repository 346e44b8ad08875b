import ExplicitControl.Value

/-!
Objects: properties under distinct keys, in the order in which the keys were first set.
-/

namespace ExplicitControl

structure Object where
  entries : List (String × Value)
deriving Inhabited

namespace Object

def empty : Object := ⟨[]⟩

def size (o : Object) : Nat :=
  o.entries.length

def isEmpty (o : Object) : Bool :=
  o.entries.isEmpty

def get? (o : Object) (key : String) : Option Value :=
  (o.entries.find? fun entry => entry.1 == key).map Prod.snd

def setEntry (key : String) (value : Value) : List (String × Value) → List (String × Value)
  | [] => [(key, value)]
  | entry :: rest =>
    if entry.1 == key then (entry.1, value) :: rest else entry :: setEntry key value rest

def set (o : Object) (key : String) (value : Value) : Object :=
  ⟨setEntry key value o.entries⟩

def ofPairs (pairs : List (String × Value)) : Object :=
  pairs.foldl (fun o pair => o.set pair.1 pair.2) empty

end Object

end ExplicitControl
