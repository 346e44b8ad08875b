import ExplicitControl.Operators

/-!
Elements of arrays, properties of objects, characters of strings. An array may be written a limited way past
its end; the gap is filled with `undefined`. A failing write, and one that is passed over, changes nothing.
-/

namespace ExplicitControl

namespace Member

def maxGap : Nat := 65536

def lengthKey : String := "length"

def length (n : Nat) : Value :=
  .number n.toUInt64.toFloat

def noMembers (object : Value) : Fault :=
  .memberTypeMismatch "object" "array or object" object

def badIndex (key : Value) : Fault :=
  .memberTypeMismatch "index" "non-negative integer" key

def badKey (key : Value) : Fault :=
  .memberTypeMismatch "key" "string" key

/-- The value, or the fault if members are checked. -/
def unlessChecked (checks : RuntimeChecks) (fault : Fault) (v : Value) : Except Fault Value :=
  if checks.member then .error fault else .ok v

def ofArray (elements : Array Value) (key : Value) (checks : RuntimeChecks) : Except Fault Value :=
  match key.asIndex with
  | some i => .ok (elements.getD i .undefined)
  | none =>
    match key with
    | .string s =>
      if s == lengthKey then .ok (length elements.size)
      else unlessChecked checks (badIndex key) .undefined
    | _ => unlessChecked checks (badIndex key) .undefined

def ofString (s : String) (key : Value) : Value :=
  match key.asIndex.bind fun i => s.toList[i]? with
  | some c => .string (String.singleton c)
  | none => .undefined

end Member

open Member in
def memberGet (h : Heap) (object key : Value) (checks : RuntimeChecks) : Except Fault Value :=
  match object with
  | .array c => ofArray ((h.array? c).getD #[]) key checks
  | .object c =>
    let o := (h.object? c).getD .empty
    match key with
    | .string s => .ok ((o.get? s).getD .undefined)
    | _ =>
      if checks.member then .error (badKey key)
      else .ok ((o.get? (h.display key)).getD .undefined)
  | .string s =>
    match key with
    | .string k =>
      if k == lengthKey then .ok (length s.length) else unlessChecked checks (noMembers object) .undefined
    | _ => unlessChecked checks (noMembers object) (ofString s key)
  | .undefined | .null => .error (noMembers object)
  | _ => unlessChecked checks (noMembers object) .undefined

namespace Member

/-- An array after a write at a place that is not too far past its end. -/
def writeAt (elements : Array Value) (i : Nat) (v : Value) : Array Value :=
  if i < elements.size then elements.setIfInBounds i v
  else (elements ++ Array.replicate (i - elements.size) Value.undefined).push v

def setElement (c : CellId) (key v : Value) (checks : RuntimeChecks) : EStateM Fault Heap Unit :=
  fun h =>
    match key.asIndex with
    | some i =>
      if maxGap < i - (((h.array? c).map Array.size).getD 0) then
        .error (.memberTypeMismatch "index" "an index at most 65536 past the end of the array" key) h
      else .ok () (h.modifyArray c fun elements => writeAt elements i v)
    | none => if checks.member then .error (badIndex key) h else .ok () h

/-- Write a property of an object. The object may not be read while that is done, so a key that is no string
must have a text that can do without it. -/
def setProperty (c : CellId) (key v : Value) (checks : RuntimeChecks) : EStateM Fault Heap Unit :=
  fun h =>
    match key with
    | .string s => .ok () (h.modifyObject c fun o => o.set s v)
    | _ =>
      if checks.member then .error (badKey key) h
      else
        match h.displayWithout c key with
        | some s => .ok () (h.modifyObject c fun o => o.set s v)
        | none => .error .objectInUse h

end Member

open Member in
def memberSet (object key v : Value) (checks : RuntimeChecks) : EStateM Fault Heap Unit :=
  match object with
  | .array c => setElement c key v checks
  | .object c => setProperty c key v checks
  | .undefined | .null => throw (noMembers object)
  | _ => if checks.member then throw (noMembers object) else pure ()

end ExplicitControl
