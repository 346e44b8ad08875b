/-!
JSON values in the form in which a document writes them: members stay in order and may repeat, and a number
remembers whether it was written as an integer. A reader of a document needs both, since a repeated member
and an integer written `1.0` are errors in a syntax tree.
-/

namespace ExplicitControl

inductive Json.Number where
  /-- An integer from zero on, below `2 ^ 64`. -/
  | natural (n : UInt64)
  /-- An integer below zero, from `-2 ^ 63` on. -/
  | negative (n : Int64)
  /-- Anything else: a fraction, an exponent, an integer out of range, or minus zero. -/
  | real (x : Float)

def Json.Number.toFloat : Json.Number → Float
  | .natural n => n.toFloat
  | .negative n => n.toFloat
  | .real x => x

inductive Json where
  | null
  | bool (b : Bool)
  | number (n : Json.Number)
  | string (s : String)
  | array (items : List Json)
  | object (members : List (String × Json))
  /-- Well-formed text that denotes nothing: a number beyond the floats, or a string (perhaps a member's
  name) with half of a surrogate pair. It may stand where a document is not looked at. -/
  | unreadable

namespace Json

def membersNamed (name : String) (members : List (String × Json)) : List Json :=
  (members.filter fun m => m.1 == name).map Prod.snd

def member? (name : String) : Json → Option Json
  | .object members => (membersNamed name members).head?
  | _ => none

def toUInt32? : Json → Option UInt32
  | .number (.natural n) => if n ≤ 4294967295 then some n.toUInt32 else none
  | _ => none

/-- The number, rounded to a float. Every number that a text can write is finite. -/
def toFloat? : Json → Option Float
  | .number n => if n.toFloat.isFinite then some n.toFloat else none
  | _ => none

def toString? : Json → Option String
  | .string s => some s
  | _ => none

def toBool? : Json → Option Bool
  | .bool b => some b
  | _ => none

def toList? : Json → Option (List Json)
  | .array items => some items
  | _ => none

def toListOf? (read : Json → Option α) (j : Json) : Option (List α) :=
  j.toList?.bind fun items => items.mapM read

end Json

end ExplicitControl
