/-!
The value of a decimal literal, by two roundings: the leading digits are gathered in a 64-bit word and
rounded to a float, which is then multiplied or divided by a power of ten. Digits that do not fit the word
only count for their place before the point, and not at all after it.
-/

namespace ExplicitControl.Decimal

structure Literal where
  negative : Bool
  whole : List Nat
  fraction : Option (List Nat)
  /-- Whether the exponent is negative, and its digits. -/
  exponent : Option (Bool × List Nat)

/-- Append digits to a word for as long as it stays below `2 ^ 64`: the word, and the number of digits
left over. -/
def gather (word : Nat) : List Nat → Nat × Nat
  | [] => (word, 0)
  | digit :: rest =>
    if word * 10 + digit < Nat.pow 2 64 then gather (word * 10 + digit) rest
    else (word, rest.length + 1)

def powerOfTen (n : Nat) : Float :=
  Float.ofScientific 1 false n

def maxPower : Nat := 308

/-- Divide by `10 ^ n`, in steps of the largest power while `n` exceeds it. Two such steps take every word
to zero, so `steps` need not be more than three. -/
def shrink : (steps : Nat) → Float → Nat → Float
  | 0, x, _ => x
  | steps + 1, x, n =>
    if n ≤ maxPower then x / powerOfTen n
    else if x == 0 then x
    else shrink steps (x / powerOfTen maxPower) (n - maxPower)

/-- A word times a power of ten, unless that exceeds the floats. -/
def scale (word : Nat) (exponent : Int) : Option Float :=
  let x := word.toUInt64.toFloat
  if word = 0 then some 0
  else if exponent < 0 then some (shrink 3 x exponent.natAbs)
  else if exponent.toNat ≤ maxPower then
    let y := x * powerOfTen exponent.toNat
    if y.isInf then none else some y
  else none

/-- The exponent's magnitude, unless it needs more than 31 bits. -/
def magnitude? (digits : List Nat) : Option Nat :=
  let n := digits.foldl (fun n d => n * 10 + d) 0
  if n < Nat.pow 2 31 then some n else none

def Literal.toFloat? (l : Literal) : Option Float :=
  let (word, excess) := gather 0 l.whole
  let (word, places) :=
    match l.fraction with
    | none => (word, 0)
    | some digits =>
      let (word, excess) := gather word digits
      (word, digits.length - excess)
  let start : Int := excess - places
  let magnitude :=
    match l.exponent with
    | none => scale word start
    | some (below, digits) =>
      match magnitude? digits with
      | some n => scale word (if below then start - n else start + n)
      | none => if below || word = 0 then some 0 else none
  magnitude.map fun x => if l.negative then -x else x

end ExplicitControl.Decimal
