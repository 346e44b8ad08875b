/-!
Reading the number that a text spells: a sign, digits with or without a point among them, and an exponent;
or a word for infinity or for no number, in either case of letters. The value is the nearest float.
-/

namespace ExplicitControl.Decimal

def spanDigits (cs : List Char) : List Char × List Char :=
  (cs.takeWhile Char.isDigit, cs.dropWhile Char.isDigit)

def ofDigits (ds : List Char) : Nat :=
  ds.foldl (fun n c => n * 10 + (c.toNat - '0'.toNat)) 0

/-- The number that the digits of an exponent stand for. Once it has reached `2 ^ 16` the digits that follow
are passed over. -/
def exponentOfDigits (ds : List Char) : Nat :=
  ds.foldl (fun n c => if n < Nat.pow 2 16 then n * 10 + (c.toNat - '0'.toNat) else n) 0

/-- The exponent that the whole of a text spells, mark included; no text is an exponent of zero. -/
def exponent? : List Char → Option Int
  | [] => some 0
  | mark :: cs =>
    if mark == 'e' || mark == 'E' then
      let (negative, ds) :=
        match cs with
        | '-' :: rest => (true, rest)
        | '+' :: rest => (false, rest)
        | rest => (false, rest)
      if ds.isEmpty || !ds.all Char.isDigit then none
      else some (if negative then -(exponentOfDigits ds : Int) else exponentOfDigits ds)
    else none

/-- The most digits that are told apart: a float, or the middle between two floats, has fewer. -/
def maxDigits : Nat := 800

/-- The float nearest to the number that digits spell, times `10 ^ e`. A value far outside the floats is not
computed, and the digits past `maxDigits` count only for whether all of them are zero. -/
def nearest (ds : List Char) (e : Int) : Float :=
  let ds := ds.dropWhile (· == '0')
  let point : Int := e + ds.length
  let tail := ds.drop maxDigits
  let m := ofDigits (ds.take maxDigits)
  let e := e + tail.length
  if ds.isEmpty || point < -400 then 0
  else if 400 < point then 1.0 / 0.0
  else if tail.all (· == '0') then Float.ofScientific m (e < 0) e.natAbs
  else Float.ofScientific (m * 10 + 1) (e - 1 < 0) (e - 1).natAbs

def digitsValue? (cs : List Char) : Option Float :=
  let (whole, rest) := spanDigits cs
  let (part, rest) :=
    match rest with
    | '.' :: rest => spanDigits rest
    | rest => ([], rest)
  if whole.isEmpty && part.isEmpty then none
  else (exponent? rest).map fun e => nearest (whole ++ part) (e - part.length)

def wordValue? (cs : List Char) : Option Float :=
  let word := String.ofList (cs.map Char.toLower)
  if word == "inf" || word == "infinity" then some (1.0 / 0.0)
  else if word == "nan" then some (0.0 / 0.0)
  else none

def read? (cs : List Char) : Option Float :=
  let (negative, cs) :=
    match cs with
    | '-' :: rest => (true, rest)
    | '+' :: rest => (false, rest)
    | rest => (false, rest)
  let magnitude := (digitsValue? cs).orElse fun _ => wordValue? cs
  magnitude.map fun x => if negative then -x else x

/-- The natural number that a text spells, if it is at most `max`: digits, perhaps behind a plus sign. -/
def readNat? (max : Nat) (s : String) : Option Nat :=
  let ds :=
    match s.toList with
    | '+' :: rest => rest
    | cs => cs
  if ds.isEmpty || !ds.all Char.isDigit then none
  else if ofDigits ds ≤ max then some (ofDigits ds) else none

end ExplicitControl.Decimal
