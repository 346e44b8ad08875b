import ExplicitControl.Decimal.Shortest

/-!
The text of a number: the shortest digits that read back, laid out positionally between a millionth and
`10 ^ 21` and with an exponent elsewhere. Integral values have no fraction, and minus zero is written `0`.
-/

namespace ExplicitControl.Decimal

structure NumberFormat where
  nan : String
  infinity : String
  zero : String
  /-- The magnitudes from here on are laid out positionally. -/
  positionalFrom : Float
  /-- The magnitudes from here on are not. -/
  positionalBelow : Float
  /-- What stands before an exponent that is not negative. -/
  exponentPlus : String

def plainFormat : NumberFormat :=
  ⟨"NaN", "Infinity", "0", 1e-6, 1e21, "+"⟩

/-- Digits with a point behind the first `point` of them; zeros fill the places up to the point. -/
def layOut (digits : List Char) (point : Int) : List Char :=
  if point ≤ 0 then ['0', '.'] ++ List.replicate point.natAbs '0' ++ digits
  else if digits.length ≤ point.toNat then
    digits ++ List.replicate (point.toNat - digits.length) '0'
  else digits.take point.toNat ++ '.' :: digits.drop point.toNat

def Dec.positional (d : Dec) : String :=
  let digits := Nat.toDigits 10 d.digits
  String.ofList (layOut digits (digits.length + d.exponent))

def Dec.scientific (d : Dec) (plus : String) : String :=
  let digits := Nat.toDigits 10 d.digits
  let exponent := d.exponent + digits.length - 1
  let sign := if exponent < 0 then "-" else plus
  String.ofList (layOut digits 1) ++ "e" ++ sign ++ toString exponent.natAbs

def NumberFormat.text (format : NumberFormat) (x : Float) : String :=
  if x.isNaN then format.nan
  else
    let sign := if x < 0 then "-" else ""
    if x.isInf then sign ++ format.infinity
    else if x == 0 then format.zero
    else
      let d := (Binary.ofBits x.toBits).shortest
      let magnitude := x.abs
      if format.positionalFrom ≤ magnitude && magnitude < format.positionalBelow then
        sign ++ d.positional
      else sign ++ d.scientific format.exponentPlus

def numberText (x : Float) : String :=
  plainFormat.text x

end ExplicitControl.Decimal
