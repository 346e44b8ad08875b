import ExplicitControl.Decimal.Binary

/-!
The shortest decimal that reads back as a given float. The reals that round to a float form an interval; of
the decimals in it those with the fewest digits are candidates, and the one closest to the float is chosen,
the greater of two equally close ones.
-/

namespace ExplicitControl.Decimal

structure Dec where
  digits : Nat
  exponent : Int
deriving DecidableEq

def compareScaled (a : Nat) (i : Int) (n : Nat) (j : Int) : Ordering :=
  compare (a * Nat.pow 10 i.toNat * Nat.pow 2 (-j).toNat) (n * Nat.pow 2 j.toNat * Nat.pow 10 (-i).toNat)

/-- The decimal lies among the reals that round to `x`: between the halfway points to the two neighbours of
`x`, which themselves belong to `x` when its last bit is even. -/
def Binary.readsBack (x : Binary) (d : Dec) : Bool :=
  let low := if x.narrowBelow then 4 * x.m - 1 else 4 * x.m - 2
  let high := 4 * x.m + 2
  let even := x.m % 2 == 0
  let atLow := compareScaled d.digits d.exponent low (x.q - 2)
  let atHigh := compareScaled d.digits d.exponent high (x.q - 2)
  (atLow == .gt || (even && atLow == .eq)) && (atHigh == .lt || (even && atHigh == .eq))

def digitCount (n : Nat) : Nat :=
  (Nat.toDigits 10 n).length

/-- The least `k` with `x < 10 ^ k`. Below one, `10 ^ -k ≤ 1 / x < 10 ^ (1 - k)`, and a float is no negative
power of ten. -/
def Binary.scale (x : Binary) : Int :=
  let above := x.m * Nat.pow 2 x.q.toNat
  let below := Nat.pow 2 (-x.q).toNat
  if below ≤ above then digitCount (above / below) else 1 - digitCount (below / above)

/-- The neighbour of `x` on the grid of `n` digits that reads back as `x`, if there is one: the nearer of
two, the upper of two equally near. -/
def Binary.onGrid? (x : Binary) (n : Nat) : Option Dec :=
  let exponent := x.scale - n
  let above := x.m * Nat.pow 2 x.q.toNat * Nat.pow 10 (-exponent).toNat
  let below := Nat.pow 2 (-x.q).toNat * Nat.pow 10 exponent.toNat
  let floor := above / below
  let lower : Dec := ⟨floor, exponent⟩
  let upper : Dec := ⟨floor + 1, exponent⟩
  match x.readsBack lower, x.readsBack upper with
  | true, true =>
    if compareScaled (2 * floor + 1) exponent (2 * x.m) x.q == .gt then some lower else some upper
  | true, false => some lower
  | false, true => some upper
  | false, false => none

/-- Move trailing zeros of the digits into the exponent; `fuel` bounds the number of them. -/
def Dec.strip (fuel : Nat) (d : Dec) : Dec :=
  match fuel with
  | 0 => d
  | fuel + 1 =>
    if d.digits % 10 = 0 then Dec.strip fuel ⟨d.digits / 10, d.exponent + 1⟩ else d

def Binary.exact (x : Binary) : Dec :=
  ⟨x.m * Nat.pow 2 x.q.toNat * Nat.pow 5 (-x.q).toNat, -((-x.q).toNat : Int)⟩

/-- The shortest decimal of a magnitude other than zero. Seventeen digits always suffice. -/
def Binary.shortest (x : Binary) : Dec :=
  match (List.range' 1 17).findSome? x.onGrid? with
  | some d => d.strip 17
  | none => x.exact

end ExplicitControl.Decimal
