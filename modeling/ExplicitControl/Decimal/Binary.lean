/-!
Floats as exact numbers: a finite float is an integer times a power of two. What is decided exactly (which
decimal stands for a float, what remains of a division) is decided on these two integers.
-/

namespace ExplicitControl.Decimal

/-- The magnitude `m * 2 ^ q` of a finite float. -/
structure Binary where
  m : Nat
  q : Int
  /-- The gap to the value below is half the gap to the value above. -/
  narrowBelow : Bool
deriving DecidableEq

def Binary.ofBits (bits : UInt64) : Binary :=
  let exponent := ((bits >>> 52) &&& 0x7FF).toNat
  let fraction := (bits &&& 0xFFFFFFFFFFFFF).toNat
  if exponent = 0 then ⟨fraction, -1074, false⟩
  else ⟨Nat.pow 2 52 + fraction, exponent - 1075, fraction == 0 && 1 < exponent⟩

/-- The bits of `m * 2 ^ q`, for `0 < m < 2 ^ 53` and a value among the floats: the leading bit of `m` is
moved to its place, or the whole to the grid of the smallest floats. -/
def bitsOf (m : Nat) (q : Int) : UInt64 :=
  let top : Int := m.log2 + q
  if top < -1022 then (m * Nat.pow 2 (q + 1074).toNat).toUInt64
  else ((top + 1023).toNat * Nat.pow 2 52 + (m * Nat.pow 2 (52 - m.log2) - Nat.pow 2 52)).toUInt64

/-- What remains of `x` when multiples of `y` are taken from it: the sign of `x`, and a magnitude below that
of `y`. The result is a float, so nothing is rounded. -/
def remainder (x y : Float) : Float :=
  if x.isNaN || y.isNaN || x.isInf || y == 0 then 0.0 / 0.0
  else if y.isInf || x == 0 then x
  else
    let a := Binary.ofBits x.toBits
    let b := Binary.ofBits y.toBits
    let q := min a.q b.q
    let r := a.m * Nat.pow 2 (a.q - q).toNat % (b.m * Nat.pow 2 (b.q - q).toNat)
    let magnitude := if r = 0 then 0 else Float.ofBits (bitsOf r q)
    if x < 0 then -magnitude else magnitude

end ExplicitControl.Decimal
