import ZigBindings.Fault

/-!
Rounding offsets up to an alignment. The quotient is taken as a double, so the result is the least
multiple not below the offset as long as the double nearest to the quotient has the same ceiling.
-/

namespace ZigBindings.Layout

/-- `n / d` rounded to the nearest integer, a half to the even one. -/
def nearestQuotient (n d : Nat) : Nat :=
  let q := n / d
  let twice := 2 * (n % d)
  if d < twice || (twice == d && q % 2 == 1) then q + 1 else q

/-- The exponent at which `n / d` has a significand of 53 bits; doubles have none below -1074. -/
def significandExponent (n d : Nat) : Int :=
  let k : Int := (Nat.log2 n : Int) - (Nat.log2 d : Int)
  let reached := d * Nat.pow 2 k.toNat ≤ n * Nat.pow 2 (-k).toNat
  max (if reached then k - 52 else k - 53) (-1074)

/-- The double nearest to `n / d`, as a significand and a power of two. -/
def doubleQuotient (n d : Nat) : Nat × Int :=
  let e := significandExponent n d
  (nearestQuotient (n * Nat.pow 2 (-e).toNat) (d * Nat.pow 2 e.toNat), e)

def ceilScaled (significand : Nat) (exponent : Int) : Nat :=
  let unit := Nat.pow 2 (-exponent).toNat
  (significand * Nat.pow 2 exponent.toNat + unit - 1) / unit

def floorScaled (significand : Nat) (exponent : Int) : Nat :=
  significand * Nat.pow 2 exponent.toNat / Nat.pow 2 (-exponent).toNat

def alignTo (offset alignment : Int) : Except Fault Int :=
  if alignment = 0 then throw .zeroDivision
  else
    let (significand, exponent) := doubleQuotient offset.natAbs alignment.natAbs
    if Nat.pow 2 1024 ≤ significand * Nat.pow 2 exponent.toNat then throw .quotientRange
    else if decide (offset < 0) != decide (alignment < 0) then
      pure (-(floorScaled significand exponent) * alignment)
    else pure (ceilScaled significand exponent * alignment)

/-- `alignTo` for offsets into memory, which are never negative. -/
def alignUp (offset alignment : Nat) : Except Fault Nat :=
  (alignTo offset alignment).map Int.toNat

end ZigBindings.Layout
