/-!
The fields of a double's 64 bits: a sign, an exponent of eleven bits and a fraction of fifty-two.
-/

namespace ZigBindings.Decimal

def signField (bits : UInt64) : Bool :=
  bits.toNat / 0x8000000000000000 == 1

def exponentField (bits : UInt64) : Nat :=
  bits.toNat / 0x10000000000000 % 0x800

def fractionField (bits : UInt64) : Nat :=
  bits.toNat % 0x10000000000000

/-- The largest exponent field holds the infinities and what is not a number. -/
def isFinite (bits : UInt64) : Bool :=
  exponentField bits != 0x7ff

def isNaN (bits : UInt64) : Bool :=
  !isFinite bits && fractionField bits != 0

def isZero (bits : UInt64) : Bool :=
  exponentField bits == 0 && fractionField bits == 0

def significand (bits : UInt64) : Nat :=
  if exponentField bits = 0 then fractionField bits else 0x10000000000000 + fractionField bits

def binaryExponent (bits : UInt64) : Int :=
  (max (exponentField bits) 1 : Nat) - 1075

end ZigBindings.Decimal
