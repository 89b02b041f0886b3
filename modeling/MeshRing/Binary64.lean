/-! Coordinates are kept bit by bit. `Float` has one NaN only, so arithmetic goes through
`Binary64.toFloat` and the identity of records does not. -/

namespace MeshRing

/-- The bits of a binary64 number. Equality is identity of bits; `numEq` compares the numbers. -/
structure Binary64 where
  bits : UInt64
  deriving DecidableEq, Inhabited

namespace Binary64

def toFloat (x : Binary64) : Float :=
  Float.ofBits x.bits

def ofFloat (x : Float) : Binary64 :=
  ⟨x.toBits⟩

/-- The nearest binary64 number; of two equally near ones, the one with an even significand. -/
def ofInt (n : Int) : Binary64 :=
  ofFloat (Float.ofInt n)

def isFinite (x : Binary64) : Bool :=
  x.toFloat.isFinite

/-- Comparison as numbers: the two zeros agree, and a NaN agrees with nothing. -/
def numEq (x y : Binary64) : Bool :=
  x.toFloat == y.toFloat

/-- What the bits stand for. A finite number is `± significand · 2 ^ (shift - 1074)`. -/
inductive Value where
  | nan
  | infinite (negative : Bool)
  | finite (negative : Bool) (significand shift : Nat)
  deriving DecidableEq

/-- The top bit is the sign, eleven bits hold the biased exponent and the other 52 the fraction.
Biased exponent 0 has no implicit leading bit, and 2047 holds the infinities and NaN. -/
def value (x : Binary64) : Value :=
  let n := x.bits.toNat
  let negative := decide (Nat.pow 2 63 ≤ n)
  let exponent := n / Nat.pow 2 52 % Nat.pow 2 11
  let fraction := n % Nat.pow 2 52
  if exponent = 2047 then
    if fraction = 0 then .infinite negative else .nan
  else if exponent = 0 then .finite negative fraction 0
  else .finite negative (Nat.pow 2 52 + fraction) (exponent - 1)

end Binary64

end MeshRing
