import MeshRing.Decimal.Shortest

/-! Decimals are written positionally or, like `1.5e-7`, with an exponent part. -/

namespace MeshRing

/-- The number `d₁.d₂d₃… · 10 ^ exponent` for the digits `d₁d₂d₃…`, the last of which is not
a zero unless it is the only one. -/
structure Decimal where
  digits : List Char
  exponent : Int
  deriving DecidableEq

namespace Decimal

/-- The decimal of a number of units, without trailing zeros. -/
def ofUnits (n : Nat) : Decimal :=
  if n = 0 then ⟨['0'], 0⟩
  else
    let digits := Nat.toDigits 10 n
    ⟨(digits.reverse.dropWhile (· = '0')).reverse, (digits.length : Int) - 1 - unitPlaces⟩

/-- The shortest decimal that rounds to `significand · 2 ^ (shift - 1074)`. -/
def ofBinary (significand shift : Nat) : Decimal :=
  if significand = 0 then ofUnits 0
  else ofUnits (RoundingInterval.ofBinary significand shift).shortest

structure Layout where
  /-- The exponents of the leading digit that are written without an exponent part. -/
  positional : Int → Bool
  /-- What follows the digits of a whole number in positional form. -/
  wholeMark : List Char

namespace Layout

/-- Measures and tolerances are written positionally at any size, whole numbers without a point. -/
def measure : Layout where
  positional _ := true
  wholeMark := []

/-- Coordinates are written positionally from `0.0001` up to `10 ^ 16`, whole numbers with `.0`. -/
def coordinate : Layout where
  positional e := decide (-4 ≤ e ∧ e < 16)
  wholeMark := ['.', '0']

def positionalText (l : Layout) (d : Decimal) : List Char :=
  match d.exponent with
  | .ofNat e =>
    let whole := (d.digits.take (e + 1)).rightpad (e + 1) '0'
    match d.digits.drop (e + 1) with
    | [] => whole ++ l.wholeMark
    | fraction => whole ++ '.' :: fraction
  | .negSucc k => '0' :: '.' :: List.replicate k '0' ++ d.digits

/-- One digit, then the others behind a point if there are any, then the exponent. -/
def scientificText (d : Decimal) : List Char :=
  let fraction := match d.digits.drop 1 with
    | [] => []
    | digits => '.' :: digits
  d.digits.take 1 ++ fraction ++ 'e' :: (toString d.exponent).toList

/-- Exponents that are not positional are written as in `1.5e-7`. -/
def text (l : Layout) (d : Decimal) : List Char :=
  if l.positional d.exponent then l.positionalText d else scientificText d

end Layout

end Decimal

end MeshRing
