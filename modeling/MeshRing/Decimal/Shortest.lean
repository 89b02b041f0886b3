/-! Shortest decimals in whole numbers: one unit is `10 ^ (-1076)`, fine enough for every
binary64 number and for both ends of its rounding interval. -/

namespace MeshRing.Decimal

/-- Decimal places of one unit. -/
def unitPlaces : Nat := 1076

/-- A quarter of the distance between neighbours at `2 ^ (shift - 1074)`, in units. -/
def quarterGap (shift : Nat) : Nat :=
  Nat.pow 2 shift * Nat.pow 5 unitPlaces

theorem quarterGap_pos (shift : Nat) : 0 < quarterGap shift := by
  rw [quarterGap, Nat.pow_eq, Nat.pow_eq]
  exact Nat.mul_pos (Nat.two_pow_pos shift) (Nat.pow_pos (Nat.zero_lt_succ 4))

/-- A number and the reals that round to it, in units. The ends belong to the
interval when `closed`. -/
structure RoundingInterval where
  low : Nat
  value : Nat
  high : Nat
  closed : Bool

namespace RoundingInterval

/-- The interval of `significand · 2 ^ (shift - 1074)`. Its ends are half-way to the
neighbours, and the lower neighbour of a power of two is twice as near. An end rounds to the
even significand. -/
def ofBinary (significand shift : Nat) : RoundingInterval :=
  let below := if significand = Nat.pow 2 52 ∧ 0 < shift then 1 else 2
  { low := (4 * significand - below) * quarterGap shift
    value := 4 * significand * quarterGap shift
    high := (4 * significand + 2) * quarterGap shift
    closed := significand % 2 == 0 }

def contains (r : RoundingInterval) (n : Nat) : Bool :=
  decide (r.low < n ∧ n < r.high ∨ r.closed ∧ (n = r.low ∨ n = r.high))

/-- The point of the interval next to the number on the grid of multiples of `10 ^ k`, if
there is one. Of two equally near points the upper one is taken. -/
def gridPoint? (r : RoundingInterval) (k : Nat) : Option Nat :=
  let lower := r.value / Nat.pow 10 k * Nat.pow 10 k
  let upper := lower + Nat.pow 10 k
  match r.contains lower, r.contains upper with
  | true, true => some (if r.value - lower < upper - r.value then lower else upper)
  | true, false => some lower
  | false, true => some upper
  | false, false => none

/-- The shortest decimal is the point of the interval with the fewest digits and, among
those, the nearest to the number. The first grid with a point in the interval decides, from
one digit to seventeen. -/
def shortest (r : RoundingInterval) : Nat :=
  let top := (Nat.toDigits 10 r.value).length - 1
  ((List.range 17).findSome? fun i => r.gridPoint? (top - i)).getD r.value

theorem contains_value_ofBinary {significand : Nat} (h : 0 < significand) (shift : Nat) :
    (ofBinary significand shift).contains (ofBinary significand shift).value = true := by
  have hq := quarterGap_pos shift
  refine decide_eq_true (.inl ⟨?_, ?_⟩)
  · exact Nat.mul_lt_mul_of_pos_right (by split <;> omega) hq
  · exact Nat.mul_lt_mul_of_pos_right (by omega) hq

theorem contains_of_gridPoint? {r : RoundingInterval} {k n : Nat} (h : r.gridPoint? k = some n) :
    r.contains n = true := by
  simp only [gridPoint?] at h
  split at h
  · split at h <;> simp_all
  all_goals simp_all

/-- What is chosen for a number rounds to it. -/
theorem contains_shortest {r : RoundingInterval} (h : r.contains r.value = true) :
    r.contains r.shortest = true := by
  simp only [shortest]
  cases hf : (List.range 17).findSome? fun i =>
      r.gridPoint? ((Nat.toDigits 10 r.value).length - 1 - i) with
  | none => exact h
  | some n =>
      obtain ⟨i, _, hi⟩ := List.exists_of_findSome?_eq_some hf
      exact contains_of_gridPoint? hi

end RoundingInterval

end MeshRing.Decimal
