import MeshRing.Proofs.Grid

/-! A side test comes out the same at every scale at which its steps keep all their bits.
Squares and products leave that range long before the coordinates do. -/

namespace MeshRing

open Arithmetic

/-! ## Scaled numbers -/

namespace Arithmetic

/-- Finite floats, the second `2 ^ k` times the first. -/
structure Scaled (k : ℤ) (x x' : Float) : Prop where
  isFinite : x.isFinite = true
  isFinite' : x'.isFinite = true
  real_eq : real x' = real x * 2 ^ k

namespace Scaled

variable {k l : ℤ} {x x' y y' : Float}

theorem of_real_eq_zero (hx : x.isFinite = true) (h0 : real x = 0) (k : ℤ) : Scaled k x x :=
  ⟨hx, hx, by rw [h0, zero_mul]⟩

theorem neg (h : Scaled k x x') : Scaled k (-x) (-x') where
  isFinite := by rw [isFinite_neg, h.isFinite]
  isFinite' := by rw [isFinite_neg, h.isFinite']
  real_eq := by rw [real_neg, real_neg, h.real_eq, neg_mul]

/-- Comparisons do not notice the scale. -/
theorem le_iff (hx : Scaled k x x') (hy : Scaled k y y') : x' ≤ y' ↔ x ≤ y := by
  rw [le_iff_real_le hx.isFinite' hy.isFinite', le_iff_real_le hx.isFinite hy.isFinite, hx.real_eq,
    hy.real_eq, mul_le_mul_iff_left₀ (zpow_pos two_pos k)]

theorem lt_iff (hx : Scaled k x x') (hy : Scaled k y y') : x' < y' ↔ x < y := by
  rw [lt_iff_real_lt hx.isFinite' hy.isFinite', lt_iff_real_lt hx.isFinite hy.isFinite, hx.real_eq,
    hy.real_eq, mul_lt_mul_iff_left₀ (zpow_pos two_pos k)]

section

variable {a a' : ℝ} (h : Represents a x) (h' : Represents a' x') (hx : x.isFinite = true)
  (hx' : x'.isFinite = true) (hscale : a' = a * 2 ^ k)
include h h' hx hx' hscale

/-- Multiples of the smallest number are rounded alike at both scales, however small they are. -/
theorem of_spaced (ha : Spaced a) (ha' : Spaced a') : Scaled k x x' where
  isFinite := hx
  isFinite' := hx'
  real_eq := by
    subst hscale
    rw [h.real_eq hx, h'.real_eq hx', rounded_mul_zpow_of_spaced ha ha']

/-- Other results scale where neither is so small that rounding takes more of its bits. -/
theorem of_regular (ha : Regular a) (ha' : Regular a') : Scaled k x x' where
  isFinite := hx
  isFinite' := hx'
  real_eq := by
    subst hscale
    rw [h.real_eq hx, h'.real_eq hx', rounded_mul_zpow ha ha']

end

theorem sub (hx : Scaled k x x') (hy : Scaled k y y') (h : (x - y).isFinite = true)
    (h' : (x' - y').isFinite = true) : Scaled k (x - y) (x' - y') := by
  refine of_spaced (represents_sub hx.isFinite hy.isFinite)
    (represents_sub hx.isFinite' hy.isFinite') h h' ?_
    ((spaced_real hx.isFinite).sub (spaced_real hy.isFinite))
    ((spaced_real hx.isFinite').sub (spaced_real hy.isFinite'))
  rw [hx.real_eq, hy.real_eq, sub_mul]

theorem add (hx : Scaled k x x') (hy : Scaled k y y') (h : (x + y).isFinite = true)
    (h' : (x' + y').isFinite = true) : Scaled k (x + y) (x' + y') := by
  refine of_spaced (represents_add hx.isFinite hy.isFinite)
    (represents_add hx.isFinite' hy.isFinite') h h' ?_
    ((spaced_real hx.isFinite).add (spaced_real hy.isFinite))
    ((spaced_real hx.isFinite').add (spaced_real hy.isFinite'))
  rw [hx.real_eq, hy.real_eq, add_mul]

theorem mul (hx : Scaled k x x') (hy : Scaled l y y') (h : (x * y).isFinite = true)
    (h' : (x' * y').isFinite = true) (hregular : Regular (real x * real y))
    (hregular' : Regular (real x' * real y')) : Scaled (k + l) (x * y) (x' * y') := by
  refine of_regular (represents_mul hx.isFinite hy.isFinite)
    (represents_mul hx.isFinite' hy.isFinite') h h' ?_ hregular hregular'
  rw [hx.real_eq, hy.real_eq, zpow_add₀ two_ne_zero]
  ring

theorem div (hx : Scaled k x x') (hy : Scaled l y y') (h : (x / y).isFinite = true)
    (h' : (x' / y').isFinite = true) (h0 : real y ≠ 0) (hregular : Regular (real x / real y))
    (hregular' : Regular (real x' / real y')) : Scaled (k - l) (x / y) (x' / y') := by
  have h0' : real y' ≠ 0 := by
    rw [hy.real_eq]
    exact mul_ne_zero h0 (zpow_ne_zero l two_ne_zero)
  refine of_regular (represents_div hx.isFinite hy.isFinite h0)
    (represents_div hx.isFinite' hy.isFinite' h0') h h' ?_ hregular hregular'
  rw [hx.real_eq, hy.real_eq, zpow_sub₀ two_ne_zero, mul_div_mul_comm]

/-- A root is never too small for all of its bits. -/
theorem sqrt (hx : Scaled (k + k) x x') (h : x.sqrt.isFinite = true) (h' : x'.sqrt.isFinite = true)
    (h0 : 0 ≤ real x) : Scaled k x.sqrt x'.sqrt := by
  have hpos : (0 : ℝ) < 2 ^ k := zpow_pos two_pos k
  have h0' : 0 ≤ real x' := by
    rw [hx.real_eq]
    positivity
  refine of_regular (represents_sqrt hx.isFinite h0) (represents_sqrt hx.isFinite' h0') h h' ?_
    (regular_sqrt (spaced_real hx.isFinite) h0) (regular_sqrt (spaced_real hx.isFinite') h0')
  rw [hx.real_eq, zpow_add₀ two_ne_zero, Real.sqrt_mul h0, Real.sqrt_mul_self hpos.le]

end Scaled

theorem scaled_of_value {k : ℤ} {x x' : Binary64} {negative : Bool} {significand shift shift' : ℕ}
    (hx : x.value = .finite negative significand shift)
    (hx' : x'.value = .finite negative significand shift') (hk : (shift' : ℤ) = shift + k) :
    Scaled k x.toFloat x'.toFloat where
  isFinite := isFinite_of_value hx
  isFinite' := isFinite_of_value hx'
  real_eq := by
    have hexponent : (shift' : ℤ) - 1074 = shift - 1074 + k := by omega
    rw [real_toFloat hx, real_toFloat hx', hexponent, zpow_add₀ two_ne_zero]
    ring

theorem real_pos_of_not_le {x t : Float} (hx : x.isFinite = true) (ht : t.isFinite = true)
    (h0 : 0 ≤ t) (h : ¬ x ≤ t) : 0 < real x := by
  rw [le_iff_real_le hx ht, not_le] at h
  rw [le_iff_real_le (by decide) ht, real_zero] at h0
  exact h0.trans_lt h

theorem real_mul_self_nonneg {x : Float} (h : (x * x).isFinite = true) : 0 ≤ real (x * x) := by
  have hx := (isFinite_of_mul h).1
  rw [(represents_mul hx hx).real_eq h]
  exact rounded_nonneg (mul_self_nonneg _)

end Arithmetic

/-! ## Lengths -/

/-- The length is finite, and neither square is so small that rounding takes more of its bits. -/
structure Offset.LengthInRange (d : Offset) : Prop where
  isFinite : d.length.isFinite = true
  du : Regular (real d.du * real d.du)
  dv : Regular (real d.dv * real d.dv)

namespace Offset.LengthInRange

variable {d : Offset} (h : d.LengthInRange)
include h

theorem isFinite_squares : (d.du * d.du).isFinite = true ∧ (d.dv * d.dv).isFinite = true :=
  isFinite_of_add (isFinite_of_sqrt h.isFinite)

theorem isFinite_parts : d.du.isFinite = true ∧ d.dv.isFinite = true :=
  ⟨(isFinite_of_mul h.isFinite_squares.1).1, (isFinite_of_mul h.isFinite_squares.2).1⟩

theorem dot_nonneg : 0 ≤ real (d.dot d) := by
  obtain ⟨hu, hv⟩ := h.isFinite_squares
  rw [Offset.dot, (represents_add hu hv).real_eq (isFinite_of_sqrt h.isFinite)]
  exact rounded_nonneg (add_nonneg (real_mul_self_nonneg hu) (real_mul_self_nonneg hv))

end Offset.LengthInRange

namespace Point

/-- Points with finite coordinates, the second `2 ^ k` times the first. -/
structure Scaled (k : ℤ) (p p' : Point) : Prop where
  u : Arithmetic.Scaled k p.u.toFloat p'.u.toFloat
  v : Arithmetic.Scaled k p.v.toFloat p'.v.toFloat

theorem distance_scaled {k : ℤ} {p p' q q' : Point} (hp : Scaled k p p') (hq : Scaled k q q')
    (h : (p - q).LengthInRange) (h' : (p' - q').LengthInRange) :
    Arithmetic.Scaled k (p.distance q) (p'.distance q') := by
  have hu := hp.u.sub hq.u h.isFinite_parts.1 h'.isFinite_parts.1
  have hv := hp.v.sub hq.v h.isFinite_parts.2 h'.isFinite_parts.2
  have huu := hu.mul hu h.isFinite_squares.1 h'.isFinite_squares.1 h.du h'.du
  have hvv := hv.mul hv h.isFinite_squares.2 h'.isFinite_squares.2 h.dv h'.dv
  have hdot := huu.add hvv (isFinite_of_sqrt h.isFinite) (isFinite_of_sqrt h'.isFinite)
  exact hdot.sqrt h.isFinite h'.isFinite h.dot_nonneg

/-! ## Sides -/

/-- The distance of `c` from the line from `a` to `b` is finite, and neither a product nor
the quotient behind it is so small that rounding takes more of its bits. -/
structure DistanceInRange (a b c : Point) : Prop where
  isFinite : (doubleArea a b c / a.distance b).isFinite = true
  left : Regular (real (b - a).du * real (c - a).dv)
  right : Regular (real (b - a).dv * real (c - a).du)
  quotient : Regular (real (doubleArea a b c) / real (a.distance b))

/-- The steps of a side test keep to the range in which all bits count. The distance is
computed from lines longer than the tolerance only. -/
structure SideInRange (a b c : Point) (tolerance : Float) : Prop where
  length : (a - b).LengthInRange
  distance : ¬ a.distance b ≤ tolerance → DistanceInRange a b c

section

variable {k : ℤ} {a a' b b' c c' : Point} {t t' : Float} (ha : Scaled k a a') (hb : Scaled k b b')
  (hc : Scaled k c c')
include ha hb hc

theorem doubleArea_scaled (h : DistanceInRange a b c) (h' : DistanceInRange a' b' c') :
    Arithmetic.Scaled (k + k) (doubleArea a b c) (doubleArea a' b' c') := by
  have harea := isFinite_of_div h.isFinite
  have harea' := isFinite_of_div h'.isFinite
  obtain ⟨hl, hr⟩ := isFinite_of_sub harea
  obtain ⟨hl', hr'⟩ := isFinite_of_sub harea'
  obtain ⟨hbu, hcv⟩ := isFinite_of_mul hl
  obtain ⟨hbv, hcu⟩ := isFinite_of_mul hr
  obtain ⟨hbu', hcv'⟩ := isFinite_of_mul hl'
  obtain ⟨hbv', hcu'⟩ := isFinite_of_mul hr'
  have hleft := (hb.u.sub ha.u hbu hbu').mul (hc.v.sub ha.v hcv hcv') hl hl' h.left h'.left
  have hright := (hb.v.sub ha.v hbv hbv').mul (hc.u.sub ha.u hcu hcu') hr hr' h.right h'.right
  exact hleft.sub hright harea harea'

/-- The side is decided by comparisons of scaled numbers, so it stays the same. -/
theorem side_scaled (ht : Arithmetic.Scaled k t t') (h0 : 0 ≤ t) (h : SideInRange a b c t)
    (h' : SideInRange a' b' c' t') : side a' b' c' t' = side a b c t := by
  have hlength := distance_scaled ha hb h.length h'.length
  by_cases hshort : a.distance b ≤ t
  · rw [side_of_le hshort, side_of_le ((hlength.le_iff ht).mpr hshort)]
  · have hshort' : ¬ a'.distance b' ≤ t' := fun hle => hshort ((hlength.le_iff ht).mp hle)
    have hpos := real_pos_of_not_le hlength.isFinite ht.isFinite h0 hshort
    have hrange := h.distance hshort
    have hrange' := h'.distance hshort'
    have hdistance := (doubleArea_scaled ha hb hc hrange hrange').div hlength hrange.isFinite
      hrange'.isFinite hpos.ne' hrange.quotient hrange'.quotient
    rw [add_sub_cancel_right] at hdistance
    rw [side_of_not_le hshort, side_of_not_le hshort']
    simp only [Side.ofDistance, gt_iff_lt, ht.lt_iff hdistance, hdistance.lt_iff ht.neg]

end

/-! ## Crossings -/

/-- All four side tests keep to the range in which all bits count. -/
structure CrossingInRange (a0 a1 b0 b1 : Point) (tolerance : Float) : Prop where
  side_a0 : SideInRange b0 b1 a0 tolerance
  side_a1 : SideInRange b0 b1 a1 tolerance
  side_b0 : SideInRange a0 a1 b0 tolerance
  side_b1 : SideInRange a0 a1 b1 tolerance

theorem crossing_scaled {k : ℤ} {a0 a0' a1 a1' b0 b0' b1 b1' : Point} {t t' : Float}
    (ha0 : Scaled k a0 a0') (ha1 : Scaled k a1 a1') (hb0 : Scaled k b0 b0') (hb1 : Scaled k b1 b1')
    (ht : Arithmetic.Scaled k t t') (h0 : 0 ≤ t) (h : CrossingInRange a0 a1 b0 b1 t)
    (h' : CrossingInRange a0' a1' b0' b1' t') :
    crossing a0' a1' b0' b1' t' = crossing a0 a1 b0 b1 t := by
  simp only [crossing, separates, side_scaled hb0 hb1 ha0 ht h0 h.side_a0 h'.side_a0,
    side_scaled hb0 hb1 ha1 ht h0 h.side_a1 h'.side_a1,
    side_scaled ha0 ha1 hb0 ht h0 h.side_b0 h'.side_b0,
    side_scaled ha0 ha1 hb1 ht h0 h.side_b1 h'.side_b1]

end Point

/-! ## Moderate differences -/

namespace Arithmetic

/-- Zero, or from `2 ^ -n` to `2 ^ n`. -/
structure Within (n : ℤ) (y : ℝ) : Prop where
  le : |y| ≤ 2 ^ n
  ge : y ≠ 0 → 2 ^ (-n) ≤ |y|

namespace Within

variable {m n : ℤ} {x y : ℝ}

theorem mul (hx : Within m x) (hy : Within n y) : Within (m + n) (x * y) where
  le := by
    rw [abs_mul, zpow_add₀ two_ne_zero]
    exact mul_le_mul hx.le hy.le (abs_nonneg y) (by positivity)
  ge h0 := by
    rw [abs_mul, neg_add, zpow_add₀ two_ne_zero]
    exact mul_le_mul (hx.ge (left_ne_zero_of_mul h0)) (hy.ge (right_ne_zero_of_mul h0))
      (by positivity) (abs_nonneg x)

theorem inv (hy : Within n y) (h0 : y ≠ 0) : Within n y⁻¹ where
  le := by
    rw [abs_inv, inv_le_comm₀ (abs_pos.mpr h0) (by positivity), ← zpow_neg]
    exact hy.ge h0
  ge _ := by
    rw [abs_inv, zpow_neg, inv_le_inv₀ (by positivity) (abs_pos.mpr h0)]
    exact hy.le

theorem div (hx : Within m x) (hy : Within n y) (h0 : y ≠ 0) : Within (m + n) (x / y) := by
  rw [div_eq_mul_inv]
  exact hx.mul (hy.inv h0)

theorem sqrt (hy : Within (n + n) y) : Within n √y where
  le := by
    rw [abs_of_nonneg (Real.sqrt_nonneg y), Real.sqrt_le_left (by positivity), sq,
      ← zpow_add₀ two_ne_zero]
    exact (le_abs_self y).trans hy.le
  ge h0 := by
    have hpos : 0 < y := Real.sqrt_pos.mp ((Real.sqrt_nonneg y).lt_of_ne' h0)
    have hge := hy.ge hpos.ne'
    rw [abs_of_pos hpos, neg_add, zpow_add₀ two_ne_zero, ← sq] at hge
    rw [abs_of_nonneg (Real.sqrt_nonneg y), Real.le_sqrt' (by positivity)]
    exact hge

theorem regular (hy : Within n y) (hn : n ≤ 1022) : Regular y := by
  by_cases h0 : y = 0
  · exact .inl h0
  · exact .inr ((zpow_le_zpow_right₀ one_le_two (by omega)).trans (hy.ge h0))

theorem of_multiple (hy : MultipleOf (-n) y) (hle : |y| ≤ 2 ^ n) : Within n y :=
  ⟨hle, hy.zpow_le_abs⟩

theorem rounded (hy : Within n y) (h0 : 0 ≤ n) (hn : n ≤ 1074) :
    Within n (Arithmetic.rounded y) where
  le := abs_rounded_le (by omega) hy.le
  ge h := by
    refine le_abs_rounded (by omega) (hy.ge ?_)
    rintro rfl
    exact h rounded_zero

theorem multipleOf (hy : Within n y) : MultipleOf (-n - 52) (Arithmetic.rounded y) := by
  by_cases h0 : y = 0
  · exact ⟨0, by rw [h0, rounded_zero, Int.cast_zero, zero_mul]⟩
  · exact multipleOf_rounded (hy.ge h0)

theorem isFinite {x : Float} (hy : Within n y) (hn : n ≤ 1023) (h : Represents y x) :
    x.isFinite = true :=
  h.isFinite (hy.le.trans (zpow_le_zpow_right₀ one_le_two hn))

end Within

/-- A finite float within `2 ^ 240`. -/
structure Moderate (x : Float) : Prop where
  isFinite : x.isFinite = true
  within : Within 240 (real x)

theorem IsInt.moderate {x : Float} {n : ℤ} (h : IsInt x n) : Moderate x where
  isFinite := h.isFinite
  within := by
    have hle : |(n : ℝ)| ≤ 2 ^ (53 : ℤ) := by exact_mod_cast h.abs_le
    rw [h.real_eq]
    refine ⟨hle.trans (zpow_le_zpow_right₀ one_le_two (by decide)), fun h0 => ?_⟩
    have hone : (1 : ℝ) ≤ |(n : ℝ)| := by exact_mod_cast Int.one_le_abs (Int.cast_ne_zero.mp h0)
    exact (zpow_le_one_of_nonpos₀ one_le_two (by decide)).trans hone

/-- A product of moderate floats, as it is rounded. -/
structure ModerateProduct (x y : Float) : Prop where
  isFinite : (x * y).isFinite = true
  regular : Regular (real x * real y)
  abs_le : |real (x * y)| ≤ 2 ^ (480 : ℤ)
  multiple : MultipleOf (-532) (real (x * y))

/-- A product of moderate numbers is far from both ends of the range. -/
theorem Moderate.mul {x y : Float} (hx : Moderate x) (hy : Moderate y) : ModerateProduct x y := by
  have hproduct := hx.within.mul hy.within
  have hrepresents := represents_mul hx.isFinite hy.isFinite
  have hfinite := hproduct.isFinite (by decide) hrepresents
  have hreal := hrepresents.real_eq hfinite
  exact {
    isFinite := hfinite
    regular := hproduct.regular (by decide)
    abs_le := hreal ▸ (hproduct.rounded (by decide) (by decide)).le
    multiple := hreal ▸ hproduct.multipleOf }

/-- Sums and differences of products may cancel, but only down to the last bit of the products. -/
theorem within_of_products {a b y : ℝ} (ha : |a| ≤ 2 ^ (480 : ℤ)) (hb : |b| ≤ 2 ^ (480 : ℤ))
    (hle : |y| ≤ |a| + |b|) (hy : MultipleOf (-532) y) : Within 532 y := by
  refine .of_multiple hy (hle.trans ?_)
  calc |a| + |b| ≤ (2 : ℝ) ^ (480 : ℤ) + 2 ^ (480 : ℤ) := add_le_add ha hb
    _ = 2 ^ (481 : ℤ) := by rw [← two_mul, ← zpow_one_add₀ two_ne_zero]; rfl
    _ ≤ 2 ^ (532 : ℤ) := zpow_le_zpow_right₀ one_le_two (by decide)

end Arithmetic

structure Offset.Moderate (d : Offset) : Prop where
  du : Arithmetic.Moderate d.du
  dv : Arithmetic.Moderate d.dv

namespace Offset.Moderate

variable {d d' : Offset} (h : d.Moderate)
include h

theorem represents_dot : Represents (real (d.du * d.du) + real (d.dv * d.dv)) (d.dot d) :=
  represents_add (h.du.mul h.du).isFinite (h.dv.mul h.dv).isFinite

theorem within_squares : Within 532 (real (d.du * d.du) + real (d.dv * d.dv)) := by
  have hu := h.du.mul h.du
  have hv := h.dv.mul h.dv
  exact within_of_products hu.abs_le hv.abs_le (abs_add_le _ _) (hu.multiple.add hv.multiple)

theorem isFinite_dot : (d.dot d).isFinite = true :=
  h.within_squares.isFinite (by decide) h.represents_dot

theorem within_dot : Within 532 (real (d.dot d)) := by
  rw [h.represents_dot.real_eq h.isFinite_dot]
  exact h.within_squares.rounded (by decide) (by decide)

theorem represents_length : Represents √(real (d.dot d)) d.length := by
  refine represents_sqrt h.isFinite_dot ?_
  rw [h.represents_dot.real_eq h.isFinite_dot]
  exact rounded_nonneg (add_nonneg (real_mul_self_nonneg (h.du.mul h.du).isFinite)
    (real_mul_self_nonneg (h.dv.mul h.dv).isFinite))

theorem within_sqrt : Within 266 √(real (d.dot d)) :=
  Within.sqrt h.within_dot

theorem isFinite_length : d.length.isFinite = true :=
  h.within_sqrt.isFinite (by decide) h.represents_length

theorem within_length : Within 266 (real d.length) := by
  rw [h.represents_length.real_eq h.isFinite_length]
  exact h.within_sqrt.rounded (by decide) (by decide)

theorem lengthInRange : d.LengthInRange where
  isFinite := h.isFinite_length
  du := (h.du.mul h.du).regular
  dv := (h.dv.mul h.dv).regular

variable (h' : d'.Moderate)
include h'

theorem represents_cross : Represents (real (d.du * d'.dv) - real (d.dv * d'.du)) (d.cross d') :=
  represents_sub (h.du.mul h'.dv).isFinite (h.dv.mul h'.du).isFinite

theorem within_products : Within 532 (real (d.du * d'.dv) - real (d.dv * d'.du)) := by
  have hu := h.du.mul h'.dv
  have hv := h.dv.mul h'.du
  exact within_of_products hu.abs_le hv.abs_le (abs_sub _ _) (hu.multiple.sub hv.multiple)

theorem isFinite_cross : (d.cross d').isFinite = true :=
  (h.within_products h').isFinite (by decide) (h.represents_cross h')

theorem within_cross : Within 532 (real (d.cross d')) := by
  rw [(h.represents_cross h').real_eq (h.isFinite_cross h')]
  exact (h.within_products h').rounded (by decide) (by decide)

end Offset.Moderate

namespace Point

/-- The points are moderately far apart: their differences in each coordinate are zero or
from `2 ^ -240` to `2 ^ 240`. -/
def ModeratelyApart (ps : List Point) : Prop :=
  ∀ p ∈ ps, ∀ q ∈ ps, (p - q).Moderate

theorem sideInRange_of_moderate {a b c : Point} {t : Float} (hab : (a - b).Moderate)
    (hba : (b - a).Moderate) (hca : (c - a).Moderate) (h0 : 0 ≤ t) (ht : t.isFinite = true) :
    SideInRange a b c t where
  length := hab.lengthInRange
  distance hlong := by
    have hpos : real (a.distance b) ≠ 0 :=
      (real_pos_of_not_le hab.isFinite_length ht h0 hlong).ne'
    have hquotient := (hba.within_cross hca).div hab.within_length hpos
    exact {
      isFinite := hquotient.isFinite (by decide)
        (represents_div (hba.isFinite_cross hca) hab.isFinite_length hpos)
      left := (hba.du.mul hca.dv).regular
      right := (hba.dv.mul hca.du).regular
      quotient := hquotient.regular (by decide) }

/-- Four points that are moderately far apart keep all their bits in a crossing test. -/
theorem crossingInRange_of_moderate {a0 a1 b0 b1 : Point} {t : Float}
    (h : ModeratelyApart [a0, a1, b0, b1]) (h0 : 0 ≤ t) (ht : t.isFinite = true) :
    CrossingInRange a0 a1 b0 b1 t := by
  have hside {a b c : Point} (ha : a ∈ [a0, a1, b0, b1]) (hb : b ∈ [a0, a1, b0, b1])
      (hc : c ∈ [a0, a1, b0, b1]) : SideInRange a b c t :=
    sideInRange_of_moderate (h a ha b hb) (h b hb a ha) (h c hc a ha) h0 ht
  exact {
    side_a0 := hside (by simp) (by simp) (by simp)
    side_a1 := hside (by simp) (by simp) (by simp)
    side_b0 := hside (by simp) (by simp) (by simp)
    side_b1 := hside (by simp) (by simp) (by simp) }

theorem moderatelyApart_of_onGrid {ps : List Point} (h : ∀ p ∈ ps, OnGrid p) :
    ModeratelyApart ps := by
  intro p hp q hq
  obtain ⟨i, j, hp⟩ := h p hp
  obtain ⟨k, l, hq⟩ := h q hq
  have hsub := hp.sub hq
  exact ⟨hsub.du.moderate, hsub.dv.moderate⟩

/-- What is the same at both scales. -/
structure ScaleSpec (k : ℤ) (t t' : Float) : Prop where
  side : ∀ a a' b b' c c', Scaled k a a' → Scaled k b b' → Scaled k c c' →
    SideInRange a b c t → SideInRange a' b' c' t' → side a' b' c' t' = side a b c t
  crossing : ∀ a0 a0' a1 a1' b0 b0' b1 b1', Scaled k a0 a0' → Scaled k a1 a1' → Scaled k b0 b0' →
    Scaled k b1 b1' → CrossingInRange a0 a1 b0 b1 t → CrossingInRange a0' a1' b0' b1' t' →
      crossing a0' a1' b0' b1' t' = crossing a0 a1 b0 b1 t
  /-- A range that is seen from the coordinates. -/
  moderate : ∀ a0 a0' a1 a1' b0 b0' b1 b1', Scaled k a0 a0' → Scaled k a1 a1' → Scaled k b0 b0' →
    Scaled k b1 b1' → ModeratelyApart [a0, a1, b0, b1] → ModeratelyApart [a0', a1', b0', b1'] →
      Point.crossing a0' a1' b0' b1' t' = Point.crossing a0 a1 b0 b1 t

/-- Sides and crossings do not notice the scale in the range, which moderate
coordinates keep. -/
theorem scale_spec {k : ℤ} {t t' : Float} (h0 : 0 ≤ t) (ht : Arithmetic.Scaled k t t') :
    ScaleSpec k t t' where
  side a a' b b' c c' ha hb hc := side_scaled ha hb hc ht h0
  crossing a0 a0' a1 a1' b0 b0' b1 b1' ha0 ha1 hb0 hb1 := crossing_scaled ha0 ha1 hb0 hb1 ht h0
  moderate a0 a0' a1 a1' b0 b0' b1 b1' ha0 ha1 hb0 hb1 h h' := by
    have h0' : 0 ≤ t' :=
      ((Arithmetic.Scaled.of_real_eq_zero (by decide) real_zero k).le_iff ht).mpr h0
    exact crossing_scaled ha0 ha1 hb0 hb1 ht h0 (crossingInRange_of_moderate h h0 ht.isFinite)
      (crossingInRange_of_moderate h' h0' ht.isFinite')

/-- The diagonals of a square cross up to a quarter of its side, of a unit square
and of a larger one. -/
theorem scale_spec_square :
    let zero : Binary64 := ⟨0⟩
    let one : Binary64 := ⟨0x3ff0000000000000⟩
    let large : Binary64 := ⟨0x4130000000000000⟩
    let t : Float := Binary64.toFloat ⟨0x3fd0000000000000⟩
    let t' : Float := Binary64.toFloat ⟨0x4110000000000000⟩
    0 ≤ t ∧ Arithmetic.Scaled 20 t t' ∧ ScaleSpec 20 t t' ∧
      crossing ⟨zero, zero⟩ ⟨large, large⟩ ⟨zero, large⟩ ⟨large, zero⟩ t' =
        crossing ⟨zero, zero⟩ ⟨one, one⟩ ⟨zero, one⟩ ⟨one, zero⟩ t ∧
      crossing ⟨zero, zero⟩ ⟨one, one⟩ ⟨zero, one⟩ ⟨one, zero⟩ t = true := by
  intro zero one large t t'
  have h0 : 0 ≤ t := by decide +kernel
  have htValue : (⟨0x3fd0000000000000⟩ : Binary64).value = .finite false (2 ^ 52) 1020 := by
    decide +kernel
  have htValue' : (⟨0x4110000000000000⟩ : Binary64).value = .finite false (2 ^ 52) 1040 := by
    decide +kernel
  have hzeroValue : zero.value = .finite false 0 0 := by decide +kernel
  have honeValue : one.value = .finite false (2 ^ 52) 1022 := by decide +kernel
  have hlargeValue : large.value = .finite false (2 ^ 52) 1042 := by decide +kernel
  have ht : Arithmetic.Scaled 20 t t' := scaled_of_value htValue htValue' (by decide)
  have hside : Arithmetic.Scaled 20 one.toFloat large.toFloat :=
    scaled_of_value honeValue hlargeValue (by decide)
  have hspec := scale_spec h0 ht
  have hzero : IsInt zero.toFloat 0 := isInt_of_value hzeroValue (by decide) (by norm_num)
  have hone : IsInt one.toFloat 1 := isInt_of_value honeValue (by decide) (by
    norm_num [unit, Binary64.Value.sign, Float.Model.UnpackedFloat.Sign.apply])
  have hlarge : IsInt large.toFloat (2 ^ 20) := isInt_of_value hlargeValue (by decide) (by
    norm_num [unit, Binary64.Value.sign, Float.Model.UnpackedFloat.Sign.apply])
  have hfixed : Arithmetic.Scaled 20 zero.toFloat zero.toFloat :=
    .of_real_eq_zero hzero.isFinite (by rw [hzero.real_eq, Int.cast_zero]) 20
  have hapart {x : Binary64} {n : ℤ} (hx : IsInt x.toFloat n) (hn : |n| ≤ 2 ^ 25) :
      ModeratelyApart [⟨zero, zero⟩, ⟨x, x⟩, ⟨zero, x⟩, ⟨x, zero⟩] := by
    refine moderatelyApart_of_onGrid fun p hp => ?_
    obtain rfl | rfl | rfl | rfl :
        p = ⟨zero, zero⟩ ∨ p = ⟨x, x⟩ ∨ p = ⟨zero, x⟩ ∨ p = ⟨x, zero⟩ := by
      simpa using hp
    · exact ⟨_, _, hzero, hzero, by decide, by decide⟩
    · exact ⟨_, _, hx, hx, hn, hn⟩
    · exact ⟨_, _, hzero, hx, by decide, hn⟩
    · exact ⟨_, _, hx, hzero, hn, by decide⟩
  refine ⟨h0, ht, hspec, ?_, by decide +kernel⟩
  exact hspec.moderate _ _ _ _ _ _ _ _ ⟨hfixed, hfixed⟩ ⟨hside, hside⟩ ⟨hfixed, hside⟩
    ⟨hside, hfixed⟩ (hapart hone (by decide)) (hapart hlarge (by decide))

/-- The diagonals of the unit square cross, but not those of a square so large that its
squared diagonal is infinite, nor of one so small that it is zero. -/
theorem crossing_scaled_ne :
    let zero : Binary64 := ⟨0⟩
    let one : Binary64 := ⟨0x3ff0000000000000⟩
    let huge : Binary64 := ⟨0x6570000000000000⟩
    let tiny : Binary64 := ⟨0x1a70000000000000⟩
    Arithmetic.Scaled 600 one.toFloat huge.toFloat ∧
      Arithmetic.Scaled (-600) one.toFloat tiny.toFloat ∧
      (∀ k, Arithmetic.Scaled k zero.toFloat zero.toFloat) ∧ (∀ k, Arithmetic.Scaled k 0 0) ∧
      side ⟨zero, zero⟩ ⟨one, one⟩ ⟨zero, one⟩ 0 = .left ∧
      side ⟨zero, zero⟩ ⟨huge, huge⟩ ⟨zero, huge⟩ 0 = .on ∧
      side ⟨zero, zero⟩ ⟨tiny, tiny⟩ ⟨zero, tiny⟩ 0 = .on ∧
      crossing ⟨zero, zero⟩ ⟨one, one⟩ ⟨zero, one⟩ ⟨one, zero⟩ 0 = true ∧
      crossing ⟨zero, zero⟩ ⟨huge, huge⟩ ⟨zero, huge⟩ ⟨huge, zero⟩ 0 = false ∧
      crossing ⟨zero, zero⟩ ⟨tiny, tiny⟩ ⟨zero, tiny⟩ ⟨tiny, zero⟩ 0 = false := by
  intro zero one huge tiny
  have hzero : zero.value = .finite false 0 0 := by decide +kernel
  have hone : one.value = .finite false (2 ^ 52) 1022 := by decide +kernel
  have hhuge : huge.value = .finite false (2 ^ 52) 1622 := by decide +kernel
  have htiny : tiny.value = .finite false (2 ^ 52) 422 := by decide +kernel
  refine ⟨scaled_of_value hone hhuge (by decide), scaled_of_value hone htiny (by decide),
    .of_real_eq_zero (isFinite_of_value hzero) ?_, .of_real_eq_zero (by decide) real_zero,
    by decide +kernel, by decide +kernel, by decide +kernel, by decide +kernel, by decide +kernel,
    by decide +kernel⟩
  rw [real_toFloat hzero, Nat.cast_zero, zero_mul, mul_zero]

end Point

end MeshRing
