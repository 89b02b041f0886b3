import MeshRing.Proofs.Directions
import MeshRing.Proofs.RoundedOperations

/-! On integer grids areas are exact. Lengths and distances are rounded, but never to zero,
so with tolerance zero sides and crossings are those of exact geometry. -/

namespace MeshRing

open Arithmetic

/-! ## Whole numbers -/

namespace Arithmetic

/-- The float is the whole number `n`, of 53 bits at most. -/
structure IsInt (x : Float) (n : ℤ) : Prop where
  isFinite : x.isFinite = true
  real_eq : real x = n
  abs_le : |n| ≤ 2 ^ 53

theorem IsInt.toRat_eq {x : Float} {n : ℤ} (h : IsInt x n) : toRat x.toModel.unpack = n := by
  have hreal := h.real_eq
  rw [real] at hreal
  exact_mod_cast hreal

theorem isInt_of_value {x : Binary64} {negative : Bool} {significand shift : ℕ}
    (h : x.value = .finite negative significand shift) {n : ℤ} (hn : |n| ≤ 2 ^ 53)
    (heq : unit (Binary64.Value.sign negative) * (significand * 2 ^ (shift - 1074 : ℤ)) = n) :
    IsInt x.toFloat n where
  isFinite := isFinite_of_value h
  real_eq := (real_toFloat h).trans heq
  abs_le := hn

/-- A whole result of 53 bits is not rounded. -/
theorem Represents.isInt {x : Float} {n : ℤ} (h : Represents n x) (hn : |n| ≤ 2 ^ 53) :
    IsInt x n := by
  have hcast : |(n : ℝ)| ≤ 2 ^ (0 + 53 : ℤ) := by exact_mod_cast hn
  have hfixed := h.fixedPoint ⟨n, by rw [zpow_zero, mul_one]⟩ hcast (by decide) le_rfl (by decide)
  exact ⟨hfixed.isFinite, hfixed.real_eq, hn⟩

theorem IsInt.fixedPoint {x : Float} {n : ℤ} (h : IsInt x n) (hn : |n| ≤ 2 ^ 25) :
    FixedPoint 0 25 (real x) x where
  isFinite := h.isFinite
  real_eq := rfl
  multiple := ⟨n, by rw [h.real_eq, zpow_zero, mul_one]⟩
  abs_le := by
    rw [h.real_eq]
    exact_mod_cast hn

namespace IsInt

variable {x y : Float} {m n : ℤ} (hx : IsInt x m) (hy : IsInt y n)
include hx hy

theorem add (h : |m + n| ≤ 2 ^ 53) : IsInt (x + y) (m + n) := by
  have hsum := represents_add hx.isFinite hy.isFinite
  rw [hx.real_eq, hy.real_eq] at hsum
  exact Represents.isInt (by exact_mod_cast hsum) h

theorem sub (h : |m - n| ≤ 2 ^ 53) : IsInt (x - y) (m - n) := by
  have hdifference := represents_sub hx.isFinite hy.isFinite
  rw [hx.real_eq, hy.real_eq] at hdifference
  exact Represents.isInt (by exact_mod_cast hdifference) h

theorem mul (h : |m * n| ≤ 2 ^ 53) : IsInt (x * y) (m * n) := by
  have hproduct := represents_mul hx.isFinite hy.isFinite
  rw [hx.real_eq, hy.real_eq] at hproduct
  exact Represents.isInt (by exact_mod_cast hproduct) h

end IsInt

section

variable {x y : Float} {n : ℤ} (hx : IsInt x n) (hy : y.isFinite = true)
  (hone : 1 ≤ real y) (hle : real y ≤ 2 ^ (27 : ℤ))
include hx hy hone

theorem IsInt.represents_div : Represents (n / real y) (x / y) := by
  have hquotient := Arithmetic.represents_div hx.isFinite hy (zero_lt_one.trans_le hone).ne'
  rwa [hx.real_eq] at hquotient

theorem IsInt.isFinite_div : (x / y).isFinite = true := by
  refine (hx.represents_div hy hone).isFinite ?_
  have hpos := zero_lt_one.trans_le hone
  have hcast : |(n : ℝ)| ≤ 2 ^ (53 : ℤ) := by exact_mod_cast hx.abs_le
  rw [abs_div, abs_of_pos hpos]
  exact (div_le_self (abs_nonneg _) hone).trans
    (hcast.trans (zpow_le_zpow_right₀ one_le_two (by decide)))

include hle in
/-- The quotient is rounded, but not to zero. -/
theorem IsInt.sign_div : SignType.sign (real (x / y)) = SignType.sign n := by
  rw [(hx.represents_div hy hone).real_eq (hx.isFinite_div hy hone)]
  have hpos := zero_lt_one.trans_le hone
  obtain rfl | hne := eq_or_ne n 0
  · simp [rounded_zero]
  · have habs : 2 ^ (-1074 : ℤ) ≤ |n / real y| := by
      have hnat : (1 : ℝ) ≤ |(n : ℝ)| := by exact_mod_cast Int.one_le_abs hne
      calc (2 : ℝ) ^ (-1074 : ℤ) ≤ 2 ^ (-27 : ℤ) := zpow_le_zpow_right₀ one_le_two (by decide)
        _ = 1 / 2 ^ (27 : ℤ) := by rw [zpow_neg, one_div]
        _ ≤ |(n : ℝ)| / real y := div_le_div₀ (abs_nonneg _) hnat hpos hle
        _ = |n / real y| := by rw [abs_div, abs_of_pos hpos]
    rw [sign_rounded habs, div_eq_mul_inv, sign_mul, sign_pos (inv_pos.mpr hpos), mul_one,
      sign_intCast]

end

end Arithmetic

/-! ## Displacements -/

namespace Offset

/-- Both components are whole numbers up to `2 ^ 26`. -/
structure IsGrid (d : Offset) (i j : ℤ) : Prop where
  du : IsInt d.du i
  dv : IsInt d.dv j
  abs_du_le : |i| ≤ 2 ^ 26
  abs_dv_le : |j| ≤ 2 ^ 26

theorem abs_mul_le {i j : ℤ} (hi : |i| ≤ 2 ^ 26) (hj : |j| ≤ 2 ^ 26) : |i * j| ≤ 2 ^ 52 := by
  rw [abs_mul]
  exact mul_le_mul hi hj (abs_nonneg j) (by decide)

namespace IsGrid

variable {d d' : Offset} {i j i' j' : ℤ} (h : IsGrid d i j) (h' : IsGrid d' i' j')
include h h'

theorem dot : IsInt (d.dot d') (i * i' + j * j') := by
  have hu := abs_mul_le h.abs_du_le h'.abs_du_le
  have hv := abs_mul_le h.abs_dv_le h'.abs_dv_le
  exact (h.du.mul h'.du (by omega)).add (h.dv.mul h'.dv (by omega))
    ((abs_add_le _ _).trans (by omega))

end IsGrid

namespace IsGrid

variable {d : Offset} {i j : ℤ} (h : IsGrid d i j)
include h

theorem square_le : i * i + j * j ≤ 2 ^ 53 := by
  have hu := (le_abs_self _).trans (abs_mul_le h.abs_du_le h.abs_du_le)
  have hv := (le_abs_self _).trans (abs_mul_le h.abs_dv_le h.abs_dv_le)
  omega

theorem represents_length : Represents √(i * i + j * j : ℤ) d.length := by
  have hdot := h.dot h
  have hsqrt := represents_sqrt hdot.isFinite
  rw [hdot.real_eq] at hsqrt
  exact hsqrt (by exact_mod_cast add_nonneg (mul_self_nonneg i) (mul_self_nonneg j))

theorem sqrt_le : √(i * i + j * j : ℤ) ≤ 2 ^ (27 : ℤ) := by
  rw [Real.sqrt_le_left (by positivity)]
  have hsquare : ((i * i + j * j : ℤ) : ℝ) ≤ 2 ^ 53 := by exact_mod_cast h.square_le
  exact hsquare.trans (by norm_num)

theorem isFinite_length : d.length.isFinite = true := by
  refine h.represents_length.isFinite ?_
  rw [abs_of_nonneg (Real.sqrt_nonneg _)]
  exact h.sqrt_le.trans (zpow_le_zpow_right₀ one_le_two (by decide))

theorem real_length : real d.length = rounded √(i * i + j * j : ℤ) :=
  h.represents_length.real_eq h.isFinite_length

theorem length_le : real d.length ≤ 2 ^ (27 : ℤ) := by
  rw [h.real_length]
  refine (le_abs_self _).trans (abs_rounded_le (by decide) ?_)
  rw [abs_of_nonneg (Real.sqrt_nonneg _)]
  exact h.sqrt_le

theorem one_le_length (hne : i * i + j * j ≠ 0) : 1 ≤ real d.length := by
  have hpos : 1 ≤ i * i + j * j :=
    (add_nonneg (mul_self_nonneg i) (mul_self_nonneg j)).lt_of_ne' hne
  rw [h.real_length, ← zpow_zero (2 : ℝ)]
  refine le_rounded (by decide) ?_
  rw [zpow_zero, Real.one_le_sqrt]
  exact_mod_cast hpos

theorem length_nonpos_iff : d.length ≤ 0 ↔ i * i + j * j = 0 := by
  rw [le_iff_real_le h.isFinite_length (by decide), real_zero]
  by_cases hzero : i * i + j * j = 0
  · rw [h.real_length, hzero, Int.cast_zero, Real.sqrt_zero, rounded_zero]
    simp
  · simp only [hzero, iff_false, not_le]
    exact zero_lt_one.trans_le (h.one_le_length hzero)

end IsGrid

end Offset

/-! ## Sides -/

theorem Side.ofDistance_zero {d : Float} (h : d.isFinite = true) : Side.ofDistance d 0 =
    if 0 < real d then .left else if real d < 0 then .right else .on := by
  have hneg : real (-0) = 0 := by rw [real_neg, real_zero, neg_zero]
  simp only [Side.ofDistance, gt_iff_lt, lt_iff_real_lt (x := 0) (by decide) h,
    lt_iff_real_lt (y := -0) h (by decide), real_zero, hneg]

namespace Point

/-- The coordinates are the whole numbers `i` and `j`, up to `2 ^ 25`. -/
structure IsGrid (p : Point) (i j : ℤ) : Prop where
  u : IsInt p.u.toFloat i
  v : IsInt p.v.toFloat j
  abs_u_le : |i| ≤ 2 ^ 25
  abs_v_le : |j| ≤ 2 ^ 25

/-- Both coordinates are whole numbers up to `2 ^ 25`. -/
def OnGrid (p : Point) : Prop :=
  ∃ i j, p.IsGrid i j

/-- Where `c` lies along the line from `a` to `b`, without rounding. -/
def exactSide (a b c : Point) : Side :=
  if 0 < exactDoubleArea a b c then .left
  else if exactDoubleArea a b c < 0 then .right
  else .on

/-- The points `p` and `q` lie strictly on opposite sides of the line from `a` to `b`,
without rounding. -/
def ExactSeparates (a b p q : Point) : Prop :=
  exactDoubleArea a b p * exactDoubleArea a b q < 0

/-- The segments cross properly, without rounding. -/
def ExactCrossing (a0 a1 b0 b1 : Point) : Prop :=
  ExactSeparates b0 b1 a0 a1 ∧ ExactSeparates a0 a1 b0 b1

theorem IsGrid.sub {p q : Point} {i j k l : ℤ} (hp : p.IsGrid i j) (hq : q.IsGrid k l) :
    (p - q).IsGrid (i - k) (j - l) := by
  obtain ⟨hpu, hpv, hi, hj⟩ := hp
  obtain ⟨hqu, hqv, hk, hl⟩ := hq
  have hu : |i - k| ≤ 2 ^ 26 := (abs_sub _ _).trans (by omega)
  have hv : |j - l| ≤ 2 ^ 26 := (abs_sub _ _).trans (by omega)
  exact ⟨hpu.sub hqu (by omega), hpv.sub hqv (by omega), hu, hv⟩

theorem IsGrid.onLattice {p : Point} {i j : ℤ} (h : p.IsGrid i j) : p.OnLattice 0 :=
  ⟨h.u.fixedPoint h.abs_u_le, h.v.fixedPoint h.abs_v_le⟩

/-- An integer grid is a lattice of step one. -/
theorem OnGrid.exactArea {a b c : Point} (ha : a.OnGrid) (hb : b.OnGrid) (hc : c.OnGrid) :
    ExactArea a b c := by
  obtain ⟨_, _, ha⟩ := ha
  obtain ⟨_, _, hb⟩ := hb
  obtain ⟨_, _, hc⟩ := hc
  exact ha.onLattice.exactArea (by decide) (by decide) hb.onLattice hc.onLattice

section

variable {a b c : Point} {i j k l m n : ℤ}
  (ha : a.IsGrid i j) (hb : b.IsGrid k l) (hc : c.IsGrid m n)
include ha hb hc

theorem exactDoubleArea_eq :
    exactDoubleArea a b c = ((k - i) * (n - j) - (l - j) * (m - i) : ℤ) := by
  simp only [exactDoubleArea, ha.u.toRat_eq, ha.v.toRat_eq, hb.u.toRat_eq, hb.v.toRat_eq,
    hc.u.toRat_eq, hc.v.toRat_eq]
  push_cast
  rfl

theorem isInt_doubleArea :
    IsInt (doubleArea a b c) ((k - i) * (n - j) - (l - j) * (m - i)) where
  isFinite := (OnGrid.exactArea ⟨i, j, ha⟩ ⟨k, l, hb⟩ ⟨m, n, hc⟩).isFinite
  real_eq := by
    rw [real, (OnGrid.exactArea ⟨i, j, ha⟩ ⟨k, l, hb⟩ ⟨m, n, hc⟩).value,
      exactDoubleArea_eq ha hb hc, Rat.cast_intCast]
  abs_le := by
    have hb := hb.sub ha
    have hc := hc.sub ha
    have hleft := Offset.abs_mul_le hb.abs_du_le hc.abs_dv_le
    have hright := Offset.abs_mul_le hb.abs_dv_le hc.abs_du_le
    exact (abs_sub _ _).trans (by omega)

/-- A distance has the sign of its area, since the quotient is not rounded to zero. Where
the line is a single point, both sides say that all is on it. -/
theorem side_eq_exactSide : side a b c 0 = exactSide a b c := by
  have hline := ha.sub hb
  have harea := isInt_doubleArea ha hb hc
  by_cases hsquare : (i - k) * (i - k) + (j - l) * (j - l) = 0
  · obtain ⟨hik, hjl⟩ := mul_self_add_mul_self_eq_zero.mp hsquare
    have hzero : exactDoubleArea a b c = 0 := by
      rw [exactDoubleArea_eq ha hb hc, ← neg_sub i k, ← neg_sub j l, hik, hjl]
      norm_num
    rw [side_of_le (hline.length_nonpos_iff.mpr hsquare), exactSide, hzero, if_neg (lt_irrefl _),
      if_neg (lt_irrefl _)]
  · have hlength : a.distance b = (a - b).length := rfl
    have hone := hline.one_le_length hsquare
    have hsign := harea.sign_div hline.isFinite_length hone hline.length_le
    have hleft := congrArg (· = 1) hsign
    have hright := congrArg (· = -1) hsign
    simp only [sign_eq_one_iff, sign_eq_neg_one_iff] at hleft hright
    rw [side_of_not_le (fun h => hsquare (hline.length_nonpos_iff.mp h)), hlength,
      Side.ofDistance_zero (harea.isFinite_div hline.isFinite_length hone), exactSide,
      exactDoubleArea_eq ha hb hc]
    simp only [Int.cast_pos, Int.cast_lt_zero, hleft, hright]

/-- Halving takes a bit behind the point, and there is one left. -/
theorem area_of_isGrid :
    (area a b c).isFinite = true ∧
      toRat (area a b c).toModel.unpack = exactDoubleArea a b c / 2 := by
  have harea := isInt_doubleArea ha hb hc
  have hproduct := represents_mul (x := 0.5) (by decide) harea.isFinite
  rw [real_half, harea.real_eq, mul_comm] at hproduct
  have hfinite : (area a b c).isFinite = true := by
    have hcast : |(((k - i) * (n - j) - (l - j) * (m - i) : ℤ) : ℝ)| ≤ 2 ^ (53 : ℤ) := by
      exact_mod_cast harea.abs_le
    refine hproduct.isFinite ?_
    rw [abs_mul_zpow]
    calc _ ≤ (2 : ℝ) ^ (53 : ℤ) * 2 ^ (-1 : ℤ) := mul_le_mul_of_nonneg_right hcast (by positivity)
      _ = 2 ^ (52 : ℤ) := by rw [← zpow_add₀ two_ne_zero]; rfl
      _ ≤ 2 ^ (1023 : ℤ) := zpow_le_zpow_right₀ one_le_two (by decide)
  refine ⟨hfinite, ?_⟩
  have hreal := hproduct.real_eq hfinite
  rw [rounded_eq_self (by decide) harea.abs_le, zpow_neg_one, ← div_eq_mul_inv] at hreal
  rw [exactDoubleArea_eq ha hb hc]
  have hcast : (toRat (area a b c).toModel.unpack : ℝ) =
      ((k - i) * (n - j) - (l - j) * (m - i) : ℤ) / 2 := hreal
  exact_mod_cast hcast

end

theorem exactSide_self {a b : Point} (h : a.numEq b = true) (c : Point) :
    exactSide a b c = .on := by
  obtain ⟨hu, hv⟩ := numEq_iff.mp h
  have hzero : exactDoubleArea a b c = 0 := by
    rw [exactDoubleArea, (Agree.of_beq hu).toRat_eq, (Agree.of_beq hv).toRat_eq]
    ring
  rw [exactSide, hzero, if_neg (lt_irrefl _), if_neg (lt_irrefl _)]

theorem exactSide_opposite_iff (a b p q : Point) :
    (exactSide a b p).opposite (exactSide a b q) = true ↔ ExactSeparates a b p q := by
  unfold exactSide ExactSeparates
  rw [mul_neg_iff]
  rcases lt_trichotomy (exactDoubleArea a b p) 0 with hp | hp | hp <;>
    rcases lt_trichotomy (exactDoubleArea a b q) 0 with hq | hq | hq <;>
    simp [hp, hq, hp.not_gt, hq.not_gt, Side.opposite]

theorem OnGrid.side_eq {a b c : Point} (ha : a.OnGrid) (hb : b.OnGrid) (hc : c.OnGrid) :
    side a b c 0 = exactSide a b c := by
  obtain ⟨i, j, ha⟩ := ha
  obtain ⟨k, l, hb⟩ := hb
  obtain ⟨m, n, hc⟩ := hc
  exact side_eq_exactSide ha hb hc

theorem OnGrid.separates_iff {a b p q : Point} (ha : a.OnGrid) (hb : b.OnGrid) (hp : p.OnGrid)
    (hq : q.OnGrid) : separates a b p q 0 = true ↔ ExactSeparates a b p q := by
  rw [separates, ha.side_eq hb hp, ha.side_eq hb hq, exactSide_opposite_iff]

theorem OnGrid.crossing_iff {a0 a1 b0 b1 : Point} (ha0 : a0.OnGrid) (ha1 : a1.OnGrid)
    (hb0 : b0.OnGrid) (hb1 : b1.OnGrid) :
    crossing a0 a1 b0 b1 0 = true ↔ ExactCrossing a0 a1 b0 b1 := by
  rw [crossing, Bool.and_eq_true, hb0.separates_iff hb1 ha0 ha1, ha0.separates_iff ha1 hb0 hb1,
    ExactCrossing]

end Point

theorem Ring.crosses_iff_exactCrossing {r : Ring} (ht : (r.settings.tolerance == 0) = true)
    (hsegments : ∀ s ∈ r.segments, s.p0.OnGrid ∧ s.p1.OnGrid) {m n : Node} {p q : Point}
    (hp : p.OnGrid) (hq : q.OnGrid) : r.crosses m n p q = true ↔
      ∃ s ∈ r.segments, s.contains m = false ∧ s.contains n = false ∧
        Point.ExactCrossing p q s.p0 s.p1 := by
  rw [crosses_iff]
  refine exists_congr fun s => and_congr_right fun hs => ?_
  obtain ⟨h0, h1⟩ := hsegments s hs
  rw [Tolerance.crossing_congr ht, hp.crossing_iff hq h0 h1]

namespace Point

/-- What planar tests answer on integer grids. -/
structure GridSpec : Prop where
  double_area : ∀ a b c, OnGrid a → OnGrid b → OnGrid c → ExactArea a b c
  area : ∀ a b c, OnGrid a → OnGrid b → OnGrid c → (area a b c).isFinite = true ∧
    toRat (area a b c).toModel.unpack = exactDoubleArea a b c / 2
  side : ∀ a b c, OnGrid a → OnGrid b → OnGrid c → side a b c 0 = exactSide a b c
  /-- A line of length zero has no sides. -/
  side_self : ∀ a b c, OnGrid a → OnGrid b → OnGrid c → a.numEq b = true →
    Point.side a b c 0 = .on
  crossing : ∀ a0 a1 b0 b1, OnGrid a0 → OnGrid a1 → OnGrid b0 → OnGrid b1 →
    (crossing a0 a1 b0 b1 0 = true ↔ ExactCrossing a0 a1 b0 b1)
  /-- In a ring with tolerance zero, whatever the sign of the zero. -/
  crosses : ∀ r : Ring, (r.settings.tolerance == 0) = true →
    (∀ s ∈ r.segments, OnGrid s.p0 ∧ OnGrid s.p1) → ∀ m n p q, OnGrid p → OnGrid q →
      (r.crosses m n p q = true ↔ ∃ s ∈ r.segments, s.contains m = false ∧ s.contains n = false ∧
        ExactCrossing p q s.p0 s.p1)

/-- All of it holds for whole coordinates up to `2 ^ 25`, the largest ones included. -/
theorem grid_spec : GridSpec where
  double_area a b c := OnGrid.exactArea
  area := by
    rintro a b c ⟨i, j, ha⟩ ⟨k, l, hb⟩ ⟨m, n, hc⟩
    exact area_of_isGrid ha hb hc
  side a b c := OnGrid.side_eq
  side_self a b c ha hb hc h := (ha.side_eq hb hc).trans (exactSide_self h c)
  crossing a0 a1 b0 b1 := OnGrid.crossing_iff
  crosses r ht hsegments m n p q := Ring.crosses_iff_exactCrossing ht hsegments

/-- The diagonals of the largest square cross. -/
theorem grid_spec_largest :
    let low : Binary64 := ⟨0xc180000000000000⟩
    let high : Binary64 := ⟨0x4180000000000000⟩
    let r : Ring := .ofRecords { tolerance := 0 } #[⟨⟨1⟩, ⟨2⟩, ⟨low, high⟩, ⟨high, low⟩⟩] #[]
    GridSpec ∧ low = .ofInt (-2 ^ 25) ∧ high = .ofInt (2 ^ 25) ∧
      r.crosses ⟨3⟩ ⟨4⟩ ⟨low, low⟩ ⟨high, high⟩ = true ∧
      ExactCrossing ⟨low, low⟩ ⟨high, high⟩ ⟨low, high⟩ ⟨high, low⟩ := by
  intro low high r
  have hlowValue : low.value = .finite true (2 ^ 52) 1047 := by decide +kernel
  have hhighValue : high.value = .finite false (2 ^ 52) 1047 := by decide +kernel
  have hlow : IsInt low.toFloat (-2 ^ 25) := isInt_of_value hlowValue (by decide) (by
    norm_num [unit, Binary64.Value.sign, Float.Model.UnpackedFloat.Sign.apply])
  have hhigh : IsInt high.toFloat (2 ^ 25) := isInt_of_value hhighValue (by decide) (by
    norm_num [unit, Binary64.Value.sign, Float.Model.UnpackedFloat.Sign.apply])
  have hll : OnGrid ⟨low, low⟩ := ⟨_, _, hlow, hlow, by decide, by decide⟩
  have hlh : OnGrid ⟨low, high⟩ := ⟨_, _, hlow, hhigh, by decide, by decide⟩
  have hhl : OnGrid ⟨high, low⟩ := ⟨_, _, hhigh, hlow, by decide, by decide⟩
  have hhh : OnGrid ⟨high, high⟩ := ⟨_, _, hhigh, hhigh, by decide, by decide⟩
  have hcrossing : ExactCrossing ⟨low, low⟩ ⟨high, high⟩ ⟨low, high⟩ ⟨high, low⟩ :=
    (grid_spec.crossing _ _ _ _ hll hhh hlh hhl).mp (by decide +kernel)
  have hstored : r.segments = #[⟨⟨1⟩, ⟨2⟩, ⟨low, high⟩, ⟨high, low⟩⟩] := rfl
  have hcrosses : r.crosses ⟨3⟩ ⟨4⟩ ⟨low, low⟩ ⟨high, high⟩ = true := by
    refine (grid_spec.crosses r (by decide) ?_ _ _ _ _ hll hhh).mpr ?_
    · simpa [hstored] using ⟨hlh, hhl⟩
    · exact ⟨⟨⟨1⟩, ⟨2⟩, ⟨low, high⟩, ⟨high, low⟩⟩, by simp [hstored], rfl, rfl, hcrossing⟩
  exact ⟨grid_spec, by decide +kernel, by decide +kernel, hcrosses, hcrossing⟩

end Point

end MeshRing
