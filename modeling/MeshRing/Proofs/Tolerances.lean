import Mathlib
import MeshRing.Plane.Metrics
import MeshRing.Plane.Side

/-! Only comparisons read a tolerance, and the sign of a zero does not show in them. -/

namespace MeshRing

open Float.Model

namespace Tolerance

theorem le_iff {x y : Float} : x ≤ y ↔ x.toModel.unpack.le y.toModel.unpack = true :=
  decide_eq_true_iff

theorem lt_iff {x y : Float} : x < y ↔ x.toModel.unpack.lt y.toModel.unpack = true :=
  decide_eq_true_iff

theorem unpack_zero : (0 : Float).toModel.unpack = .zero .positive := by rfl

theorem unpack_neg_zero : (-0 : Float).toModel.unpack = .zero .negative := by rfl

/-! ## Comparison with a zero -/

theorem compare_zero (a : UnpackedFloat) (s : UnpackedFloat.Sign) :
    a.compare (.zero s) = a.compare (.zero .positive) := by
  cases a with
  | notANumber => rfl
  | infinity sign => cases sign <;> rfl
  | zero sign => rfl
  | finite sign mantissa exponent h => cases sign <;> rfl

theorem zero_compare (a : UnpackedFloat) (s : UnpackedFloat.Sign) :
    UnpackedFloat.compare (.zero s) a = UnpackedFloat.compare (.zero .positive) a := by
  cases a with
  | notANumber => rfl
  | infinity sign => cases sign <;> rfl
  | zero sign => rfl
  | finite sign mantissa exponent h => cases sign <;> rfl

section

variable {x y : Float} (h : (x == y) = true)
include h

/-- Numbers that compare as equal are the same, or zeros of both signs. -/
theorem eq_or_zeros : x = y ∨ (x = 0 ∧ y = -0) ∨ (x = -0 ∧ y = 0) :=
  (Float.beq_iff_ne_nan_and_eq.mp h).2.2

theorem compare_right (a : UnpackedFloat) :
    a.compare x.toModel.unpack = a.compare y.toModel.unpack := by
  obtain rfl | ⟨rfl, rfl⟩ | ⟨rfl, rfl⟩ := eq_or_zeros h
  · rfl
  · rw [unpack_zero, unpack_neg_zero, compare_zero a .negative]
  · rw [unpack_zero, unpack_neg_zero, compare_zero a .negative]

theorem compare_left (a : UnpackedFloat) :
    x.toModel.unpack.compare a = y.toModel.unpack.compare a := by
  obtain rfl | ⟨rfl, rfl⟩ | ⟨rfl, rfl⟩ := eq_or_zeros h
  · rfl
  · rw [unpack_zero, unpack_neg_zero, zero_compare a .negative]
  · rw [unpack_zero, unpack_neg_zero, zero_compare a .negative]

theorem le_congr (d : Float) : d ≤ x ↔ d ≤ y := by
  rw [le_iff, le_iff, UnpackedFloat.le, UnpackedFloat.le, compare_right h]

theorem lt_congr (d : Float) : x < d ↔ y < d := by
  rw [lt_iff, lt_iff, UnpackedFloat.lt, UnpackedFloat.lt, compare_left h]

theorem lt_congr_right (d : Float) : d < x ↔ d < y := by
  rw [lt_iff, lt_iff, UnpackedFloat.lt, UnpackedFloat.lt, compare_right h]

theorem lt_neg_congr (d : Float) : d < -x ↔ d < -y := by
  obtain rfl | ⟨rfl, rfl⟩ | ⟨rfl, rfl⟩ := eq_or_zeros h
  · rfl
  · exact lt_congr_right (by decide) d
  · exact lt_congr_right (by decide) d

/-! ## Planar tests and measures -/

theorem side_congr (a b c : Point) : Point.side a b c x = Point.side a b c y := by
  simp only [Point.side, Side.ofDistance, gt_iff_lt, le_congr h, lt_congr h, lt_neg_congr h]

theorem crossing_congr (a0 a1 b0 b1 : Point) :
    Point.crossing a0 a1 b0 b1 x = Point.crossing a0 a1 b0 b1 y := by
  simp only [Point.crossing, Point.separates, side_congr h]

theorem edgeLength_congr (p q : Point) : edgeLength p q x = edgeLength p q y := by
  simp only [edgeLength, le_congr h]

theorem cornerAngle_congr (before p after : Point) :
    cornerAngle before p after x = cornerAngle before p after y := by
  simp only [cornerAngle, angleBetween, le_congr h]

theorem metrics_congr (t : Corners) : t.metrics x = t.metrics y := by
  simp only [Corners.metrics, Corners.edgeLengths, Corners.angles, edgeLength_congr h,
    cornerAngle_congr h]

theorem validMetrics_congr (t : Corners) : t.validMetrics x = t.validMetrics y := by
  simp only [Corners.validMetrics, metrics_congr h, le_congr h]

end

end Tolerance

end MeshRing
