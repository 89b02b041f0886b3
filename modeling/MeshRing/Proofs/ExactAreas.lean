import MeshRing.Plane.Point
import MeshRing.Proofs.RoundedOperations

/-! Areas that are computed without loss: where coordinates have up to 25 bits, products and
their differences fit into the 53 bits of a number. -/

namespace MeshRing

open Arithmetic

/-! ## Fixed-point numbers -/

namespace Arithmetic

/-- The float is `y` itself, a multiple of `2 ^ e` that has `b` bits at most. -/
structure FixedPoint (e b : ℤ) (y : ℝ) (x : Float) : Prop where
  isFinite : x.isFinite = true
  real_eq : real x = y
  multiple : MultipleOf e y
  abs_le : |y| ≤ 2 ^ (e + b)

/-- A result that is a fixed-point number is not rounded. -/
theorem Represents.fixedPoint {e b : ℤ} {y : ℝ} {x : Float} (h : Represents y x)
    (hy : MultipleOf e y) (hle : |y| ≤ 2 ^ (e + b)) (he : -1074 ≤ e) (hb : b ≤ 53)
    (hmax : e + b ≤ 1023) : FixedPoint e b y x := by
  have hfinite := h.isFinite (hle.trans (zpow_le_zpow_right₀ one_le_two hmax))
  have hbits : |y| ≤ 2 ^ (e + 53) := hle.trans (zpow_le_zpow_right₀ one_le_two (by omega))
  exact ⟨hfinite, (h.real_eq hfinite).trans (hy.rounded_eq he hbits), hy, hle⟩

namespace FixedPoint

variable {e f b c : ℤ} {y z : ℝ} {x w : Float}

/-- A difference takes one more bit. -/
theorem sub (hx : FixedPoint e b y x) (hw : FixedPoint e b z w) (he : -1074 ≤ e) (hb : b + 1 ≤ 53)
    (hmax : e + (b + 1) ≤ 1023) : FixedPoint e (b + 1) (y - z) (x - w) := by
  have hrepresents := represents_sub hx.isFinite hw.isFinite
  rw [hx.real_eq, hw.real_eq] at hrepresents
  refine hrepresents.fixedPoint (hx.multiple.sub hw.multiple) ?_ he hb hmax
  calc |y - z| ≤ |y| + |z| := abs_sub _ _
    _ ≤ 2 ^ (e + b) + 2 ^ (e + b) := add_le_add hx.abs_le hw.abs_le
    _ = 2 ^ (e + (b + 1)) := by rw [← add_assoc, zpow_add_one₀ two_ne_zero, mul_two]

/-- A product takes the bits of both its factors. -/
theorem mul (hx : FixedPoint e b y x) (hw : FixedPoint f c z w) (he : -1074 ≤ e + f)
    (hb : b + c ≤ 53) (hmax : e + f + (b + c) ≤ 1023) :
    FixedPoint (e + f) (b + c) (y * z) (x * w) := by
  have hrepresents := represents_mul hx.isFinite hw.isFinite
  rw [hx.real_eq, hw.real_eq] at hrepresents
  refine hrepresents.fixedPoint (hx.multiple.mul hw.multiple) ?_ he hb hmax
  calc |y * z| = |y| * |z| := abs_mul _ _
    _ ≤ 2 ^ (e + b) * 2 ^ (f + c) := mul_le_mul hx.abs_le hw.abs_le (abs_nonneg z) (by positivity)
    _ = 2 ^ (e + f + (b + c)) := by rw [← zpow_add₀ two_ne_zero, add_add_add_comm]

end FixedPoint

end Arithmetic

/-! ## Areas -/

namespace Point

/-- Twice the area of the triangle `a b c`, without rounding. -/
def exactDoubleArea (a b c : Point) : ℚ :=
  (toRat b.u.toFloat.toModel.unpack - toRat a.u.toFloat.toModel.unpack) *
      (toRat c.v.toFloat.toModel.unpack - toRat a.v.toFloat.toModel.unpack) -
    (toRat b.v.toFloat.toModel.unpack - toRat a.v.toFloat.toModel.unpack) *
      (toRat c.u.toFloat.toModel.unpack - toRat a.u.toFloat.toModel.unpack)

theorem exactDoubleArea_swap (a b c : Point) : exactDoubleArea b a c = -exactDoubleArea a b c := by
  unfold exactDoubleArea
  ring

/-- The area of the triangle `a b c` is computed without loss. -/
structure ExactArea (a b c : Point) : Prop where
  isFinite : (doubleArea a b c).isFinite = true
  value : toRat (doubleArea a b c).toModel.unpack = exactDoubleArea a b c

/-- Both coordinates are finite multiples of `2 ^ e`, of `2 ^ (e + 25)` at most. -/
structure OnLattice (e : ℤ) (p : Point) : Prop where
  u : FixedPoint e 25 (real p.u.toFloat) p.u.toFloat
  v : FixedPoint e 25 (real p.v.toFloat) p.v.toFloat

/-- The triangles of a lattice have exact areas, unless it is so fine or so wide that their areas
leave the range of the numbers. -/
theorem OnLattice.exactArea {e : ℤ} (hlow : -537 ≤ e) (hhigh : e ≤ 485) {a b c : Point}
    (ha : OnLattice e a) (hb : OnLattice e b) (hc : OnLattice e c) : ExactArea a b c := by
  have hsub {y z : ℝ} {x w : Float} (hx : FixedPoint e 25 y x) (hw : FixedPoint e 25 z w) :
      FixedPoint e 26 (y - z) (x - w) := hx.sub hw (by omega) (by decide) (by omega)
  have hmul {y z : ℝ} {x w : Float} (hx : FixedPoint e 26 y x) (hw : FixedPoint e 26 z w) :
      FixedPoint (e + e) 52 (y * z) (x * w) := hx.mul hw (by omega) (by decide) (by omega)
  have hleft := hmul (hsub hb.u ha.u) (hsub hc.v ha.v)
  have hright := hmul (hsub hb.v ha.v) (hsub hc.u ha.u)
  have harea := hleft.sub hright (by omega) (by decide) (by omega)
  refine ⟨harea.isFinite, ?_⟩
  have hreal : real (doubleArea a b c) = (exactDoubleArea a b c : ℚ) := by
    refine harea.real_eq.trans ?_
    simp only [exactDoubleArea, real]
    push_cast
    rfl
  rw [real] at hreal
  exact_mod_cast hreal

end Point

end MeshRing
