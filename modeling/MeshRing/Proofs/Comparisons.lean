import MeshRing.Proofs.Tolerances

/-! # The order of numbers -/

namespace MeshRing.Tolerance

open Float.Model UnpackedFloat

/-- Where a number stands among all numbers: first its sign and sort, then the
exponent, then the mantissa, the last two reversed below zero. NaN has no rank, and
both zeros have the same. -/
def rank? : UnpackedFloat → Option (ℤ ×ₗ ℤ ×ₗ ℤ)
  | .notANumber => none
  | .zero _ => some 0
  | .infinity s => some (toLex (s.apply 2, 0))
  | .finite s m e _ => some (toLex (s.apply 1, toLex (s.apply e, s.apply m)))

/-! ## Ranks compare as numbers do -/

theorem compare_natCast (m n : ℕ) : compare (m : ℤ) n = compare m n := by
  rw [← cmp_eq_compare, ← cmp_eq_compare, Nat.strictMono_cast.cmp_map_eq]

theorem compare_neg (m n : ℤ) : compare (-m) (-n) = (compare m n).swap := by
  have hneg : StrictAnti fun n : ℤ => -n := fun _ _ h => neg_lt_neg h
  rw [← cmp_eq_compare, ← cmp_eq_compare, cmp_swap]
  exact hneg.cmp_map_eq m n

theorem compare_finite (s : Sign) {m m' : ℕ} {e e' : ℤ} (h : 0 < m) (h' : 0 < m') :
    (finite s m e h).compare (finite s m' e' h') =
      some ((compare (s.apply e) (s.apply e')).then (compare (s.apply m) (s.apply m'))) := by
  cases s with
  | negative =>
      simp only [Sign.apply, compare_neg, compare_natCast, UnpackedFloat.compare,
        Ordering.swap_then]
  | positive => simp only [Sign.apply, compare_natCast, UnpackedFloat.compare]

/-- Numbers compare as their ranks do, and NaN with nothing. Two finite numbers of one sign
are compared by exponent and mantissa, all others by sign and sort alone. -/
theorem compare_eq (a b : UnpackedFloat) :
    a.compare b = (rank? a).bind fun i => (rank? b).map fun j => compare i j := by
  rcases a with (_ | _) | _ | _ | ⟨_ | _, m, e, h⟩ <;>
    rcases b with (_ | _) | _ | _ | ⟨_ | _, m', e', h'⟩
  case finite.negative.finite.negative => exact compare_finite _ h h'
  case finite.positive.finite.positive => exact compare_finite _ h h'
  all_goals rfl

section

variable {x y z : Float}

theorem le_iff_rank : x ≤ y ↔
    ∃ i j, rank? x.toModel.unpack = some i ∧ rank? y.toModel.unpack = some j ∧ i ≤ j := by
  have hle (i j : ℤ ×ₗ ℤ ×ₗ ℤ) : (compare i j).isLE = true ↔ i ≤ j := by
    rw [Ordering.isLE_iff_ne_gt]
    exact compare_le_iff_le
  rw [le_iff, UnpackedFloat.le, compare_eq]
  cases rank? x.toModel.unpack <;> cases rank? y.toModel.unpack <;> simp [hle]

theorem lt_iff_rank : x < y ↔
    ∃ i j, rank? x.toModel.unpack = some i ∧ rank? y.toModel.unpack = some j ∧ i < j := by
  have hlt (i j : ℤ ×ₗ ℤ ×ₗ ℤ) : compare i j = .lt ↔ i < j := compare_lt_iff_lt
  rw [lt_iff, UnpackedFloat.lt, compare_eq]
  cases rank? x.toModel.unpack <;> cases rank? y.toModel.unpack <;> simp [hlt]

theorem le_trans (h : x ≤ y) (h' : y ≤ z) : x ≤ z := by
  obtain ⟨i, j, hi, hj, hij⟩ := le_iff_rank.mp h
  obtain ⟨j', k, hj', hk, hjk⟩ := le_iff_rank.mp h'
  obtain rfl : j = j' := Option.some.inj (hj.symm.trans hj')
  exact le_iff_rank.mpr ⟨i, k, hi, hk, hij.trans hjk⟩

theorem lt_of_le_of_lt (h : x ≤ y) (h' : y < z) : x < z := by
  obtain ⟨i, j, hi, hj, hij⟩ := le_iff_rank.mp h
  obtain ⟨j', k, hj', hk, hjk⟩ := lt_iff_rank.mp h'
  obtain rfl : j = j' := Option.some.inj (hj.symm.trans hj')
  exact lt_iff_rank.mpr ⟨i, k, hi, hk, hij.trans_lt hjk⟩

theorem lt_of_lt_of_le (h : x < y) (h' : y ≤ z) : x < z := by
  obtain ⟨i, j, hi, hj, hij⟩ := lt_iff_rank.mp h
  obtain ⟨j', k, hj', hk, hjk⟩ := le_iff_rank.mp h'
  obtain rfl : j = j' := Option.some.inj (hj.symm.trans hj')
  exact lt_iff_rank.mpr ⟨i, k, hi, hk, hij.trans_le hjk⟩

theorem not_lt_of_lt (h : x < y) : ¬ y < x := by
  intro h'
  obtain ⟨i, j, hi, hj, hij⟩ := lt_iff_rank.mp h
  obtain ⟨j', i', hj', hi', hji⟩ := lt_iff_rank.mp h'
  obtain rfl : j = j' := Option.some.inj (hj.symm.trans hj')
  obtain rfl : i = i' := Option.some.inj (hi.symm.trans hi')
  exact hij.asymm hji

theorem exists_rank?_of_le (h : x ≤ y) : ∃ j, rank? y.toModel.unpack = some j := by
  obtain ⟨_, j, _, hj, _⟩ := le_iff_rank.mp h
  exact ⟨j, hj⟩

theorem le_refl_of_rank? (h : ∃ i, rank? x.toModel.unpack = some i) : x ≤ x := by
  obtain ⟨i, hi⟩ := h
  exact le_iff_rank.mpr ⟨i, i, hi, hi, le_rfl⟩

theorem le_of_lt (h : x < y) : x ≤ y := by
  obtain ⟨i, j, hi, hj, hij⟩ := lt_iff_rank.mp h
  exact le_iff_rank.mpr ⟨i, j, hi, hj, hij.le⟩

theorem le_of_not_lt (hx : ∃ i, rank? x.toModel.unpack = some i)
    (hy : ∃ j, rank? y.toModel.unpack = some j) (h : ¬ x < y) : y ≤ x := by
  obtain ⟨i, hi⟩ := hx
  obtain ⟨j, hj⟩ := hy
  refine le_iff_rank.mpr ⟨j, i, hj, hi, le_of_not_gt fun hij => ?_⟩
  exact h (lt_iff_rank.mpr ⟨i, j, hi, hj, hij⟩)

theorem isNaN_eq_false (h : ∃ i, rank? x.toModel.unpack = some i) : x.isNaN = false := by
  obtain ⟨i, hi⟩ := h
  show x.toModel.unpack.isNaN = false
  cases hx : x.toModel.unpack with
  | notANumber =>
      rw [hx] at hi
      cases hi
  | _ => rfl

theorem lt_of_not_le (hx : ∃ i, rank? x.toModel.unpack = some i)
    (hy : ∃ j, rank? y.toModel.unpack = some j) (h : ¬ x ≤ y) : y < x := by
  obtain ⟨i, hi⟩ := hx
  obtain ⟨j, hj⟩ := hy
  refine lt_iff_rank.mpr ⟨j, i, hj, hi, lt_of_not_ge fun hij => ?_⟩
  exact h (le_iff_rank.mpr ⟨i, j, hi, hj, hij⟩)

end

theorem exists_rank?_zero : ∃ i, rank? (0 : Float).toModel.unpack = some i :=
  ⟨0, by rw [unpack_zero, rank?]⟩

theorem exists_rank?_of_isFinite {x : Float} (h : x.isFinite = true) :
    ∃ i, rank? x.toModel.unpack = some i := by
  change x.toModel.unpack.isFinite = true at h
  cases hu : x.toModel.unpack with
  | notANumber =>
      rw [hu] at h
      cases h
  | _ => exact ⟨_, rfl⟩

/-! ## Negation -/

theorem apply_neg (s : Sign) (n : ℤ) : (-s).apply n = -s.apply n := by
  cases s with
  | negative => exact (neg_neg n).symm
  | positive => rfl

theorem rank?_neg (a : UnpackedFloat) : rank? a.neg = (rank? a).map fun i => -i := by
  cases a with
  | notANumber => rfl
  | zero s => rfl
  | infinity s =>
      simp only [UnpackedFloat.neg, rank?, apply_neg]
      rfl
  | finite s m e h =>
      simp only [UnpackedFloat.neg, rank?, apply_neg]
      rfl

/-- The bits with the other sign stand for the negated number. -/
theorem unpack_packComponents_neg {spec : Format} (b : BitVec spec.numBits) :
    UnpackedFloat.unpack spec (packComponents spec (-Sign.ofBitVec (unpackSign b))
      (unpackExponent b) (unpackMantissa b)) = (UnpackedFloat.unpack spec b).neg := by
  simp only [UnpackedFloat.unpack, unpackSign_packComponents, unpackExponent_packComponents,
    unpackMantissa_packComponents, Sign.ofBitVec_toBitVec]
  split
  · split <;> rfl
  · split
    · split <;> rfl
    · rfl

/-- Packing may change the bits of a NaN and nothing else. -/
theorem unpack_pack_unpack (b : BitVec Format.binary64.numBits) :
    UnpackedFloat.unpack .binary64
        (UnpackedFloat.pack .binary64 (UnpackedFloat.unpack .binary64 b)) =
      UnpackedFloat.unpack .binary64 b := by
  rw [pack_unpack b]
  split
  · rename_i hnan
    obtain ⟨he, hm⟩ := of_decide_eq_true hnan
    rw [unpack_packedNaN, UnpackedFloat.unpack, if_pos he, if_neg hm]
  · rfl

theorem unpack_neg (x : Float) : (-x).toModel.unpack = x.toModel.unpack.neg := by
  show UnpackedFloat.unpack _ (UnpackedFloat.pack _ x.toModel.unpack.neg) = _
  rw [Float.Model.unpack, ← unpack_packComponents_neg, unpack_pack_unpack]

theorem neg_le_neg {x y : Float} (h : x ≤ y) : -y ≤ -x := by
  obtain ⟨i, j, hi, hj, hij⟩ := le_iff_rank.mp h
  refine le_iff_rank.mpr ⟨-j, -i, ?_, ?_, neg_le_neg_iff.mpr hij⟩
  · rw [unpack_neg, rank?_neg, hj, Option.map_some]
  · rw [unpack_neg, rank?_neg, hi, Option.map_some]

theorem neg_lt_neg {x y : Float} (h : x < y) : -y < -x := by
  obtain ⟨i, j, hi, hj, hij⟩ := lt_iff_rank.mp h
  refine lt_iff_rank.mpr ⟨-j, -i, ?_, ?_, neg_lt_neg_iff.mpr hij⟩
  · rw [unpack_neg, rank?_neg, hj, Option.map_some]
  · rw [unpack_neg, rank?_neg, hi, Option.map_some]

end MeshRing.Tolerance
