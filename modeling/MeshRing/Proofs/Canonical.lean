import MeshRing.Proofs.Arithmetic

/-! The form of a number is unique, so finite numbers compare as their exact values do. -/

namespace MeshRing.Arithmetic

open Float.Model UnpackedFloat Tolerance

/-! ## Canonical forms -/

/-- The mantissa has all of its 53 bits, or the exponent is the least one. -/
structure Canonical (m : ℕ) (e : ℤ) : Prop where
  mantissa_lt : m < 2 ^ 53
  le_exponent : -1074 ≤ e
  full : e ≠ -1074 → 2 ^ 52 ≤ m

/-- The exponent of the canonical form. -/
def target (m : ℕ) (e : ℤ) : ℤ :=
  max (Nat.log 2 m + e - 52) (-1074)

theorem targetExponent_eq (m : ℕ) (e : ℤ) :
    Format.binary64.targetExponent (totalExponent m e) = target m e := by
  have hbits : (Format.binary64.mantissaBits : ℤ) = 53 := rfl
  have hmin : Format.binary64.minExponent = -1074 := rfl
  rw [Format.targetExponent, hbits, hmin, totalExponent, target, Nat.log2_eq_log_two]
  congr 1
  omega

/-- The place of the highest bit alone decides. -/
theorem target_congr {m m' : ℕ} {e e' : ℤ}
    (h : (Nat.log 2 m + e : ℤ) = Nat.log 2 m' + e') : target m e = target m' e' := by
  rw [target, target, h]

/-- Numbers are kept in canonical form. -/
theorem canonical_of_unpack {x : Float} {s : Sign} {m : ℕ} {e : ℤ} {h : 0 < m}
    (hx : x.toModel.unpack = .finite s m e h) : Canonical m e ∧ e ≤ 971 := by
  have hbits : (Binary64.ofFloat x).toFloat = x := x.ofBits_toBits
  rw [← hbits, Binary64.unpack_toFloat] at hx
  cases hvalue : (Binary64.ofFloat x).value with
  | nan => simp [hvalue, Binary64.Value.unpacked] at hx
  | infinite negative => simp [hvalue, Binary64.Value.unpacked] at hx
  | finite negative significand shift =>
      obtain ⟨hlt, hshift, hfull⟩ := Binary64.bounds_of_value hvalue
      simp only [hvalue, Binary64.Value.unpacked] at hx
      split at hx
      · cases hx
      · obtain ⟨-, rfl, rfl⟩ := UnpackedFloat.finite.inj hx
        exact ⟨⟨hlt, by omega, fun he => hfull (by omega)⟩, by omega⟩

theorem unpack_normal {m : ℕ} (hlow : 2 ^ 52 ≤ m) (hlt : m < 2 ^ 53) {n : ℕ} (hn : n ≠ 0)
    (hn' : n < 2047) (s : Sign) : UnpackedFloat.unpack .binary64
      (packComponents .binary64 s (BitVec.ofNat 11 n) (BitVec.ofNat 52 m)) =
    .finite s m (n - 1075) (by omega) := by
  have htoNat : (BitVec.ofNat 11 n).toNat = n := by
    rw [BitVec.toNat_ofNat]
    omega
  have hones : BitVec.ofNat 11 n ≠ -1#11 := fun h => hn'.ne (htoNat.symm.trans (by rw [h]; rfl))
  have hzeros : BitVec.ofNat 11 n ≠ 0#11 := fun h => hn (htoNat.symm.trans (by rw [h]; rfl))
  have hmantissa : (1#1 ++ BitVec.ofNat 52 m).toNat = m := by
    rw [Binary64.toNat_implicit_append, BitVec.toNat_ofNat, Nat.pow_eq]
    omega
  simp only [UnpackedFloat.unpack, unpackExponent_packComponents, unpackMantissa_packComponents,
    unpackSign_packComponents, Sign.ofBitVec_toBitVec, hones, hzeros, ite_false, hmantissa, htoNat]
  rfl

theorem unpack_subnormal {m : ℕ} (hm : 0 < m) (hlt : m < 2 ^ 52) (s : Sign) :
    UnpackedFloat.unpack .binary64 (packComponents .binary64 s 0#11 (BitVec.ofNat 52 m)) =
      .finite s m (-1074) hm := by
  have htoNat : (BitVec.ofNat 52 m).toNat = m := by
    rw [BitVec.toNat_ofNat]
    omega
  have hzeros : BitVec.ofNat 52 m ≠ 0#52 := fun h => hm.ne' (htoNat.symm.trans (by rw [h]; rfl))
  have hones : 0#11 ≠ -1#11 := by decide
  simp only [UnpackedFloat.unpack, unpackExponent_packComponents, unpackMantissa_packComponents,
    unpackSign_packComponents, Sign.ofBitVec_toBitVec, hones, hzeros, ite_false, ite_true,
    dite_false, htoNat]
  rfl

/-- Of a number in canonical form, packing changes nothing but an exponent that is too large. -/
theorem repack_finite {m : ℕ} {e : ℤ} (h : Canonical m e) (s : Sign) (hm : 0 < m) :
    repack (.finite s m e hm) = if e ≤ 971 then .finite s m e hm else .infinity s := by
  obtain ⟨hlt, hlow, hfull⟩ := h
  obtain ⟨n, rfl⟩ : ∃ n : ℕ, e = n - 1075 := ⟨(e + 1075).toNat, by omega⟩
  have hbiased : ((n : ℤ) - 1075 + (Format.binary64.exponentBias : ℤ) + (52 : ℕ)).toNat = n := by
    have hbias : (Format.binary64.exponentBias : ℤ) = 1023 := rfl
    omega
  have hroom : 2 ^ Format.binary64.exponentBits ≤ n + 1 ↔ ¬ n < 2047 :=
    (by omega : 2 ^ 11 ≤ n + 1 ↔ ¬ n < 2047)
  have hfits : (n : ℤ) - 1075 ≤ 971 ↔ n < 2047 := by omega
  rw [repack, UnpackedFloat.pack]
  simp only [hbiased, hroom, hfits]
  by_cases hn : n < 2047
  · rw [if_pos hn, if_neg (not_not.mpr hn)]
    by_cases hbits : 2 ^ 52 ≤ m
    · have hlog : m.log2 + 1 = Format.binary64.mantissaBits := by
        rw [Nat.log2_eq_log_two, Nat.log_eq_of_pow_le_of_lt_pow hbits hlt]
        rfl
      rw [if_pos hlog]
      exact unpack_normal hbits hlt (by omega) hn s
    · have hlog : m.log2 + 1 ≠ Format.binary64.mantissaBits := by
        have hlt' : m.log2 < 52 := (Nat.log2_lt hm.ne').mpr (by omega)
        exact (by omega : m.log2 + 1 ≠ 53)
      obtain rfl : n = 1 := by omega
      rw [if_neg hlog]
      exact unpack_subnormal hm (by omega) s
  · rw [if_neg hn, if_pos hn]
    exact repack_infinity s

/-! ## Exact values -/

/-- The number that a finite form stands for. -/
def toRat : UnpackedFloat → ℚ
  | .finite s m e _ => s.apply m * 2 ^ e
  | _ => 0

theorem toRat_zero (s : Sign) : toRat (.zero s) = 0 := rfl

theorem toRat_neg (a : UnpackedFloat) : toRat a.neg = -toRat a := by
  cases a with
  | finite s m e h => simp only [UnpackedFloat.neg, toRat, apply_neg, Int.cast_neg, neg_mul]
  | _ => exact neg_zero.symm

/-- Of two canonical forms of a number, none has the larger exponent: its mantissa of 53
bits would be longer in the other form. -/
theorem Canonical.exponent_le {m m' : ℕ} {e e' : ℤ} (h : Canonical m e) (h' : Canonical m' e')
    (heq : (m : ℚ) * 2 ^ e = m' * 2 ^ e') : e' ≤ e := by
  by_contra hlt
  obtain ⟨d, hd⟩ : ∃ d : ℕ, e' = e + d := ⟨(e' - e).toNat, by omega⟩
  have hshift : (m : ℚ) = m' * 2 ^ d := by
    have htwo : (2 : ℚ) ^ e ≠ 0 := zpow_ne_zero e two_ne_zero
    rw [hd, zpow_add₀ two_ne_zero, zpow_natCast, mul_left_comm, ← mul_comm ((2 : ℚ) ^ e)] at heq
    exact mul_left_cancel₀ htwo heq
  have hnat : m = m' * 2 ^ d := by exact_mod_cast hshift
  have hfull := h'.full (by have := h.le_exponent; omega)
  have hlong : 2 ^ 52 * 2 ≤ m' * 2 ^ d := Nat.mul_le_mul hfull (Nat.le_self_pow (by omega) 2)
  have hshort := h.mantissa_lt
  omega

/-- A positive value has one canonical form. -/
theorem Canonical.eq_of_toRat {m m' : ℕ} {e e' : ℤ} (h : Canonical m e) (h' : Canonical m' e')
    (heq : (m : ℚ) * 2 ^ e = m' * 2 ^ e') : m = m' ∧ e = e' := by
  obtain rfl : e = e' := le_antisymm (h'.exponent_le h heq.symm) (h.exponent_le h' heq)
  have htwo : (2 : ℚ) ^ e ≠ 0 := zpow_ne_zero e two_ne_zero
  exact ⟨Nat.cast_injective (mul_right_cancel₀ htwo heq), rfl⟩

theorem toRat_finite_pos {m : ℕ} (e : ℤ) (h : 0 < m) : 0 < (m : ℚ) * 2 ^ e :=
  mul_pos (Nat.cast_pos.mpr h) (zpow_pos two_pos e)

theorem abs_toRat_finite (s : Sign) {m : ℕ} (e : ℤ) (h : 0 < m) :
    |toRat (.finite s m e h)| = m * 2 ^ e := by
  cases s with
  | negative =>
      simp only [toRat, Sign.apply, Int.cast_neg, Int.cast_natCast, neg_mul, abs_neg]
      exact abs_of_pos (toRat_finite_pos e h)
  | positive => exact abs_of_pos (toRat_finite_pos e h)

theorem toRat_finite_ne_zero (s : Sign) {m : ℕ} (e : ℤ) (h : 0 < m) :
    toRat (.finite s m e h) ≠ 0 := by
  rw [← abs_pos, abs_toRat_finite]
  exact toRat_finite_pos e h

/-- Finite numbers with the same value are the same, up to the sign of a zero. -/
theorem agree_of_toRat {x y : Float} (hx : x.isFinite = true) (hy : y.isFinite = true)
    (h : toRat x.toModel.unpack = toRat y.toModel.unpack) : Agree x y := by
  change x.toModel.unpack.isFinite = true at hx
  change y.toModel.unpack.isFinite = true at hy
  unfold Agree
  rcases hx' : x.toModel.unpack with _ | _ | s | ⟨s, m, e, hm⟩ <;>
    rcases hy' : y.toModel.unpack with _ | _ | s' | ⟨s', m', e', hm'⟩ <;>
    rw [hx'] at h hx <;> rw [hy'] at h hy
  case finite.finite =>
      have habs := congrArg (fun q => |q|) h
      simp only [abs_toRat_finite] at habs
      obtain ⟨rfl, rfl⟩ := (canonical_of_unpack hx').1.eq_of_toRat (canonical_of_unpack hy').1 habs
      have hpos := toRat_finite_pos e hm
      cases s <;> cases s'
      case negative.positive =>
          simp only [toRat, Sign.apply, Int.cast_neg, Int.cast_natCast, neg_mul] at h
          linarith
      case positive.negative =>
          simp only [toRat, Sign.apply, Int.cast_neg, Int.cast_natCast, neg_mul] at h
          linarith
      all_goals rfl
  case finite.zero => exact absurd h (toRat_finite_ne_zero s e hm)
  case zero.finite => exact absurd h.symm (toRat_finite_ne_zero s' e' hm')
  case zero.zero => rfl
  all_goals first | (cases hx; done) | cases hy

theorem Agree.toRat_eq {x y : Float} (h : Agree x y) :
    toRat x.toModel.unpack = toRat y.toModel.unpack := by
  have hplain (a : UnpackedFloat) : toRat (plain a) = toRat a := by cases a <;> rfl
  rw [← hplain, h, hplain]

/-! ## Order -/

/-- The form is that of a finite number of the format, which may be too large to be packed. -/
def IsNumber : UnpackedFloat → Prop
  | .zero _ => True
  | .finite _ m e _ => Canonical m e
  | .infinity _ | .notANumber => False

/-- A larger exponent makes up for a smaller mantissa. -/
theorem Canonical.mul_zpow_le {m m' : ℕ} {e e' : ℤ} (h : Canonical m e) (h' : Canonical m' e')
    (hle : e' < e ∨ (e' = e ∧ m' ≤ m)) : (m' : ℚ) * 2 ^ e' ≤ m * 2 ^ e := by
  obtain hlt | ⟨rfl, hle⟩ := hle
  · have hfull : (2 ^ 52 : ℚ) ≤ m := by exact_mod_cast h.full (by have := h'.le_exponent; omega)
    have hshort : (m' : ℚ) ≤ 2 ^ 52 * 2 := by exact_mod_cast h'.mantissa_lt.le
    calc (m' : ℚ) * 2 ^ e'
        ≤ 2 ^ 52 * 2 * 2 ^ e' := mul_le_mul_of_nonneg_right hshort (by positivity)
      _ = 2 ^ 52 * 2 ^ (e' + 1) := by rw [zpow_add_one₀ two_ne_zero]; ring
      _ ≤ m * 2 ^ e := mul_le_mul hfull (zpow_le_zpow_right₀ one_le_two (by omega)) (by positivity)
          (by positivity)
  · exact mul_le_mul_of_nonneg_right (by exact_mod_cast hle) (by positivity)

theorem isLE_compare_iff {m m' : ℕ} {e e' : ℤ} :
    ((compare e e').then (compare m m')).isLE = true ↔ e < e' ∨ (e = e' ∧ m ≤ m') := by
  rcases lt_trichotomy e e' with h | rfl | h
  · simp [compare_lt_iff_lt.mpr h, h]
  · simp [Ordering.isLE_iff_ne_gt, compare_le_iff_le]
  · simp [compare_gt_iff_gt.mpr h, h.not_gt, h.ne']

theorem toRat_le_of_le {a b : UnpackedFloat} (ha : IsNumber a) (hb : IsNumber b)
    (h : a.le b = true) : toRat a ≤ toRat b := by
  have hnonneg {m : ℕ} {e : ℤ} (hm : 0 < m) : 0 ≤ toRat (.finite .positive m e hm) :=
    (toRat_finite_pos e hm).le
  have hneg {m : ℕ} {e : ℤ} (hm : 0 < m) :
      toRat (.finite .negative m e hm) = -toRat (.finite .positive m e hm) :=
    toRat_neg (.finite .positive m e hm)
  rcases a with _ | _ | s | ⟨_ | _, m, e, hm⟩ <;> rcases b with _ | _ | s' | ⟨_ | _, m', e', hm'⟩
  case finite.positive.finite.positive =>
      exact hb.mul_zpow_le ha (isLE_compare_iff.mp h)
  case finite.negative.finite.negative =>
      rw [hneg, hneg, neg_le_neg_iff]
      have hswap : ((compare e e').then (compare m m')).swap =
          (compare e' e).then (compare m' m) := by
        rw [Ordering.swap_then, ← Std.OrientedCmp.eq_swap, ← Std.OrientedCmp.eq_swap]
      refine ha.mul_zpow_le hb (isLE_compare_iff.mp ?_)
      rw [← hswap]
      exact h
  case finite.negative.finite.positive =>
      rw [hneg]
      exact (neg_nonpos.mpr (hnonneg hm)).trans (hnonneg hm')
  case finite.negative.zero =>
      rw [hneg, toRat_zero, neg_nonpos]
      exact hnonneg hm
  case zero.finite.positive => exact hnonneg hm'
  case zero.zero => exact le_rfl
  all_goals first | (cases ha; done) | (cases hb; done) | cases h

end MeshRing.Arithmetic
