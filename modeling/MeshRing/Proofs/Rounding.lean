import MeshRing.Proofs.Canonical

/-! Arithmetic keeps, of what it cuts off a mantissa, whether it is less or more than a
half. So a result depends on nothing but its exact value. -/

namespace MeshRing.Arithmetic

open Float.Model UnpackedFloat Tolerance

/-! ## What is cut off a mantissa -/

theorem mantissa_shiftRight (x : ExtendedMantissa) (n : ℕ) :
    (x >>> n).mantissa = x.mantissa / 2 ^ n := by
  show (n.repeat ExtendedMantissa.shiftRightOne x).mantissa = _
  induction n with
  | zero => simp [Nat.repeat]
  | succ n ih =>
      rw [Nat.repeat, ExtendedMantissa.shiftRightOne, ih, Nat.div_div_eq_div_mul, pow_succ]

theorem mantissa_ofMantissaAndAccuracy (m : ℕ) (accuracy : Accuracy) :
    (ExtendedMantissa.ofMantissaAndAccuracy m accuracy).mantissa = m := by
  rcases accuracy with _ | _ | _ | _ <;> rfl

/-- The halves in a mantissa and its round bit. -/
def halves (a : ExtendedMantissa) : ℕ :=
  2 * a.mantissa + a.roundBit.toNat

/-- The mantissa is what is left of `x`, and its two bits tell what has been cut off. -/
structure CutFrom (x : ℝ) (a : ExtendedMantissa) : Prop where
  le : (halves a : ℝ) ≤ 2 * x
  lt : 2 * x < halves a + 1
  sticky : a.stickyBit = true ↔ (halves a : ℝ) ≠ 2 * x

theorem halves_shiftRightOne (a : ExtendedMantissa) : halves a.shiftRightOne = a.mantissa := by
  have hmod : (a.mantissa % 2 != 0).toNat = a.mantissa % 2 := by
    rcases Nat.mod_two_eq_zero_or_one a.mantissa with h | h <;> rw [h] <;> rfl
  rw [halves, ExtendedMantissa.shiftRightOne, hmod, Nat.div_add_mod]

namespace CutFrom

variable {x : ℝ} {a : ExtendedMantissa} (h : CutFrom x a)
include h

theorem mantissa_le : (a.mantissa : ℝ) ≤ x := by
  have hhalves : (2 * a.mantissa : ℝ) ≤ halves a := by
    exact_mod_cast Nat.le_add_right (2 * a.mantissa) a.roundBit.toNat
  linarith [h.le]

theorem lt_mantissa_succ : x < a.mantissa + 1 := by
  have hhalves : (halves a : ℝ) ≤ 2 * a.mantissa + 1 := by
    exact_mod_cast Nat.add_le_add_left (Bool.toNat_le _) (2 * a.mantissa)
  linarith [h.lt]

theorem floor_eq : ⌊x⌋₊ = a.mantissa :=
  (Nat.floor_eq_iff (a.mantissa.cast_nonneg.trans h.mantissa_le)).mpr
    ⟨h.mantissa_le, h.lt_mantissa_succ⟩

/-- A cut by one more bit. A half that was cut off before makes the number differ from its
mantissa, so the sticky bit collects both. -/
theorem shiftRightOne : CutFrom (x / 2) a.shiftRightOne := by
  have htwo : 2 * (x / 2) = x := by ring
  refine ⟨?_, ?_, ?_⟩ <;> rw [halves_shiftRightOne, htwo]
  · exact h.mantissa_le
  · exact h.lt_mantissa_succ
  · have hle := h.le
    rw [ExtendedMantissa.shiftRightOne, Bool.or_eq_true, h.sticky]
    rw [halves] at hle ⊢
    cases hround : a.roundBit with
    | false => simp
    | true =>
        rw [hround, Bool.toNat_true] at hle
        push_cast at hle
        have hne : (a.mantissa : ℝ) ≠ x := by linarith
        simp [hne]

theorem shiftRight (n : ℕ) : CutFrom (x / 2 ^ n) (a >>> n) := by
  show CutFrom _ (n.repeat ExtendedMantissa.shiftRightOne a)
  induction n with
  | zero => simpa [Nat.repeat] using h
  | succ n ih => simpa only [Nat.repeat, pow_succ, div_mul_eq_div_div] using ih.shiftRightOne

end CutFrom

theorem cutFrom_exact (m : ℕ) : CutFrom m (ExtendedMantissa.ofMantissaAndAccuracy m .exact) := by
  constructor <;> simp [ExtendedMantissa.ofMantissaAndAccuracy, halves]

theorem cutFrom_inexact {x : ℝ} {m : ℕ} {o : Ordering} (h : m < x) (h' : x < m + 1)
    (ho : compare (2 * x) (2 * m + 1) = o) :
    CutFrom x (ExtendedMantissa.ofMantissaAndAccuracy m (.inexact o)) := by
  cases o with
  | lt =>
      rw [compare_lt_iff_lt] at ho
      constructor <;> simp [ExtendedMantissa.ofMantissaAndAccuracy, halves, h.le, ho, h.ne]
  | eq =>
      rw [compare_eq_iff_eq] at ho
      constructor <;> simp [ExtendedMantissa.ofMantissaAndAccuracy, halves, ho]
  | gt =>
      rw [compare_gt_iff_gt] at ho
      constructor <;> simp [ExtendedMantissa.ofMantissaAndAccuracy, halves, ho.le, ho.ne]
      linarith

/-! ## The nearest whole number -/

/-- The whole number next to a number that is not negative; of two equally near
ones the even one. -/
noncomputable def nearest (x : ℝ) : ℕ :=
  if 2 * x < 2 * ⌊x⌋₊ + 1 then ⌊x⌋₊
  else if 2 * x = 2 * ⌊x⌋₊ + 1 then ⌊x⌋₊ + ⌊x⌋₊ % 2
  else ⌊x⌋₊ + 1

/-- The two bits are enough to round to the nearest whole number. -/
theorem CutFrom.roundedMantissa_eq {x : ℝ} {a : ExtendedMantissa} (h : CutFrom x a) :
    a.roundedMantissa = nearest x := by
  rw [nearest, h.floor_eq]
  obtain ⟨hle, hlt, hsticky⟩ := h
  obtain ⟨m, _ | _, sticky⟩ := a
  · simp only [halves, Bool.toNat_false, Nat.add_zero] at hlt
    push_cast at hlt
    rw [if_pos hlt]
    cases sticky <;> rfl
  · simp only [halves, Bool.toNat_true] at hle hsticky
    push_cast at hle hsticky
    rw [if_neg (not_lt.mpr hle)]
    cases sticky with
    | false =>
        have heq : 2 * x = 2 * m + 1 := by simpa [eq_comm] using hsticky
        rw [if_pos heq]
        rfl
    | true =>
        have hne : 2 * x ≠ 2 * m + 1 := by simpa [eq_comm] using hsticky
        rw [if_neg hne]
        rfl

theorem nearest_natCast (n : ℕ) : nearest n = n := by
  simp [nearest]

theorem le_nearest {n : ℕ} {x : ℝ} (h : n ≤ x) : n ≤ nearest x := by
  have hfloor : n ≤ ⌊x⌋₊ := Nat.le_floor h
  unfold nearest
  split_ifs <;> omega

theorem nearest_le {n : ℕ} {x : ℝ} (h : x ≤ n) : nearest x ≤ n := by
  obtain rfl | hlt := eq_or_lt_of_le (Nat.floor_le_of_le h)
  · have hfloor : 2 * x < 2 * ⌊x⌋₊ + 1 := by linarith
    rw [nearest, if_pos hfloor]
  · unfold nearest
    split_ifs <;> omega

/-! ## Numbers of the format -/

/-- The exponent of the grid on which numbers like `y` lie. -/
noncomputable def gridExponent (y : ℝ) : ℤ :=
  max (Int.log 2 |y| - 52) (-1074)

/-- The number of the format next to `y`, without a bound on its size. -/
noncomputable def rounded (y : ℝ) : ℝ :=
  SignType.sign y * (nearest (|y| / 2 ^ gridExponent y) * 2 ^ gridExponent y)

/-- A number is cut off at the grid on which it lies. -/
theorem gridExponent_of_cutFrom {x : ℝ} {m : ℕ} {e : ℤ} (hx : 0 < x) (hm : (m : ℝ) ≤ x)
    (hm' : x < m + 1) (he : e ≤ target m e) : gridExponent (x * 2 ^ e) = target m e := by
  have hpos : 0 < x * 2 ^ e := mul_pos hx (zpow_pos two_pos e)
  have hlt : Int.log 2 (x * 2 ^ e) < Nat.log 2 m + 1 + e := by
    have hlog : m + 1 ≤ 2 ^ (Nat.log 2 m + 1) := Nat.lt_pow_succ_log_self Nat.one_lt_two m
    refine (Int.lt_zpow_iff_log_lt Nat.one_lt_two hpos).mp ?_
    push_cast
    rw [zpow_add₀ two_ne_zero]
    refine mul_lt_mul_of_pos_right (hm'.trans_le ?_) (zpow_pos two_pos e)
    exact_mod_cast hlog
  rw [gridExponent, abs_of_pos hpos]
  unfold target at he ⊢
  obtain rfl | hm0 := Nat.eq_zero_or_pos m
  · rw [Nat.log_zero_right] at hlt he ⊢
    omega
  · have hle : Nat.log 2 m + e ≤ Int.log 2 (x * 2 ^ e) := by
      refine (Int.zpow_le_iff_le_log Nat.one_lt_two hpos).mp ?_
      push_cast
      rw [zpow_add₀ two_ne_zero]
      refine mul_le_mul_of_nonneg_right (le_trans ?_ hm) (zpow_pos two_pos e).le
      exact_mod_cast Nat.pow_log_le_self 2 hm0.ne'
    congr 2
    omega

/-- The form of `y` after rounding. -/
structure RoundsTo (y : ℝ) (a : UnpackedFloat) : Prop where
  isNumber : IsNumber a
  toRat_eq : (toRat a : ℝ) = rounded y

/-- One of a sign, as a number. -/
def unit (s : Sign) : ℝ :=
  (s.apply 1 : ℤ)

theorem apply_eq_unit_mul (s : Sign) (m : ℕ) : ((s.apply m : ℤ) : ℝ) = unit s * m := by
  cases s <;> simp [unit, Sign.apply]

theorem toRat_finite (s : Sign) {m : ℕ} (e : ℤ) (h : 0 < m) :
    (toRat (.finite s m e h) : ℝ) = unit s * (m * 2 ^ e) := by
  simp only [toRat, Rat.cast_mul, Rat.cast_zpow, Rat.cast_intCast, Rat.cast_ofNat]
  rw [apply_eq_unit_mul, mul_assoc]

theorem abs_unit_mul (s : Sign) {z : ℝ} (hz : 0 < z) : |unit s * z| = z := by
  cases s <;> simp [unit, Sign.apply, abs_of_pos hz]

theorem rounded_unit_mul (s : Sign) {z : ℝ} (hz : 0 < z) : rounded (unit s * z) =
    unit s * (nearest (z / 2 ^ gridExponent z) * 2 ^ gridExponent z) := by
  have habs := abs_unit_mul s hz
  have hsign : (SignType.sign (unit s * z) : ℝ) = unit s := by
    cases s <;> simp [unit, Sign.apply, sign_pos hz, Left.sign_neg]
  have hgrid : gridExponent (unit s * z) = gridExponent z := by
    rw [gridExponent, gridExponent, habs, abs_of_pos hz]
  rw [rounded, habs, hsign, hgrid]

theorem shiftToTargetExponent_eq (m : ℕ) (e : ℤ) (accuracy : Accuracy) :
    shiftToTargetExponent .binary64 m e accuracy =
      (ExtendedMantissa.ofMantissaAndAccuracy m accuracy >>> (target m e - e).toNat,
        e + (target m e - e).toNat) := by
  rw [shiftToTargetExponent, targetExponent_eq, shiftToExponent]

/-- A mantissa of 53 bits is not shifted, and one that rounding has made a bit longer loses
its last bit, which is zero. -/
theorem exists_shift_rounded {r : ℕ} {t : ℤ} (hr : r ≤ 2 ^ 53) (ht : -1074 ≤ t)
    (hfull : t ≠ -1074 → 2 ^ 52 ≤ r) : ∃ d : ℕ, shiftToTargetExponent .binary64 r t .exact =
      (ExtendedMantissa.ofMantissaAndAccuracy r .exact >>> d, t + d) ∧
        r / 2 ^ d * 2 ^ d = r ∧ Canonical (r / 2 ^ d) (t + d) := by
  refine ⟨(target r t - t).toNat, shiftToTargetExponent_eq r t .exact, ?_⟩
  obtain rfl | hlt := eq_or_lt_of_le hr
  · have hlog : Nat.log 2 (2 ^ 53) = 53 := Nat.log_pow Nat.one_lt_two 53
    have hshift : (target (2 ^ 53) t - t).toNat = 1 := by
      unfold target
      omega
    rw [hshift]
    exact ⟨rfl, ⟨by norm_num, by omega, fun _ => by norm_num⟩⟩
  · have hlog : Nat.log 2 r ≤ 52 := Nat.lt_succ_iff.mp (Nat.log_lt_of_lt_pow' (by decide) hlt)
    have hshift : (target r t - t).toNat = 0 := by
      unfold target
      omega
    rw [hshift, pow_zero, Nat.div_one, mul_one, Int.natCast_zero, add_zero]
    exact ⟨rfl, ⟨hlt, ht, hfull⟩⟩

theorem roundWithAccuracy_value {s : Sign} {m r : ℕ} {e t : ℤ} {accuracy : Accuracy}
    {x : ExtendedMantissa} (hx : shiftToTargetExponent .binary64 m e accuracy = (x, t))
    (hxr : x.roundedMantissa = r) (hr : r ≤ 2 ^ 53) (ht : -1074 ≤ t)
    (hfull : t ≠ -1074 → 2 ^ 52 ≤ r) :
    IsNumber (roundWithAccuracy .binary64 s m e accuracy) ∧
      (toRat (roundWithAccuracy .binary64 s m e accuracy) : ℝ) = unit s * (r * 2 ^ t) := by
  obtain ⟨d, hsecond, hexact, hcanonical⟩ := exists_shift_rounded hr ht hfull
  simp only [roundWithAccuracy, hx, hxr, hsecond, mantissa_shiftRight,
    mantissa_ofMantissaAndAccuracy]
  split
  · rename_i hzero
    rw [hzero, zero_mul] at hexact
    refine ⟨trivial, ?_⟩
    simp [toRat, ← hexact]
  · refine ⟨hcanonical, ?_⟩
    have hvalue : ((r / 2 ^ d : ℕ) : ℝ) * 2 ^ d = r := by exact_mod_cast hexact
    rw [toRat_finite, ← hvalue, zpow_add₀ two_ne_zero, zpow_natCast]
    ring

/-- Arithmetic rounds to the nearest number of the format: it cuts the mantissa at the
canonical exponent and rounds what is left. -/
theorem roundsTo_roundWithAccuracy {x : ℝ} {m : ℕ} {e : ℤ} {accuracy : Accuracy} (hx : 0 < x)
    (hcut : CutFrom x (ExtendedMantissa.ofMantissaAndAccuracy m accuracy)) (he : e ≤ target m e)
    (s : Sign) :
    RoundsTo (unit s * (x * 2 ^ e)) (roundWithAccuracy .binary64 s m e accuracy) := by
  obtain ⟨n, hn⟩ : ∃ n : ℕ, target m e = e + n := ⟨(target m e - e).toNat, by omega⟩
  have hfirst : shiftToTargetExponent .binary64 m e accuracy =
      (ExtendedMantissa.ofMantissaAndAccuracy m accuracy >>> n, target m e) := by
    rw [shiftToTargetExponent_eq, hn, add_sub_cancel_left, Int.toNat_natCast]
  have hm : (m : ℝ) ≤ x := mantissa_ofMantissaAndAccuracy m accuracy ▸ hcut.mantissa_le
  have hm' : x < m + 1 := mantissa_ofMantissaAndAccuracy m accuracy ▸ hcut.lt_mantissa_succ
  have hquotient : x * 2 ^ e / 2 ^ target m e = x / 2 ^ n := by
    rw [hn, zpow_add₀ two_ne_zero, zpow_natCast, mul_comm x,
      mul_div_mul_left _ _ (zpow_ne_zero e two_ne_zero)]
  have htarget : target m e = max (Nat.log 2 m + e - 52) (-1074) := rfl
  have hr : nearest (x / 2 ^ n) ≤ 2 ^ 53 := by
    have hlog : m + 1 ≤ 2 ^ 53 * 2 ^ n := by
      rw [← pow_add]
      exact Nat.lt_pow_of_log_lt Nat.one_lt_two (by omega)
    refine nearest_le ((div_le_iff₀ (by positivity)).mpr (hm'.le.trans ?_))
    exact_mod_cast hlog
  have hfull : target m e ≠ -1074 → 2 ^ 52 ≤ nearest (x / 2 ^ n) := by
    intro hne
    have hm0 : m ≠ 0 := by
      rintro rfl
      rw [Nat.log_zero_right] at htarget
      omega
    have hlog : 2 ^ 52 * 2 ^ n ≤ m := by
      rw [← pow_add]
      exact Nat.pow_le_of_le_log hm0 (by omega)
    refine le_nearest ((le_div_iff₀ (by positivity)).mpr (le_trans ?_ hm))
    exact_mod_cast hlog
  obtain ⟨hnumber, hvalue⟩ := roundWithAccuracy_value (s := s) hfirst
    (hcut.shiftRight n).roundedMantissa_eq hr (by omega) hfull
  refine ⟨hnumber, ?_⟩
  rw [hvalue, rounded_unit_mul s (mul_pos hx (zpow_pos two_pos e)),
    gridExponent_of_cutFrom hx hm hm' he, hquotient]

/-! ## Numbers that rounding keeps -/

theorem le_log_of_zpow_le {y : ℝ} {e : ℤ} (h : 2 ^ e ≤ |y|) : e ≤ Int.log 2 |y| := by
  have hpos : 0 < |y| := (zpow_pos two_pos e).trans_le h
  exact (Int.zpow_le_iff_le_log Nat.one_lt_two hpos).mp (by exact_mod_cast h)

theorem gridExponent_le {y : ℝ} {e : ℤ} (he : -1074 ≤ e) (hy : y ≠ 0) (h : |y| < 2 ^ (e + 53)) :
    gridExponent y ≤ e := by
  have hlog : Int.log 2 |y| < e + 53 :=
    (Int.lt_zpow_iff_log_lt Nat.one_lt_two (abs_pos.mpr hy)).mp (by exact_mod_cast h)
  unfold gridExponent
  omega

theorem rounded_zero : rounded 0 = 0 := by
  simp [rounded]

theorem rounded_of_lt {n e : ℤ} (he : -1074 ≤ e) (hn : |n| < 2 ^ 53) :
    rounded (n * 2 ^ e) = n * 2 ^ e := by
  obtain rfl | hn0 := eq_or_ne n 0
  · simp [rounded_zero]
  · have hpos : (0 : ℝ) < 2 ^ e := zpow_pos two_pos e
    have hne : (n : ℝ) * 2 ^ e ≠ 0 := mul_ne_zero (Int.cast_ne_zero.mpr hn0) hpos.ne'
    have habs : |(n : ℝ) * 2 ^ e| = n.natAbs * 2 ^ e := by
      rw [abs_mul, abs_of_pos hpos, Nat.cast_natAbs, Int.cast_abs]
    have hlt : |(n : ℝ) * 2 ^ e| < 2 ^ (e + 53) := by
      have hcast : (n.natAbs : ℝ) < 2 ^ 53 := by
        rw [Int.abs_eq_natAbs] at hn
        exact_mod_cast hn
      rw [habs, zpow_add₀ two_ne_zero, mul_comm]
      exact mul_lt_mul_of_pos_left (by exact_mod_cast hcast) hpos
    have hgrid := gridExponent_le he hne hlt
    obtain ⟨d, hd⟩ : ∃ d : ℕ, e = gridExponent (n * 2 ^ e) + d :=
      ⟨(e - gridExponent (n * 2 ^ e)).toNat, by omega⟩
    have hquotient : |(n : ℝ) * 2 ^ e| / 2 ^ gridExponent (n * 2 ^ e) = (n.natAbs * 2 ^ d : ℕ) := by
      generalize gridExponent (n * 2 ^ e) = g at *
      rw [habs, hd, zpow_add₀ two_ne_zero, zpow_natCast, div_eq_iff (zpow_ne_zero g two_ne_zero)]
      push_cast
      ring
    rw [rounded, hquotient, nearest_natCast, ← hquotient,
      div_mul_cancel₀ _ (zpow_ne_zero _ two_ne_zero)]
    exact sign_mul_abs _

/-- A multiple of a power of two in the range of the format stays, unless it has
more than 53 bits. -/
theorem rounded_eq_self {n e : ℤ} (he : -1074 ≤ e) (hn : |n| ≤ 2 ^ 53) :
    rounded (n * 2 ^ e) = n * 2 ^ e := by
  obtain heq | hlt := eq_or_lt_of_le hn
  · -- The last bit is zero.
    obtain ⟨m, rfl⟩ : (2 : ℤ) ∣ n := (dvd_abs 2 n).mp (heq ▸ dvd_pow_self 2 (by decide))
    have hshift : ((2 * m : ℤ) : ℝ) * 2 ^ e = m * 2 ^ (e + 1) := by
      rw [zpow_add_one₀ two_ne_zero]
      push_cast
      ring
    rw [hshift]
    exact rounded_of_lt (by omega) (by rw [abs_mul] at heq; norm_num at heq ⊢; omega)
  · exact rounded_of_lt he hlt

theorem rounded_toRat {a : UnpackedFloat} (h : IsNumber a) : rounded (toRat a) = toRat a := by
  cases a with
  | zero s => simp [toRat, rounded_zero]
  | finite s m e hm =>
      obtain ⟨hlt, hlow, -⟩ : Canonical m e := h
      have hvalue : ((toRat (.finite s m e hm) : ℚ) : ℝ) = ((s.apply m : ℤ) : ℝ) * 2 ^ e := by
        simp only [toRat, Rat.cast_mul, Rat.cast_zpow, Rat.cast_intCast, Rat.cast_ofNat]
      have habs : |s.apply m| ≤ 2 ^ 53 := by cases s <;> simp [Sign.apply] <;> omega
      rw [hvalue]
      exact rounded_eq_self hlow habs
  | infinity s => cases h
  | notANumber => cases h

/-! ## Bounds -/

theorem abs_rounded (y : ℝ) :
    |rounded y| = nearest (|y| / 2 ^ gridExponent y) * 2 ^ gridExponent y := by
  obtain rfl | hy := eq_or_ne y 0
  · simp [rounded, nearest]
  · have hsign : |(SignType.sign y : ℝ)| = 1 := by
      obtain h | h := hy.lt_or_gt <;> simp [h]
    rw [rounded, abs_mul, hsign, one_mul, abs_of_nonneg (by positivity)]

/-- Rounding stays below a power of two that the number stays below. -/
theorem abs_rounded_le {y : ℝ} {e : ℤ} (he : -1074 ≤ e) (h : |y| ≤ 2 ^ e) :
    |rounded y| ≤ 2 ^ e := by
  obtain rfl | hy := eq_or_ne y 0
  · rw [rounded_zero, abs_zero]
    positivity
  · have hgrid : gridExponent y ≤ e :=
      gridExponent_le he hy (h.trans_lt (zpow_lt_zpow_right₀ one_lt_two (by omega)))
    obtain ⟨d, hd⟩ : ∃ d : ℕ, e = gridExponent y + d := ⟨(e - gridExponent y).toNat, by omega⟩
    rw [abs_rounded, hd]
    rw [hd] at h
    have hpos : (0 : ℝ) < 2 ^ gridExponent y := by positivity
    have hnearest : nearest (|y| / 2 ^ gridExponent y) ≤ 2 ^ d := by
      refine nearest_le ((div_le_iff₀' hpos).mpr ?_)
      rwa [Nat.cast_pow, Nat.cast_two, ← zpow_natCast, ← zpow_add₀ two_ne_zero]
    rw [zpow_add₀ two_ne_zero, mul_comm, zpow_natCast]
    exact mul_le_mul_of_nonneg_left (by exact_mod_cast hnearest) hpos.le

/-- Rounding stays above a power of two that the number stays above: the power lies on the
grid of the number. -/
theorem le_abs_rounded {y : ℝ} {e : ℤ} (he : -1074 ≤ e) (h : 2 ^ e ≤ |y|) :
    2 ^ e ≤ |rounded y| := by
  have hy : 0 < |y| := lt_of_lt_of_le (zpow_pos two_pos e) h
  obtain ⟨l, hl⟩ : ∃ l, Int.log 2 |y| = l := ⟨_, rfl⟩
  have hle : e ≤ l := hl ▸ le_log_of_zpow_le h
  have hlog : (2 : ℝ) ^ l ≤ |y| := by
    exact_mod_cast (Int.zpow_le_iff_le_log Nat.one_lt_two hy).mpr hl.ge
  obtain ⟨d, hd⟩ : ∃ d : ℕ, l = gridExponent y + d := by
    refine ⟨(l - gridExponent y).toNat, ?_⟩
    unfold gridExponent
    omega
  have hpos : (0 : ℝ) < 2 ^ gridExponent y := by positivity
  have hnearest : 2 ^ d ≤ nearest (|y| / 2 ^ gridExponent y) := by
    refine le_nearest ((le_div_iff₀' hpos).mpr ?_)
    rwa [Nat.cast_pow, Nat.cast_two, ← zpow_natCast, ← zpow_add₀ two_ne_zero, ← hd]
  calc (2 : ℝ) ^ e ≤ 2 ^ l := zpow_le_zpow_right₀ one_le_two hle
    _ = 2 ^ gridExponent y * 2 ^ d := by rw [hd, zpow_add₀ two_ne_zero, zpow_natCast]
    _ ≤ |rounded y| := by
        rw [abs_rounded, mul_comm _ (2 ^ gridExponent y)]
        exact mul_le_mul_of_nonneg_left (by exact_mod_cast hnearest) hpos.le

theorem rounded_nonneg {y : ℝ} (h : 0 ≤ y) : 0 ≤ rounded y := by
  obtain rfl | hpos := h.eq_or_lt
  · exact rounded_zero.ge
  · rw [rounded, sign_pos hpos, SignType.coe_one, one_mul]
    positivity

theorem le_rounded {y : ℝ} {e : ℤ} (he : -1074 ≤ e) (h : 2 ^ e ≤ y) : 2 ^ e ≤ rounded y := by
  have hy : 0 ≤ y := (zpow_pos two_pos e).le.trans h
  rw [← abs_of_nonneg (rounded_nonneg hy)]
  exact le_abs_rounded he (by rwa [abs_of_nonneg hy])

/-- Rounding keeps the sign unless the number is below the smallest one of the format. -/
theorem sign_rounded {y : ℝ} (h : 2 ^ (-1074 : ℤ) ≤ |y|) :
    SignType.sign (rounded y) = SignType.sign y := by
  have hpos := lt_of_lt_of_le (zpow_pos two_pos _) (le_abs_rounded le_rfl h)
  rw [abs_rounded] at hpos
  rw [rounded, sign_mul, sign_pos hpos, mul_one]
  cases SignType.sign y <;> simp

/-! ## Scaling -/

/-- Zero, or not so small that rounding takes more of its bits. -/
def Regular (y : ℝ) : Prop :=
  y = 0 ∨ 2 ^ (-1022 : ℤ) ≤ |y|

/-- A whole multiple of `2 ^ e`. -/
def MultipleOf (e : ℤ) (y : ℝ) : Prop :=
  ∃ n : ℤ, y = n * 2 ^ e

/-- A multiple of the smallest positive number. -/
abbrev Spaced : ℝ → Prop :=
  MultipleOf (-1074)

theorem log_mul_zpow {y : ℝ} (hy : 0 < y) (k : ℤ) : Int.log 2 (y * 2 ^ k) = Int.log 2 y + k := by
  refine eq_of_forall_le_iff fun e => ?_
  have hpos : (0 : ℝ) < 2 ^ k := zpow_pos two_pos k
  rw [← sub_le_iff_le_add, ← Int.zpow_le_iff_le_log Nat.one_lt_two hy,
    ← Int.zpow_le_iff_le_log Nat.one_lt_two (mul_pos hy hpos), Nat.cast_two,
    zpow_sub₀ two_ne_zero, div_le_iff₀ hpos]

theorem abs_mul_zpow (y : ℝ) (k : ℤ) : |y * 2 ^ k| = |y| * 2 ^ k := by
  rw [abs_mul, abs_of_pos (zpow_pos two_pos k : (0 : ℝ) < 2 ^ k)]

theorem gridExponent_of_regular {y : ℝ} (h : 2 ^ (-1022 : ℤ) ≤ |y|) :
    gridExponent y = Int.log 2 |y| - 52 := by
  have hlog := le_log_of_zpow_le h
  unfold gridExponent
  omega

/-- Rounding takes the same bits at both scales. -/
theorem rounded_mul_zpow {y : ℝ} {k : ℤ} (h : Regular y) (h' : Regular (y * 2 ^ k)) :
    rounded (y * 2 ^ k) = rounded y * 2 ^ k := by
  obtain rfl | h := h
  · rw [zero_mul, rounded_zero, zero_mul]
  · have hpos : (0 : ℝ) < 2 ^ k := zpow_pos two_pos k
    have hy : 0 < |y| := lt_of_lt_of_le (zpow_pos two_pos _) h
    have h' : 2 ^ (-1022 : ℤ) ≤ |y * 2 ^ k| :=
      h'.resolve_left (mul_ne_zero (abs_pos.mp hy) hpos.ne')
    have hgrid : gridExponent (y * 2 ^ k) = gridExponent y + k := by
      rw [gridExponent_of_regular h, gridExponent_of_regular h', abs_mul_zpow, log_mul_zpow hy]
      ring
    rw [rounded, rounded, hgrid, abs_mul_zpow, sign_mul, sign_pos hpos, mul_one,
      zpow_add₀ two_ne_zero, mul_div_mul_right _ _ hpos.ne']
    ring

theorem rounded_of_abs_lt {y : ℝ} (hy : Spaced y) (h : |y| < 2 ^ (-1022 : ℤ)) {k : ℤ} (hk : 0 ≤ k) :
    rounded (y * 2 ^ k) = y * 2 ^ k := by
  obtain ⟨n, rfl⟩ := hy
  have hn : |n| < 2 ^ 53 := by
    rw [abs_mul_zpow, ← lt_div_iff₀ (zpow_pos two_pos _), ← zpow_sub₀ two_ne_zero] at h
    have hcast : (|n| : ℝ) < 2 ^ 53 := h.trans (by norm_num)
    exact_mod_cast hcast
  rw [mul_assoc, ← zpow_add₀ two_ne_zero]
  exact rounded_of_lt (by omega) hn

/-- Numbers so small that rounding would take more of their bits have none to take. -/
theorem rounded_mul_zpow_of_spaced {y : ℝ} {k : ℤ} (h : Spaced y) (h' : Spaced (y * 2 ^ k)) :
    rounded (y * 2 ^ k) = rounded y * 2 ^ k := by
  wlog hk : 0 ≤ k generalizing y k
  · have hback : y * 2 ^ k * 2 ^ (-k) = y := by
      rw [mul_assoc, ← zpow_add₀ two_ne_zero, add_neg_cancel, zpow_zero, mul_one]
    have hswap := this (k := -k) h' (by rwa [hback]) (by omega)
    rw [hback] at hswap
    rw [hswap, mul_assoc, ← zpow_add₀ two_ne_zero, neg_add_cancel, zpow_zero, mul_one]
  · obtain hsmall | hlarge := lt_or_ge |y| (2 ^ (-1022 : ℤ))
    · have hself := rounded_of_abs_lt h hsmall le_rfl
      rw [zpow_zero, mul_one] at hself
      rw [rounded_of_abs_lt h hsmall hk, hself]
    · refine rounded_mul_zpow (.inr hlarge) (.inr ?_)
      rw [abs_mul_zpow]
      exact hlarge.trans (le_mul_of_one_le_right (abs_nonneg y) (one_le_zpow₀ one_le_two hk))

namespace MultipleOf

variable {x y : ℝ} {e : ℤ}

theorem add (hx : MultipleOf e x) (hy : MultipleOf e y) : MultipleOf e (x + y) := by
  obtain ⟨m, rfl⟩ := hx
  obtain ⟨n, rfl⟩ := hy
  exact ⟨m + n, by rw [Int.cast_add, add_mul]⟩

theorem sub (hx : MultipleOf e x) (hy : MultipleOf e y) : MultipleOf e (x - y) := by
  obtain ⟨m, rfl⟩ := hx
  obtain ⟨n, rfl⟩ := hy
  exact ⟨m - n, by rw [Int.cast_sub, sub_mul]⟩

theorem mul {f : ℤ} (hx : MultipleOf e x) (hy : MultipleOf f y) : MultipleOf (e + f) (x * y) := by
  obtain ⟨m, rfl⟩ := hx
  obtain ⟨n, rfl⟩ := hy
  refine ⟨m * n, ?_⟩
  rw [Int.cast_mul, zpow_add₀ two_ne_zero]
  ring

theorem zpow_le_abs (hy : MultipleOf e y) (h0 : y ≠ 0) : 2 ^ e ≤ |y| := by
  obtain ⟨n, rfl⟩ := hy
  have hn : (1 : ℝ) ≤ |(n : ℝ)| := by
    exact_mod_cast Int.one_le_abs (Int.cast_ne_zero.mp (left_ne_zero_of_mul h0))
  rw [abs_mul_zpow]
  exact le_mul_of_one_le_left (zpow_pos two_pos e).le hn

/-- A multiple of a power of two is not rounded unless it has more than 53 bits. -/
theorem rounded_eq (hy : MultipleOf e y) (he : -1074 ≤ e) (hle : |y| ≤ 2 ^ (e + 53)) :
    rounded y = y := by
  obtain ⟨n, rfl⟩ := hy
  refine rounded_eq_self he ?_
  rw [abs_mul_zpow, add_comm e, zpow_add₀ two_ne_zero,
    mul_le_mul_iff_left₀ (zpow_pos two_pos e)] at hle
  exact_mod_cast hle

end MultipleOf

/-- A number from `2 ^ e` on is rounded to a multiple of its last bit. -/
theorem multipleOf_rounded {y : ℝ} {e : ℤ} (h : 2 ^ e ≤ |y|) : MultipleOf (e - 52) (rounded y) := by
  have hlog := le_log_of_zpow_le h
  obtain ⟨d, hd⟩ : ∃ d : ℕ, gridExponent y = e - 52 + d := by
    refine ⟨(gridExponent y - (e - 52)).toNat, ?_⟩
    unfold gridExponent
    omega
  refine ⟨SignType.sign y * (nearest (|y| / 2 ^ gridExponent y) * 2 ^ d), ?_⟩
  rw [rounded, hd, zpow_add₀ two_ne_zero, zpow_natCast]
  push_cast
  ring

/-- The root of a number of the format is not small. -/
theorem regular_sqrt {y : ℝ} (hy : Spaced y) (h0 : 0 ≤ y) : Regular √y := by
  obtain rfl | hpos := h0.eq_or_lt
  · exact .inl Real.sqrt_zero
  · right
    rw [abs_of_nonneg (Real.sqrt_nonneg y), Real.le_sqrt' (zpow_pos two_pos _), ← zpow_natCast,
      ← zpow_mul]
    have hle := hy.zpow_le_abs hpos.ne'
    rw [abs_of_pos hpos] at hle
    exact (zpow_le_zpow_right₀ one_le_two (by decide)).trans hle

theorem spaced_toRat {a : UnpackedFloat} (h : IsNumber a) : Spaced (toRat a) := by
  cases a with
  | zero s => exact ⟨0, by simp [toRat]⟩
  | finite s m e hm =>
      have hlow := h.le_exponent
      obtain ⟨n, rfl⟩ : ∃ n : ℕ, e = n + -1074 := ⟨(e + 1074).toNat, by omega⟩
      refine ⟨s.apply m * 2 ^ n, ?_⟩
      rw [toRat_finite, Int.cast_mul, apply_eq_unit_mul, zpow_add₀ two_ne_zero, zpow_natCast]
      push_cast
      ring
  | infinity s => cases h
  | notANumber => cases h

end MeshRing.Arithmetic
