import MeshRing.Proofs.Rounding

/-! Each operation on finite numbers gives the number next to its exact result, or an
infinity where that is too large, so a program can be followed in real numbers. -/

namespace MeshRing.Arithmetic

open Float.Model UnpackedFloat Tolerance

/-! ## Operations -/

theorem log_shiftLeft {m : ℕ} (hm : m ≠ 0) (n : ℕ) : Nat.log 2 (m <<< n) = Nat.log 2 m + n := by
  rw [Nat.shiftLeft_eq]
  induction n with
  | zero => rw [pow_zero, mul_one, add_zero]
  | succ n ih =>
      rw [pow_succ, ← mul_assoc, Nat.log_mul_base Nat.one_lt_two (by positivity), ih, add_assoc]

theorem roundsTo_round {m : ℕ} (hm : 0 < m) (e : ℤ) (s : Sign) :
    RoundsTo (unit s * (m * 2 ^ e)) (UnpackedFloat.round .binary64 s m e) := by
  obtain ⟨n, hn⟩ : ∃ n, (e - target m e).toNat = n := ⟨_, rfl⟩
  simp only [UnpackedFloat.round, decreaseExponent, targetExponent_eq, hn]
  have htarget : e - n ≤ target (m <<< n) (e - n) := by
    have hlog : (Nat.log 2 m + e : ℤ) = Nat.log 2 (m <<< n) + (e - n) := by
      rw [log_shiftLeft hm.ne']
      omega
    rw [← target_congr hlog]
    omega
  have hvalue : ((m <<< n : ℕ) : ℝ) * 2 ^ (e - n) = m * 2 ^ e := by
    rw [Nat.shiftLeft_eq, zpow_sub₀ two_ne_zero, zpow_natCast]
    push_cast
    field_simp
  have hpos : (0 : ℝ) < (m <<< n : ℕ) := by
    rw [Nat.shiftLeft_eq]
    positivity
  rw [← hvalue]
  exact roundsTo_roundWithAccuracy hpos (cutFrom_exact _) htarget s

theorem roundsTo_normalize (n e : ℤ) :
    RoundsTo (n * 2 ^ e) (UnpackedFloat.normalize .binary64 n e .positive) := by
  unfold UnpackedFloat.normalize
  split
  · rename_i h
    rw [compare_lt_iff_lt] at h
    have hcast : (n : ℝ) * 2 ^ e = unit .negative * ((-n).toNat * 2 ^ e) := by
      have hnat : (((-n).toNat : ℕ) : ℝ) = -n := by exact_mod_cast Int.toNat_of_nonneg (by omega)
      simp [unit, Sign.apply, hnat]
    rw [hcast]
    exact roundsTo_round (by omega) e .negative
  · rename_i h
    rw [compare_eq_iff_eq] at h
    exact ⟨trivial, by simp [h, rounded_zero, toRat]⟩
  · rename_i h
    rw [compare_gt_iff_gt] at h
    have hcast : (n : ℝ) * 2 ^ e = unit .positive * (n.toNat * 2 ^ e) := by
      have hnat : ((n.toNat : ℕ) : ℝ) = n := by exact_mod_cast Int.toNat_of_nonneg h.le
      simp [unit, Sign.apply, hnat]
    rw [hcast]
    exact roundsTo_round (by omega) e .positive

theorem roundsTo_toRat {a : UnpackedFloat} (h : IsNumber a) : RoundsTo (toRat a) a :=
  ⟨h, (rounded_toRat h).symm⟩

theorem isNumber_neg {a : UnpackedFloat} : IsNumber a.neg ↔ IsNumber a := by
  cases a <;> rfl

theorem apply_shiftLeft_mul (s : Sign) (m : ℕ) {e k : ℤ} (h : k ≤ e) :
    ((s.apply (m <<< (e - k).toNat : ℕ) : ℤ) : ℝ) * 2 ^ k = s.apply m * 2 ^ e := by
  obtain ⟨n, rfl⟩ : ∃ n : ℕ, e = k + n := ⟨(e - k).toNat, by omega⟩
  rw [add_sub_cancel_left, Int.toNat_natCast, apply_eq_unit_mul, apply_eq_unit_mul,
    Nat.shiftLeft_eq, zpow_add₀ two_ne_zero, zpow_natCast]
  push_cast
  ring

theorem roundsTo_sub {a b : UnpackedFloat} (ha : IsNumber a) (hb : IsNumber b) :
    RoundsTo (toRat a - toRat b) (UnpackedFloat.sub .binary64 a b) := by
  cases a <;> cases b
  case finite.finite s m e hm s' m' e' hm' =>
      have hvalue : (toRat (.finite s m e hm) - toRat (.finite s' m' e' hm') : ℝ) =
          ((s.apply (m <<< (e - min e e').toNat : ℕ) -
            s'.apply (m' <<< (e' - min e e').toNat : ℕ) : ℤ) : ℝ) * 2 ^ min e e' := by
        rw [Int.cast_sub, sub_mul, apply_shiftLeft_mul s m (min_le_left e e'),
          apply_shiftLeft_mul s' m' (min_le_right e e')]
        simp [toRat]
      rw [hvalue]
      exact roundsTo_normalize _ _
  case zero.zero =>
      simp only [UnpackedFloat.sub]
      split <;> exact ⟨trivial, by simp [toRat, rounded_zero]⟩
  case zero.finite s s' m' e' hm' =>
      have hneg : (toRat (.zero s) - toRat (.finite s' m' e' hm') : ℝ) =
          toRat (UnpackedFloat.neg (.finite s' m' e' hm')) := by
        rw [toRat_neg, Rat.cast_neg, toRat_zero, Rat.cast_zero, zero_sub]
      rw [hneg]
      exact roundsTo_toRat (isNumber_neg.mpr hb)
  case finite.zero s m e hm s' =>
      rw [toRat_zero, Rat.cast_zero, sub_zero]
      exact roundsTo_toRat ha
  all_goals first | (cases ha; done) | cases hb

/-- A sum is the difference from the negated number, to the last bit. -/
theorem add_eq_sub_neg {spec : Format} (a b : UnpackedFloat) :
    UnpackedFloat.add spec a b = UnpackedFloat.sub spec a b.neg := by
  cases a <;> cases b
  case finite.finite s m e hm s' m' e' hm' =>
    simp only [UnpackedFloat.add, UnpackedFloat.sub, UnpackedFloat.neg, apply_neg, sub_neg_eq_add]
  case zero.finite s s' m' e' hm' => cases s' <;> rfl
  case infinity.infinity s s' => cases s <;> cases s' <;> rfl
  case zero.zero s s' => cases s <;> cases s' <;> rfl
  case zero.infinity s s' => cases s' <;> rfl
  case finite.infinity s m e hm s' => cases s' <;> rfl
  all_goals rfl

theorem roundsTo_add {a b : UnpackedFloat} (ha : IsNumber a) (hb : IsNumber b) :
    RoundsTo (toRat a + toRat b) (UnpackedFloat.add .binary64 a b) := by
  have h := roundsTo_sub ha (isNumber_neg.mpr hb)
  rw [← add_eq_sub_neg, toRat_neg, Rat.cast_neg, sub_neg_eq_add] at h
  exact h

theorem unit_mul (s t : Sign) : unit (s * t) = unit s * unit t := by
  have hmul (n : ℤ) : (s * t).apply n = s.apply (t.apply n) := by
    cases s <;> cases t
    case negative.negative => exact (neg_neg n).symm
    all_goals rfl
  rw [unit, hmul]
  cases s <;> simp [unit, Sign.apply]

theorem log_mul_le {m n : ℕ} (hm : m ≠ 0) (hn : n ≠ 0) :
    Nat.log 2 m + Nat.log 2 n ≤ Nat.log 2 (m * n) := by
  refine Nat.le_log_of_pow_le Nat.one_lt_two ?_
  rw [pow_add]
  exact Nat.mul_le_mul (Nat.pow_log_le_self 2 hm) (Nat.pow_log_le_self 2 hn)

/-- The product of two mantissas has all the bits that the canonical form needs. -/
theorem roundsTo_mul {a b : UnpackedFloat} (ha : IsNumber a) (hb : IsNumber b) :
    RoundsTo (toRat a * toRat b) (UnpackedFloat.mul .binary64 a b) := by
  cases a <;> cases b
  case finite.finite s m e hm s' m' e' hm' =>
      have htarget : e + e' ≤ target (m * m') (e + e') := by
        have hlog := log_mul_le hm.ne' hm'.ne'
        have hfull : e ≠ -1074 → 52 ≤ Nat.log 2 m := fun he =>
          Nat.le_log_of_pow_le Nat.one_lt_two (ha.full he)
        have hfull' : e' ≠ -1074 → 52 ≤ Nat.log 2 m' := fun he =>
          Nat.le_log_of_pow_le Nat.one_lt_two (hb.full he)
        unfold target
        omega
      have hpos : (0 : ℝ) < (m * m' : ℕ) := by exact_mod_cast Nat.mul_pos hm hm'
      have hvalue : (toRat (.finite s m e hm) * toRat (.finite s' m' e' hm') : ℝ) =
          unit (s * s') * ((m * m' : ℕ) * 2 ^ (e + e')) := by
        rw [toRat_finite, toRat_finite, unit_mul, zpow_add₀ two_ne_zero]
        push_cast
        ring
      rw [hvalue]
      exact roundsTo_roundWithAccuracy hpos (cutFrom_exact _) htarget (s * s')
  all_goals
    first
    | (cases ha; done)
    | (cases hb; done)
    | exact ⟨trivial, by simp [UnpackedFloat.mul, toRat, rounded_zero]⟩

theorem cutFrom_div (n : ℕ) {d : ℕ} (hd : 0 < d) :
    CutFrom (n / d)
      (ExtendedMantissa.ofMantissaAndAccuracy (n / d) (accuracyOfFraction (n % d) d)) := by
  have hd' : (0 : ℝ) < d := by exact_mod_cast hd
  have hsplit : (n : ℝ) / d = (n / d : ℕ) + (n % d : ℕ) / d := by
    rw [div_eq_iff hd'.ne', add_mul, div_mul_cancel₀ _ hd'.ne']
    exact_mod_cast (Nat.div_add_mod' n d).symm
  have hlt : ((n % d : ℕ) : ℝ) < d := by exact_mod_cast Nat.mod_lt n hd
  rw [hsplit]
  unfold accuracyOfFraction
  split
  · rename_i hzero
    rw [hzero, Nat.cast_zero, zero_div, add_zero]
    exact cutFrom_exact _
  · rename_i hrest
    have hpos : (0 : ℝ) < (n % d : ℕ) := by exact_mod_cast Nat.pos_of_ne_zero hrest
    refine cutFrom_inexact (lt_add_of_pos_right _ (div_pos hpos hd'))
      (add_lt_add_right ((div_lt_one hd').mpr hlt) _) ?_
    have hhalf : 2 * ((n / d : ℕ) + (n % d : ℕ) / d : ℝ) =
        2 * (n / d : ℕ) + (2 * (n % d) : ℕ) / d := by
      push_cast
      ring
    rw [hhalf]
    rcases lt_trichotomy (2 * (n % d)) d with h | h | h
    · rw [compare_lt_iff_lt.mpr h, compare_lt_iff_lt, add_lt_add_iff_left, div_lt_one hd']
      exact_mod_cast h
    · rw [compare_eq_iff_eq.mpr h, compare_eq_iff_eq, h, div_self hd'.ne']
    · rw [compare_gt_iff_gt.mpr h, compare_gt_iff_gt, add_lt_add_iff_left, one_lt_div hd']
      exact_mod_cast h

theorem unit_div (s t : Sign) : unit (s / t) = unit s / unit t := by
  have hinv : unit t = (unit t)⁻¹ := by cases t <;> simp [unit, Sign.apply, inv_neg]
  have hmul : s / t = s * t := by cases s <;> cases t <;> rfl
  rw [hmul, unit_mul, div_eq_mul_inv, ← hinv]

theorem two_pow_le_shiftLeft_div {m n j k : ℕ} (hm : m ≠ 0) (hn : n ≠ 0)
    (h : j + Nat.log 2 n + 1 ≤ Nat.log 2 m + k) : 2 ^ j ≤ (m <<< k) / n := by
  rw [Nat.le_div_iff_mul_le (Nat.pos_of_ne_zero hn), Nat.shiftLeft_eq]
  calc 2 ^ j * n ≤ 2 ^ j * 2 ^ (Nat.log 2 n + 1) :=
        Nat.mul_le_mul_left _ (Nat.lt_pow_succ_log_self Nat.one_lt_two n).le
    _ ≤ 2 ^ (Nat.log 2 m + k) := by
        rw [← pow_add]
        exact Nat.pow_le_pow_right Nat.two_pos (by omega)
    _ ≤ m * 2 ^ k := by
        rw [pow_add]
        exact Nat.mul_le_mul_right _ (Nat.pow_log_le_self 2 hm)

/-- The dividend is shifted until its quotient has enough bits for the canonical form. -/
theorem roundsTo_div {a b : UnpackedFloat} (ha : IsNumber a) (hb : IsNumber b) (h0 : toRat b ≠ 0) :
    RoundsTo (toRat a / toRat b) (UnpackedFloat.div .binary64 a b) := by
  cases a <;> cases b
  case finite.finite s m e hm s' m' e' hm' =>
      simp only [UnpackedFloat.div, divCore]
      generalize hk : min (e - e') (Format.binary64.targetExponent
        (totalExponent m e - totalExponent m' e')) = k
      have hbits : (Format.binary64.mantissaBits : ℤ) = 53 := rfl
      have hmin : Format.binary64.minExponent = -1074 := rfl
      rw [Format.targetExponent, hbits, hmin, totalExponent, totalExponent, Nat.log2_eq_log_two,
        Nat.log2_eq_log_two] at hk
      obtain ⟨n, hn⟩ : ∃ n : ℕ, e - e' = k + n := ⟨(e - e' - k).toNat, by omega⟩
      have hshift : (e - e' - k).toNat = n := by omega
      have htarget : k ≤ target ((m <<< n) / m') k := by
        by_cases hlong : -1074 < k
        · have hlog := Nat.le_log_of_pow_le Nat.one_lt_two
            (two_pow_le_shiftLeft_div (j := 52) (k := n) hm.ne' hm'.ne' (by omega))
          unfold target
          omega
        · unfold target
          omega
      have hm0 : (0 : ℝ) < m' := by exact_mod_cast hm'
      have hpos : (0 : ℝ) < (m <<< n : ℕ) / m' := by
        rw [Nat.shiftLeft_eq]
        positivity
      have hvalue : (toRat (.finite s m e hm) / toRat (.finite s' m' e' hm') : ℝ) =
          unit (s / s') * ((m <<< n : ℕ) / m' * 2 ^ k) := by
        have hexponent : (2 : ℝ) ^ e = 2 ^ k * 2 ^ n * 2 ^ e' := by
          rw [← zpow_natCast, ← zpow_add₀ two_ne_zero, ← zpow_add₀ two_ne_zero, ← hn,
            sub_add_cancel]
        rw [toRat_finite, toRat_finite, unit_div, hexponent, Nat.shiftLeft_eq]
        push_cast
        field_simp
      rw [hshift, hvalue]
      exact roundsTo_roundWithAccuracy hpos (cutFrom_div _ hm') htarget (s / s')
  case zero.zero => exact absurd rfl h0
  case zero.finite => exact ⟨trivial, by simp [UnpackedFloat.div, toRat_zero, rounded_zero]⟩
  case finite.zero => exact absurd rfl h0
  all_goals first | (cases ha; done) | cases hb

/-- A root of a whole number and what is left of it. It never lies in the middle between two. -/
theorem cutFrom_sqrt (n : ℕ) : CutFrom √n (ExtendedMantissa.ofMantissaAndAccuracy (Nat.sqrt n)
    (if n - Nat.sqrt n * Nat.sqrt n = 0 then .exact
      else .inexact (if n - Nat.sqrt n * Nat.sqrt n ≤ Nat.sqrt n then .lt else .gt))) := by
  have hle := Nat.sqrt_le n
  have hlt := Nat.lt_succ_sqrt n
  generalize Nat.sqrt n = r at *
  split
  · rename_i hzero
    obtain rfl : n = r * r := by omega
    rw [Nat.cast_mul, Real.sqrt_mul_self r.cast_nonneg]
    exact cutFrom_exact r
  · rename_i hrest
    have hlt' : (r : ℝ) < √n := by
      refine Real.lt_sqrt_of_sq_lt ?_
      rw [sq]
      exact_mod_cast (by omega : r * r < n)
    have hsucc : √n < r + 1 := by
      rw [Real.sqrt_lt' (by positivity), sq]
      exact_mod_cast hlt
    refine cutFrom_inexact hlt' hsucc ?_
    have hmiddle : (2 * r + 1) ^ 2 = 4 * (r * r) + 4 * r + 1 := by ring
    split
    · have hnat : n * 2 ^ 2 < (2 * r + 1) ^ 2 := by omega
      rw [compare_lt_iff_lt, ← lt_div_iff₀' two_pos, Real.sqrt_lt' (by positivity), div_pow,
        lt_div_iff₀ (by positivity)]
      exact_mod_cast hnat
    · have hnat : (2 * r + 1) ^ 2 < n * 2 ^ 2 := by omega
      rw [compare_gt_iff_gt, ← div_lt_iff₀' two_pos, Real.lt_sqrt (by positivity), div_pow,
        div_lt_iff₀ (by positivity)]
      exact_mod_cast hnat

theorem eq_positive_of_nonneg {s : Sign} {m : ℕ} {e : ℤ} {hm : 0 < m}
    (h : 0 ≤ toRat (.finite s m e hm)) : s = .positive := by
  cases s with
  | positive => rfl
  | negative =>
      have hpos : (0 : ℝ) < m * 2 ^ e := by positivity
      have hcast : (0 : ℝ) ≤ toRat (.finite .negative m e hm) := by exact_mod_cast h
      simp only [toRat_finite, unit, Sign.apply, Int.cast_neg, Int.cast_one, neg_one_mul] at hcast
      linarith

/-- The mantissa is shifted to an even exponent, where the root of the power is exact. -/
theorem roundsTo_sqrt {a : UnpackedFloat} (ha : IsNumber a) (h0 : 0 ≤ toRat a) :
    RoundsTo (√(toRat a)) (UnpackedFloat.sqrt .binary64 a) := by
  cases a with
  | finite s m e hm =>
      obtain rfl := eq_positive_of_nonneg h0
      simp only [UnpackedFloat.sqrt, sqrtCore]
      generalize hk : min (e.ediv 2) (Format.binary64.targetExponent
        ((totalExponent m e + 1).ediv 2)) = k
      have hbits : (Format.binary64.mantissaBits : ℤ) = 53 := rfl
      have hmin : Format.binary64.minExponent = -1074 := rfl
      rw [Format.targetExponent, hbits, hmin, totalExponent, Nat.log2_eq_log_two] at hk
      change min (e / 2) (max ((Nat.log 2 m + 1 + e + 1) / 2 - 53) (-1074)) = k at hk
      obtain ⟨n, hn⟩ : ∃ n : ℕ, e = 2 * k + n := ⟨(e - 2 * k).toNat, by omega⟩
      have hshift : (e - 2 * k).toNat = n := by omega
      have htarget : k ≤ target (Nat.sqrt (m <<< n)) k := by
        by_cases hlong : -1074 < k
        · have hroot : 2 ^ 52 ≤ Nat.sqrt (m <<< n) := by
            rw [Nat.le_sqrt, ← pow_add]
            refine Nat.pow_le_of_le_log ?_ ?_
            · rw [Nat.shiftLeft_eq]
              positivity
            · rw [log_shiftLeft hm.ne']
              omega
          have hlog := Nat.le_log_of_pow_le Nat.one_lt_two hroot
          unfold target
          omega
        · unfold target
          omega
      have hpos : 0 < √(m <<< n : ℕ) := by
        rw [Real.sqrt_pos, Nat.shiftLeft_eq]
        positivity
      have hvalue : √(toRat (.finite .positive m e hm) : ℝ) =
          unit .positive * (√(m <<< n : ℕ) * 2 ^ k) := by
        have hsquare : (m : ℝ) * 2 ^ e = (m <<< n : ℕ) * (2 ^ k) ^ 2 := by
          rw [hn, Nat.shiftLeft_eq, zpow_add₀ two_ne_zero, mul_comm 2 k, zpow_mul, zpow_two,
            zpow_natCast]
          push_cast
          ring
        have hone : unit .positive = 1 := by simp [unit, Sign.apply]
        rw [toRat_finite, hone, one_mul, one_mul, hsquare, Real.sqrt_mul (Nat.cast_nonneg _),
          Real.sqrt_sq (zpow_pos two_pos k).le]
      rw [hshift, hvalue]
      exact roundsTo_roundWithAccuracy hpos (cutFrom_sqrt _) htarget .positive
  | zero s => exact ⟨trivial, by simp [UnpackedFloat.sqrt, toRat_zero, rounded_zero]⟩
  | infinity s => cases ha
  | notANumber => cases ha

/-! ## Floats -/

/-- The number that a float stands for, zero for NaN and the infinities. -/
noncomputable def real (x : Float) : ℝ :=
  toRat x.toModel.unpack

theorem isNumber_unpack {x : Float} (h : x.isFinite = true) : IsNumber x.toModel.unpack := by
  change x.toModel.unpack.isFinite = true at h
  cases hx : x.toModel.unpack with
  | finite s m e hm => exact (canonical_of_unpack hx).1
  | zero s => trivial
  | infinity s =>
      rw [hx] at h
      cases h
  | notANumber =>
      rw [hx] at h
      cases h

theorem spaced_real {x : Float} (h : x.isFinite = true) : Spaced (real x) :=
  spaced_toRat (isNumber_unpack h)

theorem repack_of_isFinite {a : UnpackedFloat} (ha : IsNumber a) (h : (repack a).isFinite = true) :
    repack a = a := by
  cases a with
  | zero s => exact repack_zero s
  | finite s m e hm =>
      rw [repack_finite ha] at h ⊢
      split at h
      · rename_i he
        exact if_pos he
      · cases h
  | infinity s => cases ha
  | notANumber => cases ha

theorem isFinite_repack {a : UnpackedFloat} (ha : IsNumber a)
    (h : |(toRat a : ℝ)| < 2 ^ (1024 : ℤ)) : (repack a).isFinite = true := by
  cases a with
  | zero s => rw [repack_zero]; rfl
  | finite s m e hm =>
      have he : e ≤ 971 := by
        by_contra hlarge
        have hfull : (2 ^ 52 : ℝ) ≤ m := by exact_mod_cast ha.full (by omega)
        have hexponent : (2 : ℝ) ^ (972 : ℤ) ≤ 2 ^ e := zpow_le_zpow_right₀ one_le_two (by omega)
        have habs : |(toRat (.finite s m e hm) : ℝ)| = m * 2 ^ e := by
          rw [toRat_finite, abs_unit_mul s (by positivity)]
        have hproduct : (2 : ℝ) ^ (1024 : ℤ) = 2 ^ 52 * 2 ^ (972 : ℤ) := by
          rw [← zpow_natCast, ← zpow_add₀ two_ne_zero]
          norm_num
        rw [habs, hproduct] at h
        exact h.not_ge (mul_le_mul hfull hexponent (by positivity) (by positivity))
      rw [repack_finite ha, if_pos he]
      rfl
  | infinity s => cases ha
  | notANumber => cases ha

/-- The float next to `y`, if that is finite. -/
structure Represents (y : ℝ) (x : Float) : Prop where
  isFinite : |y| ≤ 2 ^ (1023 : ℤ) → x.isFinite = true
  real_eq : x.isFinite = true → real x = rounded y

/-- A result that is rounded and then packed represents its exact value. -/
theorem RoundsTo.represents {y : ℝ} {a : UnpackedFloat} (h : RoundsTo y a) {x : Float}
    (hx : x.toModel.unpack = repack a) : Represents y x where
  isFinite hy := by
    show x.toModel.unpack.isFinite = true
    rw [hx]
    refine isFinite_repack h.isNumber ?_
    rw [h.toRat_eq]
    exact (abs_rounded_le (by decide) hy).trans_lt (zpow_lt_zpow_right₀ one_lt_two (by decide))
  real_eq hfinite := by
    change x.toModel.unpack.isFinite = true at hfinite
    rw [hx] at hfinite
    rw [real, hx, repack_of_isFinite h.isNumber hfinite, h.toRat_eq]

section

variable {x y : Float} (hx : x.isFinite = true) (hy : y.isFinite = true)
include hx

theorem represents_sqrt (h0 : 0 ≤ real x) : Represents √(real x) x.sqrt :=
  (roundsTo_sqrt (isNumber_unpack hx) (Rat.cast_nonneg.mp h0)).represents rfl

include hy

theorem represents_add : Represents (real x + real y) (x + y) :=
  (roundsTo_add (isNumber_unpack hx) (isNumber_unpack hy)).represents rfl

theorem represents_sub : Represents (real x - real y) (x - y) :=
  (roundsTo_sub (isNumber_unpack hx) (isNumber_unpack hy)).represents rfl

theorem represents_mul : Represents (real x * real y) (x * y) :=
  (roundsTo_mul (isNumber_unpack hx) (isNumber_unpack hy)).represents rfl

theorem represents_div (h0 : real y ≠ 0) : Represents (real x / real y) (x / y) :=
  (roundsTo_div (isNumber_unpack hx) (isNumber_unpack hy) (Rat.cast_ne_zero.mp h0)).represents rfl

end

theorem isFinite_of_value {x : Binary64} {negative : Bool} {significand shift : ℕ}
    (h : x.value = .finite negative significand shift) : x.toFloat.isFinite = true := by
  by_contra hfinite
  obtain hnan | ⟨_, hinfinite⟩ := Binary64.isFinite_eq_false_iff.mp (Bool.eq_false_iff.mpr hfinite)
  · rw [h] at hnan
    cases hnan
  · rw [h] at hinfinite
    cases hinfinite

/-- The number that the bits stand for. -/
theorem real_toFloat {x : Binary64} {negative : Bool} {significand shift : ℕ}
    (h : x.value = .finite negative significand shift) :
    real x.toFloat =
      unit (Binary64.Value.sign negative) * (significand * 2 ^ (shift - 1074 : ℤ)) := by
  rw [real, Binary64.unpack_toFloat, h, Binary64.Value.unpacked]
  split
  · rename_i hzero
    rw [toRat_zero, hzero]
    simp
  · rw [toRat_finite]

theorem real_neg (x : Float) : real (-x) = -real x := by
  rw [real, Tolerance.unpack_neg, toRat_neg, Rat.cast_neg, real]

theorem real_zero : real 0 = 0 := by
  rw [real, Tolerance.unpack_zero, toRat_zero, Rat.cast_zero]

/-! ## Comparison of finite numbers -/

theorem real_le_of_le {x y : Float} (hx : x.isFinite = true) (hy : y.isFinite = true) (h : x ≤ y) :
    real x ≤ real y :=
  Rat.cast_le.mpr (toRat_le_of_le (isNumber_unpack hx) (isNumber_unpack hy) (le_iff.mp h))

theorem lt_iff_real_lt {x y : Float} (hx : x.isFinite = true) (hy : y.isFinite = true) :
    x < y ↔ real x < real y := by
  constructor
  · intro h
    refine lt_of_le_of_ne (real_le_of_le hx hy (le_of_lt h)) fun heq => ?_
    have hagree := agree_of_toRat hx hy (Rat.cast_injective heq)
    exact not_lt_of_lt h (hagree.lt_left.mp (hagree.lt_right.mpr h))
  · intro h
    refine lt_of_not_le (exists_rank?_of_isFinite hy) (exists_rank?_of_isFinite hx) fun hle => ?_
    exact h.not_ge (real_le_of_le hy hx hle)

theorem le_iff_real_le {x y : Float} (hx : x.isFinite = true) (hy : y.isFinite = true) :
    x ≤ y ↔ real x ≤ real y := by
  refine ⟨real_le_of_le hx hy, fun h => ?_⟩
  refine le_of_not_lt (exists_rank?_of_isFinite hy) (exists_rank?_of_isFinite hx) fun hlt => ?_
  exact h.not_gt ((lt_iff_real_lt hy hx).mp hlt)

/-- A positive result that is too large becomes positive infinity. -/
theorem unpack_of_overflow {x : Float} {y : ℝ} {a : UnpackedFloat} (h : RoundsTo y a)
    (hpos : 0 < rounded y) (hx : x.toModel.unpack = repack a) (hfinite : x.isFinite = false) :
    x.toModel.unpack = .infinity .positive := by
  change x.toModel.unpack.isFinite = false at hfinite
  obtain ⟨hnumber, hvalue⟩ := h
  rw [← hvalue] at hpos
  rw [hx] at hfinite ⊢
  cases a with
  | zero s => exact absurd hpos (by simp [toRat_zero])
  | finite s m e hm =>
      obtain rfl := eq_positive_of_nonneg (Rat.cast_nonneg.mp hpos.le)
      rw [repack_finite hnumber] at hfinite ⊢
      split at hfinite
      · cases hfinite
      · rename_i hlarge
        exact if_neg hlarge
  | infinity s => cases hnumber
  | notANumber => cases hnumber

theorem unpack_one : (1 : Float).toModel.unpack = .finite .positive (2 ^ 52) (-52) (by decide) := by
  rfl

theorem real_one : real 1 = 1 := by
  rw [real, unpack_one, toRat_finite]
  norm_num [unit, Sign.apply]

theorem real_half : real 0.5 = 2 ^ (-1 : ℤ) := by
  have hunpack : (0.5 : Float).toModel.unpack = .finite .positive (2 ^ 52) (-53) (by decide) := by
    rfl
  rw [real, hunpack, toRat_finite]
  norm_num [unit, Sign.apply]

/-- The quotient of a positive number by one that is not larger is not rounded below one. -/
theorem one_le_div {x y : Float} (hx : x.isFinite = true) (hy : y.isFinite = true) (hpos : 0 < y)
    (hle : y ≤ x) : 1 ≤ x / y := by
  have hpos' : 0 < real y := real_zero ▸ (lt_iff_real_lt (by decide) hy).mp hpos
  have hquotient : 1 ≤ real x / real y := (one_le_div₀ hpos').mpr ((le_iff_real_le hy hx).mp hle)
  have hrounds := roundsTo_div (isNumber_unpack hx) (isNumber_unpack hy)
    (Rat.cast_ne_zero.mp hpos'.ne')
  have hone : 1 ≤ rounded (real x / real y) :=
    le_rounded (e := 0) (by decide) (by rwa [zpow_zero])
  by_cases hfinite : (x / y).isFinite = true
  · rwa [le_iff_real_le (by decide) hfinite, real_one,
      (represents_div hx hy hpos'.ne').real_eq hfinite]
  · have hinfinite : (x / y).toModel.unpack = .infinity .positive :=
      unpack_of_overflow hrounds (zero_lt_one.trans_le hone) (unpack_div x y)
        (Bool.eq_false_iff.mpr hfinite)
    rw [le_iff, unpack_one, hinfinite]
    rfl

end MeshRing.Arithmetic
