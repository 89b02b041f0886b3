import MeshRing.Proofs.Numbers

/-! # NaN, infinities and zeros on their way through the operations -/

namespace MeshRing.Arithmetic

open Float.Model UnpackedFloat Tolerance

/-- A result as it is read back once it is packed. -/
def repack (a : UnpackedFloat) : UnpackedFloat :=
  UnpackedFloat.unpack .binary64 (UnpackedFloat.pack .binary64 a)

section

variable (x y : Float)

theorem unpack_sub : (x - y).toModel.unpack =
    repack (UnpackedFloat.sub .binary64 x.toModel.unpack y.toModel.unpack) := rfl

theorem unpack_mul : (x * y).toModel.unpack =
    repack (UnpackedFloat.mul .binary64 x.toModel.unpack y.toModel.unpack) := rfl

theorem unpack_div : (x / y).toModel.unpack =
    repack (UnpackedFloat.div .binary64 x.toModel.unpack y.toModel.unpack) := rfl

end

@[simp] theorem repack_notANumber : repack .notANumber = .notANumber := by rfl

@[simp] theorem repack_infinity (s : Sign) : repack (.infinity s) = .infinity s := by
  cases s <;> rfl

@[simp] theorem repack_zero (s : Sign) : repack (.zero s) = .zero s := by
  cases s <;> rfl

/-! ## Finite results -/

section

variable {a b : UnpackedFloat} {spec : Format}

theorem of_isFinite_repack (h : (repack a).isFinite = true) : a.isFinite = true := by
  cases a with
  | notANumber => exact h
  | infinity s => rwa [repack_infinity] at h
  | zero s => rfl
  | finite s m e hm => rfl

theorem of_isFinite_add (h : (UnpackedFloat.add spec a b).isFinite = true) :
    a.isFinite = true ∧ b.isFinite = true := by
  cases a <;> cases b
  case infinity.infinity =>
      simp only [UnpackedFloat.add] at h
      split at h <;> cases h
  all_goals first | exact ⟨rfl, rfl⟩ | cases h

theorem of_isFinite_sub (h : (UnpackedFloat.sub spec a b).isFinite = true) :
    a.isFinite = true ∧ b.isFinite = true := by
  cases a <;> cases b
  case infinity.infinity =>
      simp only [UnpackedFloat.sub] at h
      split at h <;> cases h
  all_goals first | exact ⟨rfl, rfl⟩ | cases h

theorem of_isFinite_mul (h : (UnpackedFloat.mul spec a b).isFinite = true) :
    a.isFinite = true ∧ b.isFinite = true := by
  cases a <;> cases b <;> first | exact ⟨rfl, rfl⟩ | cases h

theorem of_isFinite_div (h : (UnpackedFloat.div spec a b).isFinite = true) : a.isFinite = true := by
  cases a <;> cases b <;> first | rfl | cases h

theorem of_isFinite_abs (h : a.abs.isFinite = true) : a.isFinite = true := by
  cases a <;> first | rfl | cases h

theorem of_isFinite_sqrt (h : (UnpackedFloat.sqrt spec a).isFinite = true) : a.isFinite = true := by
  rcases a with (_ | _) | _ | _ | _ <;> first | rfl | cases h

end

section

variable {x y : Float}

theorem isFinite_of_add (h : (x + y).isFinite = true) : x.isFinite = true ∧ y.isFinite = true :=
  of_isFinite_add (of_isFinite_repack h)

theorem isFinite_of_sub (h : (x - y).isFinite = true) : x.isFinite = true ∧ y.isFinite = true :=
  of_isFinite_sub (of_isFinite_repack h)

theorem isFinite_of_mul (h : (x * y).isFinite = true) : x.isFinite = true ∧ y.isFinite = true :=
  of_isFinite_mul (of_isFinite_repack h)

theorem isFinite_of_div (h : (x / y).isFinite = true) : x.isFinite = true :=
  of_isFinite_div (of_isFinite_repack h)

theorem isFinite_of_abs (h : x.abs.isFinite = true) : x.isFinite = true :=
  of_isFinite_abs (of_isFinite_repack h)

theorem isFinite_of_sqrt (h : x.sqrt.isFinite = true) : x.isFinite = true :=
  of_isFinite_sqrt (of_isFinite_repack h)

end

theorem isFinite_neg (x : Float) : (-x).isFinite = x.isFinite := by
  show (-x).toModel.unpack.isFinite = x.toModel.unpack.isFinite
  rw [unpack_neg]
  cases x.toModel.unpack <;> rfl

/-! ## Zero and NaN -/

/-- Zero or NaN: what lies on neither side of zero. -/
def Sideless : UnpackedFloat → Prop
  | .notANumber | .zero _ => True
  | .infinity _ | .finite .. => False

section

variable {a b : UnpackedFloat} {spec : Format}

theorem Sideless.repacked (h : Sideless a) : Sideless (repack a) := by
  cases a with
  | notANumber => rwa [repack_notANumber]
  | zero s => rwa [repack_zero]
  | infinity s => cases h
  | finite s m e hm => cases h

theorem Sideless.rank?_eq_zero (h : Sideless a) {i : ℤ ×ₗ ℤ ×ₗ ℤ} (hi : rank? a = some i) :
    i = 0 := by
  cases a with
  | notANumber => cases hi
  | zero s => exact (Option.some.inj hi).symm
  | infinity s => cases h
  | finite s m e hm => cases h

theorem Sideless.abs (h : Sideless a) : Sideless a.abs := by
  cases a <;> trivial

theorem Sideless.mul (h : Sideless a) (b : UnpackedFloat) :
    Sideless (UnpackedFloat.mul spec a b) := by
  cases a <;> cases b <;> trivial

theorem Sideless.div (h : Sideless a) (b : UnpackedFloat) :
    Sideless (UnpackedFloat.div spec a b) := by
  cases a <;> cases b <;> trivial

/-- By NaN the quotient is NaN, and by an infinity it is zero or NaN. -/
theorem sideless_div (a : UnpackedFloat) (h : b.isFinite = false) :
    Sideless (UnpackedFloat.div spec a b) := by
  cases a <;> cases b <;> trivial

theorem Sideless.sub (h : Sideless a) (h' : Sideless b) :
    Sideless (UnpackedFloat.sub spec a b) := by
  rcases a with s | _ | (_ | _) | _ <;> rcases b with s' | _ | (_ | _) | _ <;> trivial

theorem sideless_sub_self (a : UnpackedFloat) : Sideless (UnpackedFloat.sub spec a a) := by
  rcases a with (_ | _) | _ | (_ | _) | ⟨s, m, e, hm⟩
  case finite =>
      simp only [UnpackedFloat.sub, sub_self]
      trivial
  all_goals trivial

end

section

variable {x : Float} (h : Sideless x.toModel.unpack)
include h

theorem not_pos_of_sideless : ¬ 0 < x := by
  intro hlt
  obtain ⟨i, j, hi, hj, hij⟩ := lt_iff_rank.mp hlt
  rw [unpack_zero] at hi
  obtain rfl : 0 = i := Option.some.inj hi
  exact hij.ne (h.rank?_eq_zero hj).symm

theorem not_neg_of_sideless : ¬ x < 0 := by
  intro hlt
  obtain ⟨i, j, hi, hj, hij⟩ := lt_iff_rank.mp hlt
  rw [unpack_zero] at hj
  obtain rfl : 0 = j := Option.some.inj hj
  exact hij.ne (h.rank?_eq_zero hi)

end

/-- A number that is neither NaN, nor zero, nor below zero is above it. -/
theorem pos_of_not_neg {x : Float} (hside : ¬ Sideless x.toModel.unpack) (hneg : ¬ x < 0) :
    0 < x := by
  rw [lt_iff, unpack_zero] at hneg ⊢
  rcases hx : x.toModel.unpack with (_ | _) | _ | _ | ⟨_ | _, m, e, hm⟩ <;> rw [hx] at hside hneg
  case infinity.positive => rfl
  case finite.positive => rfl
  case infinity.negative => exact absurd rfl hneg
  case finite.negative => exact absurd rfl hneg
  all_goals exact absurd trivial hside

/-! ## Numbers up to the sign of a zero -/

/-- A number without the sign that a zero may have. -/
def plain : UnpackedFloat → UnpackedFloat
  | .zero _ => .zero .positive
  | a => a

/-- The numbers are the same, up to the sign of a zero. NaN agrees with itself. -/
def Agree (x y : Float) : Prop :=
  plain x.toModel.unpack = plain y.toModel.unpack

section

variable (a b : UnpackedFloat) {spec : Format}

theorem plain_repack : plain (repack a) = plain (repack (plain a)) := by
  cases a with
  | zero s => cases s <;> rfl
  | _ => rfl

theorem plain_neg : plain a.neg = plain (plain a).neg := by
  cases a <;> rfl

theorem plain_sub : plain (UnpackedFloat.sub spec a b) =
    plain (UnpackedFloat.sub spec (plain a) (plain b)) := by
  rcases a with s | _ | (_ | _) | ⟨s, m, e, hm⟩ <;>
    rcases b with s' | _ | (_ | _) | ⟨s', m', e', hm'⟩ <;> rfl

theorem plain_mul : plain (UnpackedFloat.mul spec a b) =
    plain (UnpackedFloat.mul spec (plain a) (plain b)) := by
  cases a <;> cases b <;> rfl

/-- The sign of a zero that is divided by stays: it decides between the infinities. -/
theorem plain_div : plain (UnpackedFloat.div spec a b) =
    plain (UnpackedFloat.div spec (plain a) b) := by
  cases a <;> cases b <;> rfl

theorem rank?_plain : rank? (plain a) = rank? a := by
  cases a <;> rfl

theorem sideless_plain : Sideless (plain a) ↔ Sideless a := by
  cases a <;> rfl

end

namespace Agree

variable {x y z w : Float}

theorem of_beq (h : (x == y) = true) : Agree x y := by
  obtain rfl | ⟨rfl, rfl⟩ | ⟨rfl, rfl⟩ := eq_or_zeros h
  · rfl
  · rw [Agree, unpack_zero, unpack_neg_zero]
    rfl
  · rw [Agree, unpack_zero, unpack_neg_zero]
    rfl

theorem symm (h : Agree x y) : Agree y x := Eq.symm h

theorem trans (h : Agree x y) (h' : Agree y z) : Agree x z := Eq.trans h h'

theorem neg (h : Agree x y) : Agree (-x) (-y) := by
  rw [Agree, unpack_neg, unpack_neg, plain_neg, h, ← plain_neg]

theorem sub (h : Agree x y) (h' : Agree z w) : Agree (x - z) (y - w) := by
  rw [Agree, unpack_sub, unpack_sub, plain_repack, plain_sub, h, h', ← plain_sub, ← plain_repack]

theorem mul (h : Agree x y) (h' : Agree z w) : Agree (x * z) (y * w) := by
  rw [Agree, unpack_mul, unpack_mul, plain_repack, plain_mul, h, h', ← plain_mul, ← plain_repack]

theorem div (h : Agree x y) (z : Float) : Agree (x / z) (y / z) := by
  rw [Agree, unpack_div, unpack_div, plain_repack, plain_div, h, ← plain_div, ← plain_repack]

theorem rank?_eq (h : Agree x y) : rank? x.toModel.unpack = rank? y.toModel.unpack := by
  rw [← rank?_plain, h, rank?_plain]

theorem neg_neg (x : Float) : Agree (- -x) x := by
  have hneg (a : UnpackedFloat) : a.neg.neg = a := by
    rcases a with (_ | _) | _ | (_ | _) | ⟨_ | _, m, e, hm⟩ <;> rfl
  rw [Agree, unpack_neg, unpack_neg, hneg]

theorem lt_left (h : Agree x y) : x < z ↔ y < z := by
  rw [lt_iff_rank, lt_iff_rank, h.rank?_eq]

theorem lt_right (h : Agree x y) : z < x ↔ z < y := by
  rw [lt_iff_rank, lt_iff_rank, h.rank?_eq]

theorem sideless_sub (h : Agree x y) : Sideless (x - y).toModel.unpack := by
  have hself : Agree (x - y) (y - y) := h.sub rfl
  rw [← sideless_plain, hself, sideless_plain]
  exact (sideless_sub_self _).repacked

end Agree

/-! ## Exchanged and negated operands -/

section

variable (a b : UnpackedFloat) {spec : Format}

theorem mul_unpacked_comm : UnpackedFloat.mul spec a b = UnpackedFloat.mul spec b a := by
  have hsign (s t : Sign) : s * t = t * s := by cases s <;> cases t <;> rfl
  cases a <;> cases b
  case finite.finite s m e hm s' m' e' hm' =>
      simp only [UnpackedFloat.mul, hsign s s', Nat.mul_comm m m', add_comm e e']
  all_goals first | rfl | simp only [UnpackedFloat.mul, hsign]

theorem mul_self_plain :
    UnpackedFloat.mul spec (plain a) (plain a) = UnpackedFloat.mul spec a a := by
  rcases a with s | _ | (_ | _) | ⟨s, m, e, hm⟩ <;> rfl

theorem mul_self_neg : UnpackedFloat.mul spec a.neg a.neg = UnpackedFloat.mul spec a a := by
  rcases a with (_ | _) | _ | (_ | _) | ⟨_ | _, m, e, hm⟩ <;> rfl

theorem roundWithAccuracy_neg (s : Sign) (m : ℕ) (e : ℤ) (accuracy : Accuracy) :
    roundWithAccuracy spec (-s) m e accuracy = (roundWithAccuracy spec s m e accuracy).neg := by
  simp only [roundWithAccuracy]
  split <;> rfl

theorem div_neg_left : UnpackedFloat.div spec a.neg b = (UnpackedFloat.div spec a b).neg := by
  have hsign (s t : Sign) : -s / t = -(s / t) := by cases s <;> cases t <;> rfl
  cases a <;> cases b
  case finite.finite s m e hm s' m' e' hm' =>
      simp only [UnpackedFloat.div, UnpackedFloat.neg, hsign, roundWithAccuracy_neg]
  all_goals first | rfl | simp only [UnpackedFloat.div, UnpackedFloat.neg, hsign]

/-- Rounding is symmetric about zero, but a difference that cancels is a
positive zero both ways. -/
theorem normalize_neg (n : ℤ) (e : ℤ) :
    plain (UnpackedFloat.normalize spec (-n) e .positive) =
      plain (UnpackedFloat.normalize spec n e .positive).neg := by
  have hround (s : Sign) (m : ℕ) : round spec (-s) m e = (round spec s m e).neg :=
    roundWithAccuracy_neg _ _ _ _
  unfold UnpackedFloat.normalize
  rcases lt_trichotomy n 0 with h | rfl | h
  · rw [compare_gt_iff_gt.mpr (by omega : -n > 0), compare_lt_iff_lt.mpr h]
    exact congrArg plain (hround .negative _)
  · rfl
  · rw [compare_lt_iff_lt.mpr (by omega : -n < 0), compare_gt_iff_gt.mpr h, neg_neg]
    exact congrArg plain (hround .positive _)

theorem plain_sub_swap :
    plain (UnpackedFloat.sub spec b a) = plain (UnpackedFloat.sub spec a b).neg := by
  rcases a with (_ | _) | _ | (_ | _) | ⟨s, m, e, hm⟩ <;>
    rcases b with (_ | _) | _ | (_ | _) | ⟨s', m', e', hm'⟩
  case finite.finite =>
      simp only [UnpackedFloat.sub, min_comm e' e, ← normalize_neg, neg_sub]
  all_goals first | rfl | cases s' <;> rfl

end

/-- Packing commutes with negation: whether a number overflows, and how many bits it has,
does not depend on its sign. -/
theorem repack_neg (a : UnpackedFloat) : repack a.neg = (repack a).neg := by
  have hbits (s : Sign) (e : BitVec 11) (m : BitVec 52) :
      UnpackedFloat.unpack .binary64 (packComponents .binary64 (-s) e m) =
        (UnpackedFloat.unpack .binary64 (packComponents .binary64 s e m)).neg := by
    have h := unpack_packComponents_neg (packComponents .binary64 s e m)
    rwa [unpackSign_packComponents, unpackExponent_packComponents, unpackMantissa_packComponents,
      Sign.ofBitVec_toBitVec] at h
  cases a with
  | notANumber => rfl
  | infinity s => cases s <;> rfl
  | zero s => cases s <;> rfl
  | finite s m e hm =>
      simp only [repack, UnpackedFloat.neg, UnpackedFloat.pack]
      split
      · exact hbits s _ _
      · split <;> exact hbits s _ _

section

variable {x y : Float}

theorem lt_neg_comm : x < -y ↔ y < -x := by
  constructor
  · intro h
    exact (Agree.neg_neg y).lt_left.mp (neg_lt_neg h)
  · intro h
    exact (Agree.neg_neg x).lt_left.mp (neg_lt_neg h)

theorem mul_swap (x y : Float) : x * y = y * x :=
  congrArg (fun a => Float.ofModel (.pack a)) (mul_unpacked_comm _ _)

theorem agree_sub_swap (x y : Float) : Agree (y - x) (-(x - y)) := by
  rw [Agree, unpack_neg, unpack_sub, unpack_sub, plain_repack, plain_sub_swap, ← plain_repack,
    repack_neg]

theorem agree_neg_div (x y : Float) : Agree (-x / y) (-(x / y)) := by
  rw [Agree, unpack_neg, unpack_div, unpack_div, unpack_neg, div_neg_left, repack_neg]

/-- A square does not show the sign of its root. -/
theorem Agree.mul_self_eq (h : Agree x (-y)) : x * x = y * y := by
  have hsquare : UnpackedFloat.mul .binary64 x.toModel.unpack x.toModel.unpack =
      UnpackedFloat.mul .binary64 y.toModel.unpack y.toModel.unpack := by
    rw [← mul_self_plain, h, mul_self_plain, unpack_neg, mul_self_neg]
  exact congrArg (fun a => Float.ofModel (.pack a)) hsquare

end

/-! ## Signs -/

/-- The number is not NaN and carries the sign. -/
def HasSign (s : Sign) : UnpackedFloat → Prop
  | .infinity t | .zero t | .finite t .. => t = s
  | .notANumber => False

section

variable {a b : UnpackedFloat} {s : Sign} {spec : Format}

theorem hasSign_unpack (s : Sign) {e : BitVec 11} (he : e ≠ -1#11) (m : BitVec 52) :
    HasSign s (UnpackedFloat.unpack .binary64 (packComponents .binary64 s e m)) := by
  simp only [UnpackedFloat.unpack, unpackExponent_packComponents, unpackMantissa_packComponents,
    unpackSign_packComponents, Sign.ofBitVec_toBitVec, he, ite_false]
  split
  · split <;> exact rfl
  · exact rfl

theorem HasSign.repacked (h : HasSign s a) : HasSign s (repack a) := by
  cases a with
  | notANumber => cases h
  | infinity t => rwa [repack_infinity]
  | zero t => rwa [repack_zero]
  | finite t m e hm =>
      obtain rfl : t = s := h
      simp only [repack, UnpackedFloat.pack]
      split
      · rw [← UnpackedFloat.pack, ← repack, repack_infinity]
        rfl
      · split
        · rename_i hroom _
          refine hasSign_unpack t (fun h => hroom ?_) _
          have hones : (-1#11).toNat = 2047 := rfl
          have hmod := congrArg BitVec.toNat h
          rw [BitVec.toNat_ofNat, hones] at hmod
          exact Nat.succ_le_succ (hmod.symm.le.trans (Nat.mod_le _ _))
        · exact hasSign_unpack t (by decide) _

theorem hasSign_roundWithAccuracy (s : Sign) (m : ℕ) (e : ℤ) (accuracy : Accuracy) :
    HasSign s (roundWithAccuracy spec s m e accuracy) := by
  simp only [roundWithAccuracy]
  split <;> exact rfl

theorem exists_hasSign_normalize (n e : ℤ) :
    ∃ s, HasSign s (UnpackedFloat.normalize spec n e .positive) := by
  unfold UnpackedFloat.normalize
  split
  · exact ⟨_, hasSign_roundWithAccuracy _ _ _ _⟩
  · exact ⟨_, rfl⟩
  · exact ⟨_, hasSign_roundWithAccuracy _ _ _ _⟩

theorem hasSign_normalize {n : ℤ} (hn : 0 ≤ n) (e : ℤ) :
    HasSign .positive (UnpackedFloat.normalize spec n e .positive) := by
  unfold UnpackedFloat.normalize
  split
  · rename_i h
    exact absurd (compare_lt_iff_lt.mp h) (not_lt.mpr hn)
  · exact rfl
  · exact hasSign_roundWithAccuracy _ _ _ _

theorem exists_hasSign_sub (ha : a.isFinite = true) (hb : b.isFinite = true) :
    ∃ s, HasSign s (UnpackedFloat.sub spec a b) := by
  cases a <;> cases b
  case finite.finite => exact exists_hasSign_normalize _ _
  case zero.zero =>
      simp only [UnpackedFloat.sub]
      split <;> exact ⟨_, rfl⟩
  case zero.finite => exact ⟨_, rfl⟩
  case finite.zero => exact ⟨_, rfl⟩
  all_goals first | (cases ha; done) | cases hb

/-- A square carries no minus sign, and it is not NaN unless its root is. -/
theorem HasSign.mul_self (h : HasSign s a) : HasSign .positive (UnpackedFloat.mul spec a a) := by
  have hsign (t : Sign) : t * t = .positive := by cases t <;> rfl
  cases a with
  | notANumber => cases h
  | infinity t => exact hsign t
  | zero t => exact hsign t
  | finite t m e hm =>
      rw [UnpackedFloat.mul, hsign]
      exact hasSign_roundWithAccuracy _ _ _ _

theorem HasSign.add (ha : HasSign .positive a) (hb : HasSign .positive b) :
    HasSign .positive (UnpackedFloat.add spec a b) := by
  rcases a with _ | _ | _ | ⟨_, m, e, hm⟩ <;> cases ha <;>
    rcases b with _ | _ | _ | ⟨_, m', e', hm'⟩ <;> cases hb
  case finite.refl.finite.refl =>
      exact hasSign_normalize (add_nonneg (Int.natCast_nonneg _) (Int.natCast_nonneg _)) _
  all_goals exact rfl

theorem HasSign.sqrt (h : HasSign .positive a) : HasSign .positive (UnpackedFloat.sqrt spec a) := by
  cases a <;> cases h
  case finite.refl => exact hasSign_roundWithAccuracy _ _ _ _
  all_goals exact rfl

end

/-- A difference of finite numbers may overflow, but it is not NaN. -/
theorem exists_hasSign_of_isFinite {x y : Float} (hx : x.isFinite = true) (hy : y.isFinite = true) :
    ∃ s, HasSign s (x - y).toModel.unpack := by
  obtain ⟨s, hs⟩ := exists_hasSign_sub hx hy
  exact ⟨s, hs.repacked⟩

theorem nonneg_of_hasSign {x : Float} (h : HasSign .positive x.toModel.unpack) : 0 ≤ x := by
  rw [le_iff, unpack_zero]
  cases hx : x.toModel.unpack <;> rw [hx] at h <;> cases h <;> rfl

/-- Between zero and a finite number all numbers are finite. -/
theorem isFinite_of_le {x y : Float} (hx : 0 ≤ x) (h : x ≤ y) (hy : y.isFinite = true) :
    x.isFinite = true := by
  change y.toModel.unpack.isFinite = true at hy
  show x.toModel.unpack.isFinite = true
  rw [le_iff, unpack_zero] at hx
  rw [le_iff] at h
  rcases hx' : x.toModel.unpack with (_ | _) | _ | _ | _ <;> rw [hx'] at hx h
  case infinity.positive =>
      rcases hy' : y.toModel.unpack with _ | _ | _ | ⟨_ | _, _⟩ <;> rw [hy'] at hy h <;>
        first | (cases hy; done) | cases h
  case infinity.negative => cases hx
  case notANumber => cases hx
  all_goals rfl

end MeshRing.Arithmetic
