import MeshRing.Proofs.Comparisons

/-! # Numbers behind the bits -/

namespace MeshRing

open Float.Model UnpackedFloat

namespace Binary64

def Value.sign (negative : Bool) : Sign :=
  if negative then .negative else .positive

/-- A value in the form in which arithmetic takes it. -/
def Value.unpacked : Value → UnpackedFloat
  | .nan => .notANumber
  | .infinite negative => .infinity (sign negative)
  | .finite negative significand shift =>
    if h : significand = 0 then .zero (sign negative)
    else .finite (sign negative) significand (shift - 1074) (Nat.pos_of_ne_zero h)

/-! ## The fields of the bits -/

section

variable (b : BitVec Format.binary64.numBits)

theorem toNat_unpackMantissa :
    (@unpackMantissa .binary64 b).toNat = b.toNat % Nat.pow 2 52 := by
  simp [unpackMantissa, BitVec.extractLsb, BitVec.extractLsb']

theorem toNat_unpackExponent :
    (@unpackExponent .binary64 b).toNat = b.toNat / Nat.pow 2 52 % Nat.pow 2 11 := by
  simp [unpackExponent, BitVec.extractLsb, BitVec.extractLsb', Nat.shiftRight_eq_div_pow]

theorem toNat_unpackSign :
    (@unpackSign .binary64 b).toNat = b.toNat / Nat.pow 2 63 := by
  have hlt : b.toNat < Nat.pow 2 64 := b.isLt
  simp only [Nat.pow_eq, Nat.reducePow] at hlt ⊢
  simp [unpackSign, BitVec.extractLsb, BitVec.extractLsb', Nat.shiftRight_eq_div_pow]
  omega

theorem ofBitVec_unpackSign : Sign.ofBitVec (@unpackSign .binary64 b) =
    Value.sign (decide (Nat.pow 2 63 ≤ b.toNat)) := by
  have hlt : b.toNat < Nat.pow 2 64 := b.isLt
  have hiff : @unpackSign .binary64 b = 0#1 ↔ ¬ Nat.pow 2 63 ≤ b.toNat := by
    rw [← BitVec.toNat_inj, toNat_unpackSign]
    simp only [Nat.pow_eq, Nat.reducePow, BitVec.toNat_ofNat] at hlt ⊢
    omega
  by_cases h : Nat.pow 2 63 ≤ b.toNat
  · simp only [Sign.ofBitVec, hiff, h, not_true, ite_false, Value.sign, decide_true, ite_true]
  · simp only [Sign.ofBitVec, hiff, h, not_false_iff, ite_true, Value.sign, decide_false]
    rfl

theorem toNat_implicit_append (m : BitVec 52) : (1#1 ++ m).toNat = Nat.pow 2 52 + m.toNat := by
  rw [BitVec.toNat_append, ← Nat.shiftLeft_add_eq_or_of_lt m.isLt]
  rfl

end

/-- Arithmetic and `value` read the same number off the bits. -/
theorem unpack_toFloat (x : Binary64) : x.toFloat.toModel.unpack = x.value.unpacked := by
  have hpack : x.toFloat.toModel.unpack = UnpackedFloat.unpack .binary64 x.bits.toBitVec :=
    Tolerance.unpack_pack_unpack x.bits.toBitVec
  have hsign := ofBitVec_unpackSign x.bits.toBitVec
  have hexponent := toNat_unpackExponent x.bits.toBitVec
  have hfraction := toNat_unpackMantissa x.bits.toBitVec
  rw [hpack, UnpackedFloat.unpack, value]
  simp only [UInt64.toNat_toBitVec] at hsign hexponent hfraction ⊢
  simp only [← BitVec.toNat_inj, hsign, hexponent, hfraction, toNat_implicit_append]
  have hbias : (Format.binary64.exponentBias : ℤ) + (52 : ℕ) = 1075 := rfl
  have hones : (-1#11).toNat = 2047 := rfl
  simp only [hbias, hones, BitVec.toNat_ofNat, Nat.zero_mod]
  generalize x.bits.toNat / Nat.pow 2 52 % Nat.pow 2 11 = exponent
  by_cases htop : exponent = 2047
  · simp only [htop, ite_true]
    split <;> rfl
  · by_cases hbottom : exponent = 0
    · simp only [hbottom, ite_true, Value.unpacked]
      rfl
    · have hpos : Nat.pow 2 52 + x.bits.toNat % Nat.pow 2 52 ≠ 0 := by simp
      have hshift : (exponent : ℤ) - 1075 = ((exponent - 1 : ℕ) : ℤ) - 1074 := by omega
      simp only [htop, hbottom, ite_false, Value.unpacked, hpos, dite_false, hshift]

/-- A significand has 53 bits, or fewer at the smallest shift. -/
theorem bounds_of_value {x : Binary64} {negative : Bool} {significand shift : ℕ}
    (h : x.value = .finite negative significand shift) :
    significand < 2 ^ 53 ∧ shift ≤ 2045 ∧ (shift ≠ 0 → 2 ^ 52 ≤ significand) := by
  have hfraction : x.bits.toNat % Nat.pow 2 52 < 2 ^ 52 := Nat.mod_lt _ (Nat.two_pow_pos 52)
  have hexponent : x.bits.toNat / Nat.pow 2 52 % Nat.pow 2 11 < 2 ^ 11 :=
    Nat.mod_lt _ (Nat.two_pow_pos 11)
  simp only [value] at h
  split at h
  · split at h <;> cases h
  · split at h
    · obtain ⟨-, rfl, rfl⟩ := Value.finite.inj h
      omega
    · obtain ⟨-, rfl, rfl⟩ := Value.finite.inj h
      simp only [Nat.pow_eq] at *
      omega

/-- For arithmetic, a number is NaN or infinite exactly when its bits say so. -/
theorem isFinite_eq_false_iff {x : Binary64} :
    x.isFinite = false ↔ x.value = .nan ∨ ∃ negative, x.value = .infinite negative := by
  change x.toFloat.toModel.unpack.isFinite = false ↔ _
  rw [unpack_toFloat]
  cases x.value with
  | nan => simp [Value.unpacked, UnpackedFloat.isFinite]
  | infinite negative => simp [Value.unpacked, UnpackedFloat.isFinite]
  | finite negative significand shift =>
      simp only [Value.unpacked]
      split <;> simp [UnpackedFloat.isFinite]

end Binary64

/-- One of the coordinates is NaN or infinite. -/
def Point.Escapes (p : Point) : Prop :=
  ∃ x ∈ [p.u, p.v], x.value = .nan ∨ ∃ negative, x.value = .infinite negative

theorem Point.isFinite_eq_false_iff {p : Point} : p.isFinite = false ↔ p.Escapes := by
  rw [isFinite, Bool.and_eq_false_iff, Escapes]
  simp only [← Binary64.isFinite_eq_false_iff, List.mem_cons, List.not_mem_nil, or_false,
    exists_eq_or_imp, exists_eq_left]

instance (p : Point) : Decidable p.Escapes :=
  decidable_of_iff (p.isFinite = false) Point.isFinite_eq_false_iff

end MeshRing
