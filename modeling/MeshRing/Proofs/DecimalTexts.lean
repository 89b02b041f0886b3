import MeshRing.Proofs.Numbers

/-! Decimals read back from their texts, so a text tells which number it was written for. -/

namespace MeshRing

namespace Decimal

/-! ## Reading -/

/-- The number that the digits before and behind a point stand for. -/
def readPlain (cs : List Char) : ℚ :=
  let fraction := (cs.dropWhile (· != '.')).tail
  Nat.ofDigitChars 10 (cs.takeWhile (· != '.') ++ fraction) 0 * 10 ^ (-fraction.length : ℤ)

def readExponent : List Char → ℤ
  | '-' :: cs => -Nat.ofDigitChars 10 cs 0
  | cs => Nat.ofDigitChars 10 cs 0

/-- The number that a text without a sign stands for. -/
def read (cs : List Char) : ℚ :=
  readPlain (cs.takeWhile (· != 'e')) * 10 ^ readExponent (cs.dropWhile (· != 'e')).tail

/-- The number that a decimal stands for. -/
def value (d : Decimal) : ℚ :=
  Nat.ofDigitChars 10 d.digits 0 * 10 ^ (d.exponent + 1 - d.digits.length)

/-! ## Parts of a text -/

section

variable {c : Char} {xs ys : List Char} (h : c ∉ xs)
include h

theorem takeWhile_ne_append_cons : (xs ++ c :: ys).takeWhile (· != c) = xs := by
  rw [List.takeWhile_append_of_pos fun _ ha => bne_iff_ne.mpr (ne_of_mem_of_not_mem ha h)]
  simp

theorem dropWhile_ne_append_cons : (xs ++ c :: ys).dropWhile (· != c) = c :: ys := by
  rw [List.dropWhile_append_of_pos fun _ ha => bne_iff_ne.mpr (ne_of_mem_of_not_mem ha h)]
  simp

theorem takeWhile_ne : xs.takeWhile (· != c) = xs :=
  List.takeWhile_eq_self_iff.mpr fun _ ha => bne_iff_ne.mpr (ne_of_mem_of_not_mem ha h)

theorem dropWhile_ne : xs.dropWhile (· != c) = [] :=
  List.dropWhile_eq_nil_iff.mpr fun _ ha => bne_iff_ne.mpr (ne_of_mem_of_not_mem ha h)

end

theorem readPlain_whole {cs : List Char} (h : '.' ∉ cs) :
    readPlain cs = Nat.ofDigitChars 10 cs 0 := by
  simp [readPlain, takeWhile_ne h, dropWhile_ne h]

theorem readPlain_fraction {whole fraction : List Char} (h : '.' ∉ whole) :
    readPlain (whole ++ '.' :: fraction) =
      Nat.ofDigitChars 10 (whole ++ fraction) 0 * 10 ^ (-fraction.length : ℤ) := by
  simp only [readPlain, takeWhile_ne_append_cons h, dropWhile_ne_append_cons h, List.tail_cons]

theorem read_plain {cs : List Char} (h : 'e' ∉ cs) : read cs = readPlain cs := by
  simp [read, takeWhile_ne h, dropWhile_ne h, readExponent]

theorem isDigit_of_mem_toDigits {n : ℕ} {c : Char} (h : c ∈ Nat.toDigits 10 n) : c.isDigit = true :=
  Nat.isDigit_of_mem_toDigits (by decide) (by decide) h

theorem readExponent_toDigits (n : ℕ) : readExponent (Nat.toDigits 10 n) = n := by
  unfold readExponent
  split
  · rename_i cs heq
    have hminus : ('-').isDigit = true :=
      isDigit_of_mem_toDigits (n := n) (heq ▸ List.mem_cons_self)
    cases hminus
  · rw [Nat.ofDigitChars_ten_toDigits]

theorem readExponent_toString (e : ℤ) : readExponent (toString e).toList = e := by
  rw [Int.toString_eq_repr, Int.repr_eq_if]
  split
  · rw [Nat.toList_repr, readExponent_toDigits]
    omega
  · rw [String.toList_append, Nat.toList_repr]
    have hminus : "-".toList = ['-'] := rfl
    rw [hminus, List.singleton_append, readExponent, Nat.ofDigitChars_ten_toDigits]
    omega

/-! ## Texts read back -/

/-- A whole number is marked by nothing, or by a point and a zero. -/
def Layout.Readable (l : Layout) : Prop :=
  l.wholeMark = [] ∨ l.wholeMark = ['.', '0']

/-- At least one character, and all of them are digits. -/
structure Digits (cs : List Char) : Prop where
  ne_nil : cs ≠ []
  isDigit : ∀ c ∈ cs, c.isDigit = true

theorem Digits.not_mem {cs : List Char} (h : Digits cs) {c : Char} (hc : c.isDigit = false) :
    c ∉ cs :=
  fun hmem => Bool.eq_false_iff.mp hc (h.isDigit c hmem)

theorem not_mem_replicate_zero {c : Char} (hc : c.isDigit = false) (n : ℕ) :
    c ∉ List.replicate n '0' := by
  intro hmem
  obtain rfl := (List.mem_replicate.mp hmem).2
  cases hc

theorem ofDigitChars_zeros (n : ℕ) (cs : List Char) :
    Nat.ofDigitChars 10 (List.replicate n '0' ++ cs) 0 = Nat.ofDigitChars 10 cs 0 := by
  rw [Nat.ofDigitChars_append, Nat.ofDigitChars_replicate_zero, Nat.mul_zero]

section

variable {l : Layout} {d : Decimal} (hd : Digits d.digits)
include hd

omit hd in
theorem readPlain_marked (hl : l.Readable) {cs : List Char} (h : '.' ∉ cs) :
    readPlain (cs ++ l.wholeMark) = Nat.ofDigitChars 10 cs 0 := by
  obtain hmark | hmark := hl
  · rw [hmark, List.append_nil, readPlain_whole h]
  · have hzero (n : ℕ) : Nat.ofDigitChars 10 ['0'] n = 10 * n := by
      simp [Nat.ofDigitChars_cons]
    rw [hmark, readPlain_fraction h, Nat.ofDigitChars_append, hzero]
    simp [mul_comm (10 : ℚ)]

/-- A positional text reads back. Zeros make up for the places that the digits do not reach,
behind them or between them and the point. -/
theorem readPlain_positionalText (hl : l.Readable) : readPlain (l.positionalText d) = d.value := by
  obtain ⟨digits, exponent⟩ := d
  have hpoint : '.' ∉ digits := hd.not_mem rfl
  cases exponent with
  | ofNat e =>
      simp only [Layout.positionalText]
      split
      · rename_i hdrop
        obtain ⟨n, hn⟩ := Nat.exists_eq_add_of_le (List.drop_eq_nil_iff.mp hdrop)
        have hwhole : (digits.take (e + 1)).rightpad (e + 1) '0' =
            digits ++ List.replicate n '0' := by
          rw [List.rightpad, List.take_of_length_le (by omega), hn, Nat.add_sub_cancel_left]
        have hexponent : Int.ofNat e + 1 - digits.length = n := by
          rw [Int.ofNat_eq_natCast]
          omega
        have hpoints : '.' ∉ digits ++ List.replicate n '0' := by
          rw [List.mem_append, not_or]
          exact ⟨hpoint, not_mem_replicate_zero rfl n⟩
        rw [hwhole, readPlain_marked hl hpoints, Nat.ofDigitChars_append,
          Nat.ofDigitChars_replicate_zero, value, hexponent, zpow_natCast]
        push_cast
        ring
      · rename_i hdrop
        have hlt : e + 1 < digits.length := by
          by_contra hle
          exact hdrop (List.drop_eq_nil_iff.mpr (not_lt.mp hle))
        have hwhole : (digits.take (e + 1)).rightpad (e + 1) '0' = digits.take (e + 1) := by
          rw [List.rightpad, List.length_take_of_le hlt.le, Nat.sub_self, List.replicate_zero,
            List.append_nil]
        have hexponent : (-(digits.drop (e + 1)).length : ℤ) = Int.ofNat e + 1 - digits.length := by
          rw [List.length_drop, Int.ofNat_eq_natCast]
          omega
        rw [hwhole, readPlain_fraction fun h => hpoint (List.mem_of_mem_take h),
          List.take_append_drop,
          hexponent, value]
  | negSucc k =>
      have hexponent : (-(List.replicate k '0' ++ digits).length : ℤ) =
          Int.negSucc k + 1 - digits.length := by
        rw [List.length_append, List.length_replicate, Int.negSucc_eq]
        omega
      have hsplit : (Layout.positionalText l ⟨digits, .negSucc k⟩) =
          ['0'] ++ '.' :: (List.replicate k '0' ++ digits) := rfl
      have hzeros : ['0'] ++ (List.replicate k '0' ++ digits) =
          List.replicate (k + 1) '0' ++ digits :=
        rfl
      rw [hsplit, readPlain_fraction (by decide), hzeros, ofDigitChars_zeros, hexponent, value]

theorem mem_positionalText (hl : l.Readable) {c : Char} (h : c ∈ l.positionalText d) :
    c.isDigit = true ∨ c = '.' := by
  have hzero : ('0').isDigit = true := rfl
  have hmark : ∀ a ∈ l.wholeMark, a.isDigit = true ∨ a = '.' := by
    obtain hmark | hmark := hl <;> simp [hmark]
  have hwhole (n : ℕ) : ∀ a ∈ (d.digits.take n).rightpad n '0', a.isDigit = true := by
    intro a ha
    obtain ha | ha := List.mem_append.mp ha
    · exact hd.isDigit a (List.mem_of_mem_take ha)
    · exact (List.mem_replicate.mp ha).2 ▸ hzero
  unfold Layout.positionalText at h
  split at h
  · rename_i e _
    simp only at h
    split at h
    · obtain h | h := List.mem_append.mp h
      · exact .inl (hwhole _ c h)
      · exact hmark c h
    · obtain h | h := List.mem_append.mp h
      · exact .inl (hwhole _ c h)
      obtain h | h := List.mem_cons.mp h
      · exact .inr h
      · exact .inl (hd.isDigit c (List.mem_of_mem_drop h))
  · simp only [List.cons_append, List.mem_cons, List.mem_append, List.mem_replicate] at h
    obtain rfl | h | ⟨-, rfl⟩ | h := h
    · exact .inl hzero
    · exact .inr h
    · exact .inl hzero
    · exact .inl (hd.isDigit c h)

theorem not_mem_positionalText (hl : l.Readable) : 'e' ∉ l.positionalText d := by
  intro h
  obtain h | h := mem_positionalText hd hl h <;> cases h

theorem read_scientificText : read (Layout.scientificText d) = d.value := by
  obtain ⟨digits, exponent⟩ := d
  obtain ⟨c, cs, rfl⟩ := List.exists_cons_of_ne_nil hd.ne_nil
  have hc : c.isDigit = true := hd.isDigit c List.mem_cons_self
  have hpoint : '.' ∉ [c] := by
    rintro (_ | ⟨_, ⟨⟩⟩)
    cases hc
  have he : 'e' ∉ c :: cs := hd.not_mem rfl
  cases cs with
  | nil =>
      have htext : Layout.scientificText ⟨[c], exponent⟩ =
          [c] ++ 'e' :: (toString exponent).toList :=
        rfl
      rw [htext, read, takeWhile_ne_append_cons he, dropWhile_ne_append_cons he, List.tail_cons,
        readExponent_toString, readPlain_whole hpoint, value]
      simp
  | cons c' cs =>
      have htext : Layout.scientificText ⟨c :: c' :: cs, exponent⟩ =
          ([c] ++ '.' :: (c' :: cs)) ++ 'e' :: (toString exponent).toList := rfl
      have he' : 'e' ∉ [c] ++ '.' :: (c' :: cs) := by
        simp only [List.mem_cons, List.mem_append, List.not_mem_nil, or_false] at he ⊢
        push Not at he ⊢
        exact ⟨he.1, by decide, he.2⟩
      have hexponent : exponent + 1 - (c :: c' :: cs).length = -(c' :: cs).length + exponent := by
        rw [List.length_cons (a := c)]
        push_cast
        ring
      rw [htext, read, takeWhile_ne_append_cons he', dropWhile_ne_append_cons he', List.tail_cons,
        readExponent_toString, readPlain_fraction hpoint, value, hexponent,
        zpow_add₀ (by norm_num), mul_assoc, List.singleton_append]

/-- Every text of a decimal reads back as its value, whichever form the layout chooses. -/
theorem read_text (hl : l.Readable) : read (l.text d) = d.value := by
  unfold Layout.text
  split
  · rw [read_plain (not_mem_positionalText hd hl), readPlain_positionalText hd hl]
  · exact read_scientificText hd

end

/-! ## Decimals of whole units -/

/-- The trailing zeros of a number can be told apart from the digits that are kept. -/
theorem ofUnits_spec {n : ℕ} (h : n ≠ 0) : ∃ k,
    Nat.toDigits 10 n = (ofUnits n).digits ++ List.replicate k '0' ∧
      (ofUnits n).exponent + 1 - (ofUnits n).digits.length = k - unitPlaces := by
  rw [ofUnits, if_neg h]
  simp only
  generalize Nat.toDigits 10 n = digits
  have hzeros : (digits.reverse.takeWhile (· = '0')).reverse =
      List.replicate (digits.reverse.takeWhile (· = '0')).length '0' := by
    rw [List.reverse_eq_iff, List.reverse_replicate, List.eq_replicate_iff]
    refine ⟨rfl, fun c hc => ?_⟩
    simpa using List.mem_takeWhile_imp hc
  have hsplit : digits = (digits.reverse.dropWhile (· = '0')).reverse ++
      (digits.reverse.takeWhile (· = '0')).reverse := by
    rw [← List.reverse_append, List.takeWhile_append_dropWhile, List.reverse_reverse]
  have hlength := congrArg List.length hsplit
  rw [List.length_append, @List.length_reverse _ (List.takeWhile _ _)] at hlength
  refine ⟨_, hsplit.trans (congrArg _ hzeros), ?_⟩
  omega

theorem digits_ofUnits (n : ℕ) : Digits (ofUnits n).digits := by
  by_cases h : n = 0
  · rw [ofUnits, if_pos h]
    exact ⟨List.cons_ne_nil _ _, fun c hc => List.mem_singleton.mp hc ▸ rfl⟩
  · obtain ⟨k, hk, -⟩ := ofUnits_spec h
    constructor
    · intro hnil
      rw [hnil, List.nil_append] at hk
      have hzero := Nat.ofDigitChars_ten_toDigits (n := n)
      rw [hk, Nat.ofDigitChars_replicate_zero, Nat.mul_zero] at hzero
      exact h hzero.symm
    · intro c hc
      have hmem : c ∈ Nat.toDigits 10 n := hk ▸ List.mem_append_left _ hc
      exact isDigit_of_mem_toDigits hmem

theorem value_ofUnits (n : ℕ) : (ofUnits n).value = n * 10 ^ (-unitPlaces : ℤ) := by
  by_cases h : n = 0
  · subst h
    simp [ofUnits, value, Nat.ofDigitChars_cons]
  · obtain ⟨k, hk, hexponent⟩ := ofUnits_spec h
    have hn : n = 10 ^ k * Nat.ofDigitChars 10 (ofUnits n).digits 0 := by
      rw [← Nat.ofDigitChars_replicate_zero, ← Nat.ofDigitChars_append, ← hk,
        Nat.ofDigitChars_ten_toDigits]
    have hcast : (n : ℚ) = 10 ^ k * Nat.ofDigitChars 10 (ofUnits n).digits 0 := mod_cast hn
    rw [value, hexponent, sub_eq_add_neg, zpow_add₀ (by norm_num), zpow_natCast, ← mul_assoc,
      mul_comm _ (10 ^ k), ← hcast]

theorem ofUnits_injective {l : Layout} (hl : l.Readable) {m n : ℕ}
    (h : l.text (ofUnits m) = l.text (ofUnits n)) : m = n := by
  have hvalue : (m * 10 ^ (-unitPlaces : ℤ) : ℚ) = n * 10 ^ (-unitPlaces : ℤ) := by
    rw [← value_ofUnits, ← value_ofUnits, ← read_text (digits_ofUnits m) hl, h,
      read_text (digits_ofUnits n) hl]
  have hpos : (10 : ℚ) ^ (-unitPlaces : ℤ) ≠ 0 := zpow_ne_zero _ (by norm_num)
  exact_mod_cast mul_right_cancel₀ hpos hvalue

/-! ## Different numbers have different decimals -/

/-- A significand has 53 bits, or fewer at the smallest shift. -/
structure IsCanonical (significand shift : ℕ) : Prop where
  lt : significand < 2 ^ 53
  le : shift ≠ 0 → 2 ^ 52 ≤ significand

namespace RoundingInterval

theorem low_lt_high (m s : ℕ) : (ofBinary m s).low < (ofBinary m s).high :=
  Nat.mul_lt_mul_of_pos_right (by split <;> omega) (quarterGap_pos s)

theorem bounds_of_contains {m s n : ℕ} (h : (ofBinary m s).contains n = true) :
    (ofBinary m s).low ≤ n ∧ n ≤ (ofBinary m s).high ∧
      (n = (ofBinary m s).low ∨ n = (ofBinary m s).high → (ofBinary m s).closed = true) := by
  have hlt := low_lt_high m s
  obtain ⟨hlow, hhigh⟩ | ⟨hclosed, hn⟩ := of_decide_eq_true h
  · exact ⟨hlow.le, hhigh.le, by omega⟩
  · exact ⟨by omega, by omega, fun _ => hclosed⟩

/-- The upper end of a number against the lower end of a larger one, whose gap is `2 ^ k` times
as wide, in quarters of the smaller gap. They meet only where one of the significands is odd. -/
theorem quarters_le {m m' k below : ℕ} (hm : m < 2 ^ 53) (hle : k ≠ 0 → 2 ^ 52 ≤ m')
    (hlt : k = 0 → m < m')
    (hbelow : below = 1 ∧ m' = 2 ^ 52 ∨ below = 2 ∧ (k ≠ 0 → m' ≠ 2 ^ 52)) :
    4 * m + 2 ≤ (4 * m' - below) * 2 ^ k ∧
      (4 * m + 2 = (4 * m' - below) * 2 ^ k → m % 2 = 1 ∨ m' % 2 = 1) := by
  cases k with
  | zero =>
      have hlt := hlt rfl
      rw [pow_zero, mul_one]
      omega
  | succ k =>
      have hle := hle k.succ_ne_zero
      have hpow : 4 * m' - below ≤ (4 * m' - below) * 2 ^ k :=
        Nat.le_mul_of_pos_right _ (Nat.two_pow_pos k)
      rw [pow_succ, ← mul_assoc]
      omega

/-- The rounding intervals of two numbers at most touch, and then one of them is open. -/
theorem high_le_low {m s m' s' : ℕ} (h : IsCanonical m s) (h' : IsCanonical m' s')
    (hlt : s < s' ∨ s = s' ∧ m < m') :
    (ofBinary m s).high ≤ (ofBinary m' s').low ∧
      ((ofBinary m s).high = (ofBinary m' s').low →
        (ofBinary m s).closed = false ∨ (ofBinary m' s').closed = false) := by
  obtain ⟨k, rfl⟩ : ∃ k, s' = s + k := Nat.exists_eq_add_of_le (by omega)
  have hgap : quarterGap (s + k) = 2 ^ k * quarterGap s := by
    simp only [quarterGap, Nat.pow_eq]
    ring
  obtain ⟨below, hlow, hbelow⟩ : ∃ below,
      (ofBinary m' (s + k)).low = (4 * m' - below) * 2 ^ k * quarterGap s ∧
        (below = 1 ∧ m' = 2 ^ 52 ∨ below = 2 ∧ (k ≠ 0 → m' ≠ 2 ^ 52)) := by
    refine ⟨if m' = 2 ^ 52 ∧ 0 < s + k then 1 else 2, ?_, by split <;> omega⟩
    rw [mul_assoc, ← hgap]
    rfl
  obtain ⟨hle, hodd⟩ :=
    quarters_le h.lt (fun hk => h'.le (by omega)) (fun hk => by omega) hbelow
  have hhigh : (ofBinary m s).high = (4 * m + 2) * quarterGap s := rfl
  rw [hlow, hhigh]
  refine ⟨Nat.mul_le_mul_right _ hle, fun hends => ?_⟩
  obtain hm | hm := hodd (Nat.eq_of_mul_eq_mul_right (quarterGap_pos s) hends)
  · exact .inl (by simp [ofBinary, hm])
  · exact .inr (by simp [ofBinary, hm])

/-- No decimal rounds to two different numbers: it could only be the end that both intervals
share, and one of them is open. -/
theorem eq_of_contains {m s m' s' n : ℕ} (h : IsCanonical m s) (h' : IsCanonical m' s')
    (hn : (ofBinary m s).contains n = true) (hn' : (ofBinary m' s').contains n = true) :
    m = m' ∧ s = s' := by
  wlog hle : s < s' ∨ s = s' ∧ m ≤ m' generalizing m s m' s'
  · have := this h' h hn' hn (by omega)
    omega
  by_contra hne
  obtain ⟨hends, hopen⟩ := high_le_low h h' (by omega)
  obtain ⟨-, hhigh, hclosed⟩ := bounds_of_contains hn
  obtain ⟨hlow, -, hclosed'⟩ := bounds_of_contains hn'
  have hn : n = (ofBinary m s).high := by omega
  have hn' : n = (ofBinary m' s').low := by omega
  obtain hfalse | hfalse := hopen (hn.symm.trans hn')
  · exact Bool.eq_false_iff.mp hfalse (hclosed (.inr hn))
  · exact Bool.eq_false_iff.mp hfalse (hclosed' (.inl hn'))

theorem pos_of_contains {m s n : ℕ} (hm : 0 < m) (h : (ofBinary m s).contains n = true) :
    0 < n := by
  have hlow : 0 < (ofBinary m s).low := Nat.mul_pos (by split <;> omega) (quarterGap_pos s)
  exact hlow.trans_le (bounds_of_contains h).1

end RoundingInterval

def units (significand shift : ℕ) : ℕ :=
  if significand = 0 then 0 else (RoundingInterval.ofBinary significand shift).shortest

theorem ofBinary_eq_ofUnits (significand shift : ℕ) :
    ofBinary significand shift = ofUnits (units significand shift) := by
  unfold ofBinary units
  split <;> rfl

theorem contains_units {m : ℕ} (hm : m ≠ 0) (s : ℕ) :
    (RoundingInterval.ofBinary m s).contains (units m s) = true := by
  rw [units, if_neg hm]
  exact RoundingInterval.contains_shortest
    (RoundingInterval.contains_value_ofBinary (Nat.pos_of_ne_zero hm) s)

theorem units_eq_zero_iff {m s : ℕ} : units m s = 0 ↔ m = 0 := by
  constructor
  · intro h
    by_contra hm
    exact (RoundingInterval.pos_of_contains (Nat.pos_of_ne_zero hm) (contains_units hm s)).ne' h
  · intro hm
    rw [units, if_pos hm]

theorem units_inj {m s m' s' : ℕ} (h : IsCanonical m s) (h' : IsCanonical m' s')
    (heq : units m s = units m' s') : m = m' ∧ s = s' := by
  have hzero : m = 0 ↔ m' = 0 := by rw [← units_eq_zero_iff (s := s), heq, units_eq_zero_iff]
  by_cases hm : m = 0
  · have hle := h.le
    have hle' := h'.le
    omega
  · have hn' := contains_units (fun hm' => hm (hzero.mpr hm')) s'
    rw [← heq] at hn'
    exact RoundingInterval.eq_of_contains h h' (contains_units hm s) hn'

theorem text_ofBinary_inj {l : Layout} (hl : l.Readable) {m s m' s' : ℕ} (h : IsCanonical m s)
    (h' : IsCanonical m' s') (heq : l.text (ofBinary m s) = l.text (ofBinary m' s')) :
    m = m' ∧ s = s' := by
  rw [ofBinary_eq_ofUnits, ofBinary_eq_ofUnits] at heq
  exact units_inj h h' (ofUnits_injective hl heq)

/-! ## Characters -/

theorem exists_text_eq_cons {d : Decimal} (hd : Digits d.digits) (l : Layout) :
    ∃ c cs, l.text d = c :: cs ∧ c.isDigit = true := by
  obtain ⟨digits, exponent⟩ := d
  obtain ⟨c, cs, rfl⟩ := List.exists_cons_of_ne_nil hd.ne_nil
  have hc : c.isDigit = true := hd.isDigit c List.mem_cons_self
  unfold Layout.text
  split
  · unfold Layout.positionalText
    split
    · simp only [List.take_succ_cons, List.rightpad, List.cons_append]
      split <;> exact ⟨_, _, rfl, hc⟩
    · exact ⟨_, _, rfl, rfl⟩
  · exact ⟨_, _, rfl, hc⟩

theorem mem_toString {e : ℤ} {c : Char} (h : c ∈ (toString e).toList) :
    c.isDigit = true ∨ c = '-' := by
  rw [Int.toString_eq_repr, Int.repr_eq_if] at h
  split at h
  · rw [Nat.toList_repr] at h
    exact .inl (isDigit_of_mem_toDigits h)
  · rw [String.toList_append, Nat.toList_repr] at h
    obtain h | h := List.mem_append.mp h
    · exact .inr (List.mem_singleton.mp h)
    · exact .inl (isDigit_of_mem_toDigits h)

theorem mem_scientificText {d : Decimal} (hd : Digits d.digits) {c : Char}
    (h : c ∈ Layout.scientificText d) : c.isDigit = true ∨ c ∈ ['.', 'e', '-'] := by
  simp only [Layout.scientificText, List.mem_append, List.mem_cons] at h
  obtain (h | h) | rfl | h := h
  · exact .inl (hd.isDigit c (List.mem_of_mem_take h))
  · split at h
    · cases h
    · obtain rfl | h := List.mem_cons.mp h
      · exact .inr (by decide)
      · exact .inl (hd.isDigit c (List.mem_of_mem_drop h))
  · exact .inr (by decide)
  · exact (mem_toString h).imp_right fun hc => by simp [hc]

theorem mem_text {l : Layout} (hl : l.Readable) {d : Decimal} (hd : Digits d.digits) {c : Char}
    (h : c ∈ l.text d) : c.isDigit = true ∨ c ∈ ['.', 'e', '-'] := by
  unfold Layout.text at h
  split at h
  · exact (mem_positionalText hd hl h).imp_right fun hc => by simp [hc]
  · exact mem_scientificText hd h

theorem exists_text_ofBinary_eq_cons (l : Layout) (significand shift : ℕ) :
    ∃ c cs, l.text (ofBinary significand shift) = c :: cs ∧ c.isDigit = true := by
  rw [ofBinary_eq_ofUnits]
  exact exists_text_eq_cons (digits_ofUnits _) l

end Decimal

namespace Binary64

open Decimal

/-- The same bits, or two NaNs. -/
def Same (x y : Binary64) : Prop :=
  x = y ∨ x.value = .nan ∧ y.value = .nan

instance (x y : Binary64) : Decidable (x.Same y) := by
  unfold Same
  infer_instance

theorem toNat_bits_of_infinite {x : Binary64} {negative : Bool} (h : x.value = .infinite negative) :
    x.bits.toNat = (if negative then 2 ^ 63 else 0) + 2047 * 2 ^ 52 := by
  have hlt := x.bits.toNat_lt
  simp only [value, Nat.pow_eq] at h
  split at h
  · split at h
    · cases h
      simp only [decide_eq_true_eq]
      split <;> omega
    · cases h
  · split at h <;> cases h

/-- The leading bit of the significand counts in the exponent. -/
theorem toNat_bits_of_finite {x : Binary64} {negative : Bool} {significand shift : ℕ}
    (h : x.value = .finite negative significand shift) :
    x.bits.toNat = (if negative then 2 ^ 63 else 0) + shift * 2 ^ 52 + significand := by
  have hlt := x.bits.toNat_lt
  simp only [value, Nat.pow_eq] at h
  split at h
  · split at h <;> cases h
  · split at h
    · cases h
      simp only [decide_eq_true_eq]
      split <;> omega
    · cases h
      simp only [decide_eq_true_eq]
      split <;> omega

/-- Bits of the same value are the same, NaNs apart. -/
theorem same_iff_value_eq {x y : Binary64} : x.Same y ↔ x.value = y.value := by
  constructor
  · rintro (rfl | ⟨hx, hy⟩)
    · rfl
    · rw [hx, hy]
  · intro h
    have hbits (hn : x.bits.toNat = y.bits.toNat) : x = y := by
      cases x
      cases y
      exact congrArg mk (UInt64.toNat_inj.mp hn)
    cases hx : x.value with
    | nan => exact .inr ⟨hx, h ▸ hx⟩
    | infinite negative =>
        have hsame := (toNat_bits_of_infinite hx).trans (toNat_bits_of_infinite (h ▸ hx)).symm
        exact .inl (hbits hsame)
    | finite negative significand shift =>
        exact .inl (hbits ((toNat_bits_of_finite hx).trans (toNat_bits_of_finite (h ▸ hx)).symm))

namespace Value

def negative : Value → Bool
  | .nan => false
  | .infinite negative => negative
  | .finite negative _ _ => negative

/-- The text without the sign. -/
def magnitude (l : Layout) : Value → List Char
  | .nan => ['N', 'a', 'N']
  | .infinite _ => ['i', 'n', 'f']
  | .finite _ significand shift => l.text (.ofBinary significand shift)

end Value

theorem toList_text (l : Layout) (x : Binary64) :
    (x.text l).toList = (signText x.value.negative).toList ++ x.value.magnitude l := by
  unfold text
  cases x.value with
  | nan => exact (by decide : "NaN".toList = "".toList ++ ['N', 'a', 'N'])
  | infinite negative => exact String.toList_append
  | finite negative significand shift =>
      rw [String.toList_append, String.toList_ofList]
      rfl

/-- A magnitude starts with a letter or a digit, never with a sign. -/
theorem exists_magnitude_eq_cons (l : Layout) (v : Value) :
    ∃ c cs, v.magnitude l = c :: cs ∧ c ≠ '-' := by
  cases v with
  | nan => exact ⟨_, _, rfl, by decide⟩
  | infinite negative => exact ⟨_, _, rfl, by decide⟩
  | finite negative significand shift =>
      obtain ⟨c, cs, htext, hc⟩ := exists_text_ofBinary_eq_cons l significand shift
      refine ⟨c, cs, htext, ?_⟩
      rintro rfl
      cases hc

theorem signText_append_inj {s t : Bool} {c d : Char} {cs ds : List Char} (hc : c ≠ '-')
    (hd : d ≠ '-') (h : (signText s).toList ++ c :: cs = (signText t).toList ++ d :: ds) :
    s = t ∧ c :: cs = d :: ds := by
  have hminus : (signText true).toList = ['-'] := rfl
  have hplus : (signText false).toList = [] := rfl
  cases s <;> cases t <;>
    simp only [hminus, hplus, List.nil_append, List.cons_append, List.cons.injEq] at h
  · exact ⟨rfl, by rw [h.1, h.2]⟩
  · exact absurd h.1 hc
  · exact absurd h.1.symm hd
  · exact ⟨rfl, by rw [h.2.1, h.2.2]⟩

theorem text_ofBinary_ne (l : Layout) (significand shift : ℕ) {c : Char} {cs : List Char}
    (hc : c.isDigit = false) : l.text (ofBinary significand shift) ≠ c :: cs := by
  intro h
  obtain ⟨d, ds, htext, hd⟩ := exists_text_ofBinary_eq_cons l significand shift
  obtain ⟨rfl, -⟩ := List.cons.inj (htext.symm.trans h)
  exact Bool.eq_false_iff.mp hc hd

theorem isCanonical_of_value {x : Binary64} {negative : Bool} {significand shift : ℕ}
    (h : x.value = .finite negative significand shift) : IsCanonical significand shift :=
  have hbounds := bounds_of_value h
  ⟨hbounds.1, hbounds.2.2⟩

theorem value_eq_of_magnitude_eq {l : Layout} (hl : l.Readable) {x y : Binary64}
    (hsign : x.value.negative = y.value.negative)
    (h : x.value.magnitude l = y.value.magnitude l) : x.value = y.value := by
  cases hx : x.value with
  | nan =>
      rw [hx] at h
      cases hy : y.value with
      | nan => rfl
      | infinite negative =>
          rw [hy] at h
          cases h
      | finite negative significand shift =>
          rw [hy] at h
          exact absurd h.symm (text_ofBinary_ne l _ _ rfl)
  | infinite negative =>
      rw [hx] at h hsign
      cases hy : y.value with
      | nan =>
          rw [hy] at h
          cases h
      | infinite negative' =>
          rw [hy] at hsign
          exact congrArg Value.infinite hsign
      | finite negative significand shift =>
          rw [hy] at h
          exact absurd h.symm (text_ofBinary_ne l _ _ rfl)
  | finite negative significand shift =>
      rw [hx] at h hsign
      cases hy : y.value with
      | nan =>
          rw [hy] at h
          exact absurd h (text_ofBinary_ne l _ _ rfl)
      | infinite negative =>
          rw [hy] at h
          exact absurd h (text_ofBinary_ne l _ _ rfl)
      | finite negative' significand' shift' =>
          rw [hy] at h hsign
          obtain ⟨rfl, rfl⟩ :=
            text_ofBinary_inj hl (isCanonical_of_value hx) (isCanonical_of_value hy) h
          exact congrArg (Value.finite · significand shift) hsign

/-- A text tells the number down to the sign of a zero, and NaNs are not told apart. -/
theorem text_eq_iff_same {l : Layout} (hl : l.Readable) {x y : Binary64} :
    x.text l = y.text l ↔ x.Same y := by
  rw [same_iff_value_eq]
  constructor
  · intro h
    have hlist := congrArg String.toList h
    obtain ⟨c, cs, hx, hc⟩ := exists_magnitude_eq_cons l x.value
    obtain ⟨d, ds, hy, hd⟩ := exists_magnitude_eq_cons l y.value
    rw [toList_text, toList_text, hx, hy] at hlist
    obtain ⟨hsign, hmagnitude⟩ := signText_append_inj hc hd hlist
    exact value_eq_of_magnitude_eq hl hsign (hx.trans (hmagnitude.trans hy.symm))
  · intro h
    unfold text
    rw [h]

/-- Every character is a digit or one of these. -/
theorem mem_text {l : Layout} (hl : l.Readable) {x : Binary64} {c : Char}
    (h : c ∈ (x.text l).toList) :
    c.isDigit = true ∨ c ∈ ['.', 'e', '-', 'N', 'a', 'i', 'n', 'f'] := by
  have hsign (s : Bool) : ∀ a ∈ (signText s).toList, a = '-' := by
    cases s <;> simp [signText]
  rw [toList_text] at h
  obtain h | h := List.mem_append.mp h
  · exact .inr (by simp [hsign _ c h])
  · cases hx : x.value with
    | nan =>
        rw [hx] at h
        exact .inr ((by simp : ['N', 'a', 'N'] ⊆ ['.', 'e', '-', 'N', 'a', 'i', 'n', 'f']) h)
    | infinite negative =>
        rw [hx] at h
        exact .inr ((by simp : ['i', 'n', 'f'] ⊆ ['.', 'e', '-', 'N', 'a', 'i', 'n', 'f']) h)
    | finite negative significand shift =>
        rw [hx, Value.magnitude, ofBinary_eq_ofUnits] at h
        exact (Decimal.mem_text hl (digits_ofUnits _) h).imp_right fun hc =>
          List.mem_append_left ['N', 'a', 'i', 'n', 'f'] hc

end Binary64

end MeshRing
