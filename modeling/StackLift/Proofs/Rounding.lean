/-
# Rounding what needs no rounding

The nearest number of a format depends on a value only, not on how the value is written as a
mantissa and an exponent.  A number of the format is the nearest one to itself.  So a number of
64 bits that a shorter format holds exactly comes back from there as it was.

* `Format.roundScaled_eq_of_sameScaled` : the same value is rounded to the same number;
* `Format.roundScaled_unpack` : a number of a format is rounded to itself;
* `Item.widen_of_exactIn` : widening undoes shortening.
-/
import StackLift.Item.Decode

namespace StackLift.Number

/-! ## Ratios -/

theorem two_pow_pos (n : Nat) : 0 < Nat.pow 2 n := Nat.two_pow_pos n

theorem two_pow_add (m n : Nat) : Nat.pow 2 (m + n) = Nat.pow 2 m * Nat.pow 2 n :=
  Nat.pow_add 2 m n

/-- Both sides of a ratio may be multiplied. -/
theorem roundDiv_mul (num den : Nat) {c : Nat} (hc : 0 < c) :
    roundDiv (num * c) (den * c) = roundDiv num den := by
  have hlt : den * c < 2 * (num % den * c) ↔ den < 2 * (num % den) := by
    rw [← Nat.mul_assoc]
    exact Nat.mul_lt_mul_right hc
  have heq : den * c = 2 * (num % den * c) ↔ den = 2 * (num % den) := by
    rw [← Nat.mul_assoc]
    exact Nat.mul_left_inj (Nat.pos_iff_ne_zero.1 hc)
  unfold roundDiv
  rw [Nat.mul_div_mul_right _ _ hc, Nat.mul_mod_mul_right]
  simp only [hlt, heq]

/-- A whole number is rounded to itself. -/
theorem roundDiv_self (n : Nat) {den : Nat} (hden : 0 < den) : roundDiv (n * den) den = n := by
  unfold roundDiv
  rw [Nat.mul_div_cancel _ hden, Nat.mul_mod_left, if_neg (by omega)]

theorem log2_mul_two_pow {n : Nat} (hn : n ≠ 0) (k : Nat) :
    (n * Nat.pow 2 k).log2 = n.log2 + k := by
  have hlow : Nat.pow 2 n.log2 ≤ n := Nat.log2_self_le hn
  have hhigh : n < Nat.pow 2 (n.log2 + 1) := Nat.lt_log2_self
  have hpos := two_pow_pos k
  have hne : n * Nat.pow 2 k ≠ 0 := Nat.mul_ne_zero hn (Nat.pos_iff_ne_zero.1 hpos)
  apply (Nat.log2_eq_iff hne).2
  constructor
  · show Nat.pow 2 (n.log2 + k) ≤ n * Nat.pow 2 k
    rw [two_pow_add]
    exact Nat.mul_le_mul_right _ hlow
  · show n * Nat.pow 2 k < Nat.pow 2 (n.log2 + k + 1)
    rw [show n.log2 + k + 1 = n.log2 + 1 + k from by omega, two_pow_add]
    exact (Nat.mul_lt_mul_right hpos).2 hhigh

/-- The exponent of a ratio does not change if both sides are multiplied by a power of two. -/
theorem log2Ratio_mul {num den : Nat} (hnum : num ≠ 0) (hden : den ≠ 0) (k : Nat) :
    log2Ratio (num * Nat.pow 2 k) (den * Nat.pow 2 k) = log2Ratio num den := by
  have hpos := two_pow_pos k
  have hsame : (((num.log2 + k : Nat) : Int) - ((den.log2 + k : Nat) : Int)) =
      (num.log2 : Int) - (den.log2 : Int) := by omega
  unfold log2Ratio
  rw [log2_mul_two_pow hnum, log2_mul_two_pow hden, hsame]
  dsimp only
  simp only [Nat.mul_right_comm _ (Nat.pow 2 k), Nat.mul_le_mul_right_iff hpos]

namespace Format

variable (f : Format)

/-- Rounding a ratio does not change if both sides are multiplied by a power of two. -/
theorem round_mul (num : Nat) {den : Nat} (hden : den ≠ 0) (k : Nat) :
    f.round (num * Nat.pow 2 k) (den * Nat.pow 2 k) = f.round num den := by
  have hpos := two_pow_pos k
  unfold round
  by_cases hnum : num = 0
  · rw [if_pos (by rw [hnum, Nat.zero_mul]), if_pos hnum]
  · rw [if_neg (Nat.mul_ne_zero hnum (Nat.pos_iff_ne_zero.1 hpos)), if_neg hnum,
      log2Ratio_mul hnum hden]
    dsimp only
    rw [Nat.mul_right_comm den, Nat.mul_right_comm num, roundDiv_mul _ _ hpos,
      roundDiv_mul _ _ hpos]

/-! ## Values -/

/-- A power of two may stand in the mantissa or in the exponent. -/
theorem roundScaled_shift (m k : Nat) (e : Int) :
    f.roundScaled ⟨m * Nat.pow 2 k, e⟩ = f.roundScaled ⟨m, e + k⟩ := by
  unfold roundScaled
  dsimp only
  by_cases he : 0 ≤ e
  · rw [if_pos he, if_pos (by omega), Nat.mul_assoc, ← two_pow_add,
      show k + e.toNat = (e + k).toNat from by omega]
  · rw [if_neg he]
    by_cases hek : 0 ≤ e + k
    · -- a part of the power cancels the denominator
      rw [if_pos hek, show k = (e + k).toNat + (-e).toNat from by omega, two_pow_add,
        ← Nat.mul_assoc]
      have h := f.round_mul (m * Nat.pow 2 (e + k).toNat) Nat.one_ne_zero (-e).toNat
      rw [Nat.one_mul] at h
      rw [h, show ((e + k).toNat + (-e).toNat : Nat) = k from by omega]
    · rw [if_neg hek, show (-e).toNat = (-(e + k)).toNat + k from by omega, two_pow_add]
      exact f.round_mul m (Nat.pos_iff_ne_zero.1 (two_pow_pos _)) k

/-- The same value is rounded to the same number, however it is written. -/
theorem roundScaled_eq_of_sameScaled {a b : Scaled} (h : Item.sameScaled a b = true) :
    f.roundScaled a = f.roundScaled b := by
  have hshift : ∀ (s : Scaled) (e : Int), e ≤ s.exponent →
      f.roundScaled s = f.roundScaled ⟨s.mantissa * Nat.pow 2 (s.exponent - e).toNat, e⟩ := by
    intro s e he
    rw [roundScaled_shift, show e + ((s.exponent - e).toNat : Int) = s.exponent from by omega]
  simp only [Item.sameScaled, beq_iff_eq] at h
  rw [hshift a (min a.exponent b.exponent) (Int.min_le_left ..),
    hshift b (min a.exponent b.exponent) (Int.min_le_right ..), h]

/-- The exponent of a value. -/
theorem log2Ratio_scaled {m : Nat} (hm : m ≠ 0) (k : Nat) :
    log2Ratio (m * Nat.pow 2 k) 1 = m.log2 + k ∧ log2Ratio m (Nat.pow 2 k) = m.log2 - k := by
  have hlow : Nat.pow 2 m.log2 ≤ m := Nat.log2_self_le hm
  have hone : (1 : Nat).log2 = 0 := by decide
  have hden : (Nat.pow 2 k).log2 = k := Nat.log2_two_pow
  constructor
  · unfold log2Ratio
    rw [log2_mul_two_pow hm, hone]
    dsimp only
    rw [if_pos]
    · omega
    · rw [if_pos (by omega), Nat.one_mul,
        show (((m.log2 + k : Nat) : Int) - ((0 : Nat) : Int)).toNat = m.log2 + k from by omega,
        two_pow_add]
      exact Nat.mul_le_mul_right _ hlow
  · unfold log2Ratio
    rw [hden]
    dsimp only
    rw [if_pos]
    split
    · rename_i hk
      rw [← two_pow_add, show k + ((m.log2 : Int) - k).toNat = m.log2 from by omega]
      exact hlow
    · rename_i hk
      rw [show k = m.log2 + (-((m.log2 : Int) - k)).toNat from by omega, two_pow_add,
        show m.log2 + (-((m.log2 : Int) - k)).toNat = k from by omega]
      exact Nat.mul_le_mul_right _ hlow

/-- A value whose last bit is a bit of the format is rounded to itself. -/
theorem roundScaled_exact {m : Nat} {e : Int} (hm : m ≠ 0)
    (hhigh : m < Nat.pow 2 (f.fractionBits + 1)) (he : f.leastExponent ≤ e)
    (hlow : Nat.pow 2 f.fractionBits ≤ m ∨ e = f.leastExponent) :
    f.roundScaled ⟨m, e⟩ = (e - f.leastExponent).toNat * Nat.pow 2 f.fractionBits + m := by
  have hlog : m.log2 < f.fractionBits + 1 := (Nat.log2_lt hm).2 hhigh
  -- the last bit that rounding keeps is the last bit of the mantissa
  have hmax : max ((m.log2 : Int) + e - f.fractionBits) f.leastExponent = e := by
    rcases hlow with hlow | rfl
    · have : f.fractionBits ≤ m.log2 := (Nat.le_log2 hm).2 hlow
      omega
    · omega
  unfold roundScaled
  dsimp only
  by_cases hsign : 0 ≤ e
  · have hlog2 := (log2Ratio_scaled hm e.toNat).1
    rw [if_pos hsign, round, if_neg (Nat.mul_ne_zero hm (Nat.pos_iff_ne_zero.1 (two_pow_pos _))),
      hlog2, show (m.log2 : Int) + e.toNat = m.log2 + e from by omega]
    dsimp only
    rw [hmax, if_pos hsign, Nat.one_mul, roundDiv_self _ (two_pow_pos _)]
  · have hlog2 := (log2Ratio_scaled hm (-e).toNat).2
    rw [if_neg hsign, round, if_neg hm, hlog2,
      show (m.log2 : Int) - (-e).toNat = m.log2 + e from by omega]
    dsimp only
    rw [hmax, if_neg hsign, roundDiv_self _ (two_pow_pos _)]

/-- A number of a format is rounded to itself. -/
theorem roundScaled_unpack (bits : Nat) : f.roundScaled (f.unpack bits) = bits := by
  have hpos := two_pow_pos f.fractionBits
  have hdiv := Nat.div_add_mod bits (Nat.pow 2 f.fractionBits)
  have hmod := Nat.mod_lt bits hpos
  have hdouble : Nat.pow 2 (f.fractionBits + 1) = Nat.pow 2 f.fractionBits * 2 :=
    Nat.pow_succ 2 f.fractionBits
  unfold unpack
  generalize bits / Nat.pow 2 f.fractionBits = e at hdiv ⊢
  generalize bits % Nat.pow 2 f.fractionBits = m at hdiv hmod ⊢
  dsimp only
  cases e with
  | zero =>
    -- without the hidden bit the mantissa is short, but its exponent is the least one
    rw [if_pos rfl, ← hdiv, Nat.mul_zero, Nat.zero_add]
    by_cases hm : m = 0
    · rw [hm]
      unfold roundScaled
      split <;> simp [round]
    · rw [f.roundScaled_exact hm (by omega) (Int.le_refl _) (.inr rfl), Int.sub_self]
      simp
  | succ e =>
    -- with the hidden bit the mantissa has all its bits
    rw [if_neg (Nat.succ_ne_zero e), f.roundScaled_exact (by omega) (by omega) (by omega)
      (.inl (by omega)), show (f.leastExponent + (((e + 1 : Nat) : Int) - 1) -
        f.leastExponent).toNat = e from by omega, ← hdiv, Nat.mul_succ, Nat.mul_comm]
    omega

end Format

/-! ## Signs -/

namespace Binary64

theorem double_signBit : Format.double.signBit = 9223372036854775808 := by decide

/-- A number is put together from its sign and its other bits. -/
theorem toNat_bits (x : Binary64) : x.bits.toNat =
    if x.isNegative then Format.double.signBit + x.magnitude else x.magnitude := by
  have hlt : x.bits.toNat < 18446744073709551616 := x.bits.toNat_lt
  unfold isNegative magnitude
  rw [double_signBit]
  split
  · rename_i h
    have := of_decide_eq_true h
    omega
  · rename_i h
    have : ¬ 9223372036854775808 ≤ x.bits.toNat := fun hle => h (decide_eq_true hle)
    omega

theorem ofMagnitude_self (x : Binary64) : ofMagnitude x.isNegative x.magnitude = x := by
  unfold ofMagnitude
  rw [← x.toNat_bits, Nat.toUInt64_eq, UInt64.ofNat_toNat]

end Binary64

end StackLift.Number

/-! ## Shorter formats -/

namespace StackLift.Item

open Number

variable {f : Format} {bits : Nat}

/-- The bits of a format without its sign are below the sign. -/
theorem infinity_lt_signBit (f : Format) : f.infinity < f.signBit := by
  unfold Format.infinity Format.signBit
  rw [two_pow_add]
  exact (Nat.mul_lt_mul_right (two_pow_pos _)).2 (Nat.sub_lt (two_pow_pos _) Nat.one_pos)

/-- The sign and the other bits are told apart. -/
theorem signed_cases (negative : Bool) (h : bits < f.signBit) :
    decide (f.signBit ≤ if negative then f.signBit + bits else bits) = negative ∧
      (if negative then f.signBit + bits else bits) % f.signBit = bits := by
  cases negative with
  | true =>
    rw [if_pos rfl, Nat.add_mod_left, Nat.mod_eq_of_lt h]
    exact ⟨decide_eq_true (Nat.le_add_right ..), rfl⟩
  | false =>
    rw [if_neg Bool.false_ne_true, Nat.mod_eq_of_lt h]
    exact ⟨decide_eq_false (Nat.not_le_of_lt h), rfl⟩

/-- A finite number keeps its sign and its value. -/
theorem widen_finite (negative : Bool) (h : bits < f.infinity) :
    widen f (if negative then f.signBit + bits else bits) =
      .ofMagnitude negative (Format.double.roundScaled (f.unpack bits)) := by
  obtain ⟨hsign, hmod⟩ := signed_cases negative (Nat.lt_trans h (infinity_lt_signBit f))
  unfold widen
  dsimp only
  rw [hsign, hmod, if_neg (Nat.not_lt_of_le (Nat.le_of_lt h)), if_neg (Nat.ne_of_lt h)]

/-- Infinity keeps its sign. -/
theorem widen_infinity (f : Format) (negative : Bool) :
    widen f (if negative then f.signBit + f.infinity else f.infinity) = .infinite negative := by
  obtain ⟨hsign, hmod⟩ := signed_cases negative (infinity_lt_signBit f)
  unfold widen
  dsimp only
  rw [hsign, hmod, if_neg (Nat.lt_irrefl _), if_pos rfl]

/-- A number that a format holds exactly comes back from it. -/
theorem widen_of_exactIn {x : Binary64}
    (h : exactIn? f (Format.double.unpack x.magnitude) = some bits) :
    widen f (if x.isNegative then f.signBit + bits else bits) = x := by
  unfold exactIn? at h
  dsimp only at h
  split at h
  · rename_i hexact
    obtain rfl := Option.some.inj h
    rw [widen_finite _ hexact.1, Format.roundScaled_eq_of_sameScaled _ hexact.2,
      Format.roundScaled_unpack, Binary64.ofMagnitude_self]
  · cases h

end StackLift.Item
