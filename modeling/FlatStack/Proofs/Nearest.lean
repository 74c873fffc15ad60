import FlatStack.Decimal.Reader
import FlatStack.Proofs.Rounding

/-!
# Decimals in an interval

Reading a decimal in the interval around a binary64 number yields that number.
A short significand and a small power of ten are multiplied or divided as
numbers, since both are exact; everything else is rounded from integers.
-/

set_option autoImplicit false

namespace FlatStack.Rounding

open Float.Model (UnpackedFloat)
open Float.Model.Format Float.Model.UnpackedFloat
open Packing

variable {m n width : Nat} {q e : Int} {v : ℚ}

/-! ## Range -/

theorem Near.lower (near : Near m q v) (can : Canonical m q) : (2 : ℚ) ^ (-1075 : Int) ≤ v := by
  have one : (1 : ℚ) ≤ m := by exact_mod_cast can.pos
  have half : (2 : ℚ) ^ (-1 : Int) ≤ v / 2 ^ q := by
    have := near.low
    have := reachBelow_le (m := m) (q := q)
    norm_num
    linarith
  calc
    (2 : ℚ) ^ (-1075 : Int) ≤ 2 ^ (-1 + q) := by
      have := can.least
      exact zpow_le_zpow_right₀ one_le_two (by omega)
    _ = 2 ^ (-1 : Int) * 2 ^ q := zpow_add₀ two_ne_zero ..
    _ ≤ v := (le_div_iff₀ (by positivity)).mp half

theorem Near.upper (near : Near m q v) (can : Canonical m q) : v < 2 ^ 1025 := by
  have most : (m : ℚ) + 1 ≤ 2 ^ 53 := by exact_mod_cast can.high
  have below : v / 2 ^ q < 2 ^ 53 := by
    have := near.high
    linarith
  calc
    v < 2 ^ 53 * 2 ^ q := (div_lt_iff₀ (by positivity)).mp below
    _ = 2 ^ (53 + q) := by rw [zpow_add₀ two_ne_zero]; norm_num
    _ ≤ 2 ^ (1025 : Int) := by
      have := can.most
      exact zpow_le_zpow_right₀ one_le_two (by omega)
    _ = 2 ^ 1025 := zpow_natCast 2 1025

theorem two_pow_lt_ten_pow : (2 : ℚ) ^ 1075 < 10 ^ 400 := by
  have : (2 : Nat) ^ 1075 < 10 ^ 400 := by decide +kernel
  exact_mod_cast this

/-- The decimal exponent of a number is bounded on either side. -/
theorem Near.exponent_bounds (near : Near m q (n * 10 ^ e)) (can : Canonical m q) (pos : 0 < n)
    (wide : n ≤ 10 ^ width) : -((400 + width : Nat) : Int) ≤ e ∧ e ≤ 400 := by
  have lower := near.lower can
  have upper := near.upper can
  have one : (1 : ℚ) ≤ n := by exact_mod_cast pos
  have wide : (n : ℚ) ≤ 10 ^ width := by exact_mod_cast wide
  have positive : (0 : ℚ) < 10 ^ e := by positivity
  constructor
  · by_contra far
    have small : (10 : ℚ) ^ e ≤ 10 ^ (-400 - width : Int) :=
      zpow_le_zpow_right₀ (by norm_num) (by omega)
    have : (n : ℚ) * 10 ^ e ≤ 10 ^ (-400 : Int) := by
      calc
        (n : ℚ) * 10 ^ e ≤ 10 ^ width * 10 ^ (-400 - width : Int) :=
          mul_le_mul wide small positive.le (by positivity)
        _ = 10 ^ (-400 : Int) := by
          rw [← zpow_natCast, ← zpow_add₀ (by norm_num)]
          congr 1
          omega
    have tiny : (10 : ℚ) ^ (-400 : Int) < 2 ^ (-1075 : Int) := by
      simpa only [zpow_neg, zpow_ofNat] using inv_strictAnti₀ (by positivity) two_pow_lt_ten_pow
    linarith
  · by_contra far
    have large : (10 : ℚ) ^ 400 ≤ 10 ^ e := by
      rw [← zpow_natCast]
      exact zpow_le_zpow_right₀ (by norm_num) (by omega)
    have : (10 : ℚ) ^ e ≤ n * 10 ^ e := le_mul_of_one_le_left positive.le one
    have huge : (2 : ℚ) ^ 1025 < 10 ^ 400 :=
      lt_of_le_of_lt (pow_le_pow_right₀ one_le_two (by omega)) two_pow_lt_ten_pow
    exact absurd upper (not_lt.mpr (huge.le.trans (large.trans this)))

/-! ## Exact integers -/

theorem ofScientific_exact (can : Canonical m q) (near : Near m q (n * 10 ^ e)) (pos : 0 < n) :
    UnpackedFloat.ofScientific binary64 n e = .finite .positive m q can.pos := by
  have wide : n ≤ 10 ^ (n.log2 + 1) :=
    Nat.lt_log2_self.le.trans (Nat.pow_le_pow_left (by norm_num) _)
  obtain ⟨low, high⟩ := near.exponent_bounds can pos wide
  unfold UnpackedFloat.ofScientific
  rw [dif_neg (by omega), if_neg (by simp; omega), if_neg (by simp; omega)]
  split
  · rename_i up
    obtain ⟨k, rfl⟩ := Int.eq_ofNat_of_zero_le up
    simp only [Int.toNat_natCast, Nat.shiftLeft_eq]
    refine mul_near can _ _ ?_ ?_
    · have value : ((n * 2 ^ mantissaBits binary64 : Nat) : ℚ)
          * 2 ^ (-(mantissaBits binary64 : Nat) : Int)
          * (((10 ^ k : Nat) : ℚ) * 2 ^ (0 : Int)) = n * 10 ^ (k : Int) := by
        push_cast
        rw [zpow_neg, zpow_natCast, zpow_natCast]
        field_simp
      rw [value]
      exact near
    · calc
        2 ^ 52 ≤ 1 * 2 ^ 53 * 1 := by norm_num
        _ ≤ n * 2 ^ mantissaBits binary64 * 10 ^ k :=
          Nat.mul_le_mul (Nat.mul_le_mul pos (by decide)) (Nat.pow_pos (by norm_num))
  · rename_i down
    obtain ⟨k, rfl⟩ : ∃ k : Nat, e = -k := ⟨e.natAbs, by omega⟩
    simp only [neg_neg, Int.toNat_natCast]
    refine div_near can _ _ ?_
    have value : (n : ℚ) * 2 ^ (0 : Int) / (((10 ^ k : Nat) : ℚ) * 2 ^ (0 : Int))
        = n * 10 ^ (-k : Int) := by
      push_cast
      rw [zpow_neg, zpow_natCast, mul_one, mul_one, div_eq_mul_inv]
    rw [value]
    exact near

/-! ## Small decimals -/

/-- The significand and the exponent of a power of ten. -/
def tenSignificand (k : Nat) : Nat := 10 ^ k * 2 ^ 52 / 2 ^ (10 ^ k).log2

def tenExponent (k : Nat) : Int := (10 ^ k).log2 - 52

theorem tenSignificand_large (k : Nat) : 2 ^ 52 ≤ tenSignificand k := by
  refine (Nat.le_div_iff_mul_le (by positivity)).mpr ?_
  rw [mul_comm]
  exact Nat.mul_le_mul_right _ (Nat.log2_self_le (by positivity))

theorem canonical_ten : ∀ k < 23, Canonical (tenSignificand k) (tenExponent k) := by
  have high : ∀ k < 23, tenSignificand k < 2 ^ 53 := by decide +kernel
  have least : ∀ k < 23, -1074 ≤ tenExponent k := by decide +kernel
  have most : ∀ k < 23, tenExponent k ≤ 971 := by decide +kernel
  intro k h
  have large := tenSignificand_large k
  exact ⟨by omega, high k h, least k h, most k h, .inl large⟩

/-- The table holds the words of these numbers. -/
theorem ten_words : ∀ k < 23, (Float.exactlyRepresentablePowersOfTen[k]?.getD 0).toBits.toNat
    = exponentField (tenSignificand k) (tenExponent k) * 2 ^ 52 + tenSignificand k % 2 ^ 52 := by
  decide +kernel

theorem ten_values : ∀ k < 23, tenSignificand k * 2 ^ (10 ^ k).log2 = 10 ^ k * 2 ^ 52 := by
  decide +kernel

/-- The powers of ten that are multiplied or divided by have no error. -/
theorem ten_exact (k : Nat) (h : k < Float.exactlyRepresentablePowersOfTen.size) :
    Float.exactlyRepresentablePowersOfTen[k] = number false (canonical_ten k h) := by
  apply ext_of_word
  have word := ten_words k h
  rw [Array.getElem?_eq_getElem h, Option.getD_some] at word
  rw [word, word_number]
  simp

theorem ten_value (k : Nat) (h : k < 23) : (tenSignificand k : ℚ) * 2 ^ tenExponent k = 10 ^ k := by
  have whole : (tenSignificand k : ℚ) * 2 ^ (10 ^ k).log2 = 10 ^ k * 2 ^ 52 := by
    exact_mod_cast ten_values k h
  rw [tenExponent, zpow_sub₀ two_ne_zero, zpow_natCast, ← mul_div_assoc, whole]
  norm_num

theorem small_value (n : Nat) :
    (Exact.significand n : ℚ) * 2 ^ (-(52 - n.log2 : Nat) : Int) = n := by
  rw [Exact.significand, zpow_neg, zpow_natCast]
  push_cast
  field_simp

section Small

variable {k : Nat} (can : Canonical m q) (pos : 0 < n) (small : n < 2 ^ 53)
  (hk : k < Float.exactlyRepresentablePowersOfTen.size)

include pos small

theorem small_product (near : Near m q (n * 10 ^ k)) :
    n.toUInt64.toFloat * Float.exactlyRepresentablePowersOfTen[k] = number false can := by
  have low := (Exact.significand_bounds n pos small).1
  rw [ten_exact k hk]
  change Float.ofModel (.pack (UnpackedFloat.mul binary64 n.toUInt64.toFloat.toModel.unpack
    (number false (canonical_ten k hk)).toModel.unpack)) = _
  rw [Exact.unpack_small pos small, unpack_number,
    mul_near can _ _ (by rwa [small_value n, ten_value k hk])
      (low.trans (Nat.le_mul_of_pos_right _ (canonical_ten k hk).pos))]
  rfl

theorem small_quotient (near : Near m q (n / 10 ^ k)) :
    n.toUInt64.toFloat / Float.exactlyRepresentablePowersOfTen[k] = number false can := by
  rw [ten_exact k hk]
  change Float.ofModel (.pack (UnpackedFloat.div binary64 n.toUInt64.toFloat.toModel.unpack
    (number false (canonical_ten k hk)).toModel.unpack)) = _
  rw [Exact.unpack_small pos small, unpack_number,
    div_near can _ _ (by rwa [small_value n, ten_value k hk])]
  rfl

end Small

theorem ofScientific_up (can : Canonical m q) {k : Nat} (near : Near m q (n * 10 ^ (k : Int)))
    (pos : 0 < n) : Float.ofScientific n false k = number false can := by
  unfold Float.ofScientific
  split
  · rename_i fast
    rw [zpow_natCast] at near
    exact small_product can pos fast.1 _ near
  · change Float.ofModel (.pack (UnpackedFloat.ofScientific binary64 n k)) = _
    rw [ofScientific_exact can near pos]
    rfl

theorem ofScientific_down (can : Canonical m q) {k : Nat} (near : Near m q (n * 10 ^ (-k : Int)))
    (pos : 0 < n) : Float.ofScientific n true k = number false can := by
  unfold Float.ofScientific
  split
  · rename_i fast
    rw [zpow_neg, zpow_natCast, ← div_eq_mul_inv] at near
    exact small_quotient can pos fast.1 _ near
  · change Float.ofModel (.pack (UnpackedFloat.ofScientific binary64 n (.negOfNat k))) = _
    rw [Int.negOfNat_eq, Int.ofNat_eq_natCast, ofScientific_exact can near pos]
    rfl

/-- A decimal in the interval of a number is nearest to that number. -/
theorem nearest_near (can : Canonical m q) (near : Near m q (n * 10 ^ e)) (pos : 0 < n)
    (wide : n ≤ 10 ^ width) : Decimal.nearest n width e = number false can := by
  obtain ⟨low, high⟩ := near.exponent_bounds can pos wide
  unfold Decimal.nearest Decimal.exponentBound
  rw [if_neg (by omega), if_neg (by omega), if_neg (by omega)]
  rcases lt_or_ge e 0 with down | up
  · obtain ⟨k, rfl⟩ : ∃ k : Nat, e = -k := ⟨e.natAbs, by omega⟩
    rw [decide_eq_true down, Int.natAbs_neg, Int.natAbs_natCast]
    exact ofScientific_down can near pos
  · obtain ⟨k, rfl⟩ := Int.eq_ofNat_of_zero_le up
    rw [decide_eq_false (not_lt.mpr up), Int.natAbs_natCast]
    exact ofScientific_up can near pos

end FlatStack.Rounding
