import FlatStack.Machine.Basic
import FlatStack.Proofs.Packing

/-!
# Exact operands

Addresses and counts travel as binary64 operands. Below `2 ^ 53` no digit is
lost on the way: an operand made from such a number denotes it again. The
proof follows the number through scaling, rounding, packing and unpacking.
-/

set_option autoImplicit false

namespace FlatStack.Exact

open Float.Model (UnpackedFloat totalExponent)
open Float.Model.Format Float.Model.UnpackedFloat
open Packing (log2_of_normal unpack_pack)

/-! ## Rounding -/

theorem shiftRight_mantissa (em : ExtendedMantissa) (k : Nat) :
    (em >>> k).mantissa = em.mantissa / 2 ^ k := by
  induction k generalizing em with
  | zero => simp [HShiftRight.hShiftRight, Nat.repeat]
  | succ k ih =>
    change (em >>> k).mantissa / 2 = _
    rw [ih, Nat.div_div_eq_div_mul, pow_succ]

theorem shiftRight_exact (m k : Nat) (h : 2 ^ k ∣ m) :
    (⟨m, false, false⟩ : ExtendedMantissa) >>> k = ⟨m / 2 ^ k, false, false⟩ := by
  induction k with
  | zero => simp [HShiftRight.hShiftRight, Nat.repeat]
  | succ k ih =>
    change ((⟨m, false, false⟩ : ExtendedMantissa) >>> k).shiftRightOne = _
    rw [ih (dvd_trans (pow_dvd_pow 2 (by omega)) h)]
    obtain ⟨q, rfl⟩ := h
    have hq : 2 ^ (k + 1) * q / 2 ^ k = 2 * q := by
      rw [pow_succ, mul_assoc, Nat.mul_div_cancel_left _ (by positivity)]
    simp [ExtendedMantissa.shiftRightOne, hq]

/-- A significand of 53 bits survives rounding, and zeros behind it go into
the exponent. -/
theorem round_exact (s : Sign) (m k : Nat) (e : Int) (low : 2 ^ 52 ≤ m) (high : m < 2 ^ 53)
    (least : -1074 ≤ e + k) :
    roundWithAccuracy binary64 s (m * 2 ^ k) e .exact = .finite s m (e + k) (by omega) := by
  have hlog := log2_of_normal low high
  have hlogk : (m * 2 ^ k).log2 = 52 + k := by
    rw [Nat.log2_eq_iff (by positivity), pow_add, add_assoc, add_comm k 1, ← add_assoc, pow_add]
    exact ⟨Nat.mul_le_mul_right _ low, Nat.mul_lt_mul_of_pos_right high (by positivity)⟩
  have target : binary64.targetExponent (totalExponent (m * 2 ^ k) e) = e + k := by
    simp [targetExponent, totalExponent, hlogk, mantissaBits, minExponent]
    omega
  have target' : binary64.targetExponent (totalExponent m (e + k)) = e + k := by
    simp [targetExponent, totalExponent, hlog, mantissaBits, minExponent]
    omega
  have first : shiftToTargetExponent binary64 (m * 2 ^ k) e .exact
      = (⟨m, false, false⟩, e + k) := by
    simp only [shiftToTargetExponent, shiftToExponent, target,
      ExtendedMantissa.ofMantissaAndAccuracy]
    rw [show (e + k - e).toNat = k by omega, shiftRight_exact _ _ (Dvd.intro_left _ rfl),
      Nat.mul_div_cancel _ (by positivity)]
  have second : shiftToTargetExponent binary64 m (e + k) .exact
      = (⟨m, false, false⟩, e + k) := by
    simp only [shiftToTargetExponent, shiftToExponent, target',
      ExtendedMantissa.ofMantissaAndAccuracy]
    rw [show (e + k - (e + k) : Int).toNat = 0 by omega, shiftRight_exact _ _ (by simp)]
    simp
  have rounded : (⟨m, false, false⟩ : ExtendedMantissa).roundedMantissa = m := rfl
  simp only [roundWithAccuracy, first, rounded, second]
  rw [dif_neg (by omega)]

/-! ## Numbers below `2 ^ 53` -/

/-- The significand of a positive number below `2 ^ 53`. -/
def significand (n : Nat) : Nat := n * 2 ^ (52 - n.log2)

theorem log2_le (n : Nat) (h : 0 < n) (hn : n < 2 ^ 53) : n.log2 ≤ 52 := by
  have := (Nat.log2_lt (by omega)).mpr hn
  omega

theorem significand_bounds (n : Nat) (h : 0 < n) (hn : n < 2 ^ 53) :
    2 ^ 52 ≤ significand n ∧ significand n < 2 ^ 53 := by
  have hl := log2_le n h hn
  have low := Nat.log2_self_le (n := n) (by omega)
  have high := Nat.lt_log2_self (n := n)
  constructor
  · calc
      2 ^ 52 = 2 ^ n.log2 * 2 ^ (52 - n.log2) := by rw [← pow_add]; congr 1; omega
      _ ≤ significand n := Nat.mul_le_mul_right _ low
  · calc
      significand n < 2 ^ (n.log2 + 1) * 2 ^ (52 - n.log2) :=
        Nat.mul_lt_mul_of_pos_right high (by positivity)
      _ = 2 ^ 53 := by rw [← pow_add]; congr 1; omega

theorem significand_pos (n : Nat) (h : 0 < n) : 0 < significand n := by
  unfold significand
  positivity

theorem ofNat_finite (n : Nat) (h : 0 < n) (hn : n < 2 ^ 53) :
    UnpackedFloat.ofNat binary64 n
      = .finite .positive (significand n) (-(52 - n.log2 : Nat)) (significand_pos n h) := by
  have hl := log2_le n h hn
  obtain ⟨low, high⟩ := significand_bounds n h hn
  have target : binary64.targetExponent (totalExponent n 0) = -(52 - n.log2 : Nat) := by
    simp [targetExponent, totalExponent, mantissaBits, minExponent]
    omega
  have positive : compare (n : Int) 0 = .gt := by
    rw [compare_gt_iff_gt]
    omega
  have scaled : n * 2 ^ (52 - n.log2) = significand n * 2 ^ 0 := by
    rw [pow_zero, mul_one]
    rfl
  simp only [UnpackedFloat.ofNat, UnpackedFloat.ofInt, UnpackedFloat.normalize, positive,
    UnpackedFloat.round, Int.toNat_natCast, target, decreaseExponent]
  rw [show (0 - -((52 - n.log2 : Nat) : Int)).toNat = 52 - n.log2 by omega, Nat.shiftLeft_eq,
    scaled, round_exact _ _ _ _ low high (by omega)]
  congr 1
  omega

theorem unpack_small {n : Nat} (pos : 0 < n) (small : n < 2 ^ 53) :
    n.toUInt64.toFloat.toModel.unpack
      = .finite .positive (significand n) (-(52 - n.log2 : Nat)) (significand_pos n pos) := by
  have word : n.toUInt64.toNat = n := by
    simp
    omega
  have bits := log2_le n pos small
  obtain ⟨low, high⟩ := significand_bounds n pos small
  change unpack binary64 (pack binary64 (UnpackedFloat.ofNat binary64 n.toUInt64.toNat)) = _
  rw [word, ofNat_finite n pos small]
  exact unpack_pack ⟨significand_pos n pos, high, by omega, by omega, .inl low⟩

/-- A numeral is read as its digits times a power of ten, here times one. -/
theorem ofNat_eq_mul_one (n : Nat) (hn : n < 2 ^ 53) :
    Float.ofNat n = n.toUInt64.toFloat * Float.ofBits 0x3FF0000000000000 := by
  change Float.ofScientific n false 0 = _
  rw [Float.ofScientific, dif_pos ⟨hn, by omega⟩]
  rfl

theorem unpack_ofNat (n : Nat) (h : 0 < n) (hn : n < 2 ^ 53) :
    (Float.ofNat n).toModel.unpack
      = .finite .positive (significand n) (-(52 - n.log2 : Nat)) (significand_pos n h) := by
  obtain ⟨low, high⟩ := significand_bounds n h hn
  have one : (Float.Model.ofBits 0x3FF0000000000000).unpack
      = .finite .positive (2 ^ 52) (-52) (by decide) := rfl
  rw [ofNat_eq_mul_one n hn]
  change unpack binary64 (pack binary64 (UnpackedFloat.mul binary64
    n.toUInt64.toFloat.toModel.unpack (Float.Model.ofBits 0x3FF0000000000000).unpack)) = _
  rw [unpack_small h hn, one]
  simp only [UnpackedFloat.mul]
  rw [round_exact _ _ _ _ low high (by omega)]
  refine (unpack_pack ⟨significand_pos n h, high, by omega, by omega, .inl low⟩).trans ?_
  congr 1
  omega

theorem toInt_ofNat (n : Nat) (hn : n < 2 ^ 53) (low high : Int) :
    (Float.ofNat n).toModel.unpack.toInt low high = n := by
  rcases Nat.eq_zero_or_pos n with rfl | h
  · rfl
  · have hl := log2_le n h hn
    rw [unpack_ofNat n h hn]
    simp only [UnpackedFloat.toInt, roundToInt, decreaseExponent, shiftToExponent,
      ExtendedMantissa.ofMantissaAndAccuracy, Sign.apply, shiftRight_mantissa]
    rw [show (-((52 - n.log2 : Nat) : Int) - 0).toNat = 0 by omega]
    simp [significand]

theorem toUInt64_ofNat (n : Nat) (hn : n < 2 ^ 53) : (Float.ofNat n).toUInt64.toNat = n := by
  have ht : (Float.ofNat n).toUInt64 = UInt64.ofNatClamp (n : Int).toNat := by
    rw [← toInt_ofNat n hn 0 (UInt64.size - 1)]
    rfl
  rw [ht, Int.toNat_natCast, UInt64.ofNatClamp_eq_ofNat _ (by simp [UInt64.size]; omega)]
  simp
  omega

theorem not_ofNat_lt_zero (n : Nat) (hn : n < 2 ^ 53) : ¬ Float.ofNat n < 0 := by
  have zero : (0 : Float).toModel.unpack = .zero .positive := rfl
  intro h
  replace h : (UnpackedFloat.compare (Float.ofNat n).toModel.unpack (0 : Float).toModel.unpack
    == some .lt) = true := of_decide_eq_true h
  rcases Nat.eq_zero_or_pos n with rfl | hp
  · exact absurd h (by decide)
  · rw [unpack_ofNat n hp hn, zero] at h
    simp [UnpackedFloat.compare] at h

end FlatStack.Exact

namespace FlatStack.Machine

theorem exact_le_addressBound : 2 ^ 53 ≤ addressBound := by decide

theorem maxSlots_exact : maxSlots < 2 ^ 53 := by decide

theorem address_ofNat (n : Nat) (hn : n < 2 ^ 53) : address (some (Float.ofNat n)) = n := by
  have inside := exact_le_addressBound
  unfold address
  simp only [Option.getD_some]
  rw [if_neg (Exact.not_ofNat_lt_zero n hn), Exact.toUInt64_ofNat n hn]
  omega

theorem count_ofNat (n : Nat) (hn : n < 2 ^ 53) : count (some (Float.ofNat n)) = n :=
  Exact.toUInt64_ofNat n hn

end FlatStack.Machine
