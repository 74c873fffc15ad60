import FlatStack.Machine.Basic
import FlatStack.Proofs.Exact

/-!
# Operands as integers

An operand is a binary64 number, and the machine uses it as an address or as
a count. It is cut to an integer: the fraction is dropped, what lies outside
of the integers of a word becomes the nearest of them, and what is no number
becomes zero.
-/

set_option autoImplicit false

namespace FlatStack

open Decimal (Binary64)

/-! ## Cut numbers -/

/-- A number without its fraction. -/
def truncated (v : ℚ) : Int := if v < 0 then ⌈v⌉ else ⌊v⌋

theorem truncated_neg (v : ℚ) : truncated (-v) = -truncated v := by
  unfold truncated
  rcases lt_trichotomy v 0 with below | rfl | above
  · rw [if_pos below, if_neg (by linarith), Int.floor_neg]
  · simp
  · rw [if_pos (by linarith), if_neg (by linarith), Int.ceil_neg]

/-- The integer part of `m * 2 ^ q`. -/
def whole (m : Nat) (q : Int) : Nat := m * 2 ^ q.toNat / 2 ^ (-q).toNat

theorem truncated_scaled (m : Nat) (q : Int) : truncated (m * 2 ^ q) = whole m q := by
  have parts : (m * 2 ^ q : ℚ) = ((m * 2 ^ q.toNat : Nat) : ℚ) / ((2 ^ (-q).toNat : Nat) : ℚ) := by
    rcases Int.le_total 0 q with up | down
    · obtain ⟨k, rfl⟩ := Int.eq_ofNat_of_zero_le up
      simp
    · obtain ⟨k, hk⟩ := Int.eq_ofNat_of_zero_le (Int.neg_nonneg_of_nonpos down)
      obtain rfl : q = -k := by omega
      simp [div_eq_mul_inv]
  unfold truncated whole
  rw [if_neg (not_lt.mpr (by positivity)), parts, Rat.floor_natCast_div_natCast]
  rfl

namespace Decimal.Binary64

/-- A number cut to an integer from `low` to `high`; zero if it is no number. -/
def saturated (low high : Int) : Binary64 → Int
  | .nan => 0
  | .infinite negative => if negative then low else high
  | .finite negative m q =>
    max low (min high (truncated (if negative then -(m * 2 ^ q) else m * 2 ^ q)))

variable {low high : Int}

theorem saturated_finite (negative : Bool) (m : Nat) (q : Int) :
    (finite negative m q).saturated low high
      = max low (min high (if negative then -whole m q else whole m q)) := by
  cases negative with
  | false => simp [saturated, truncated_scaled]
  | true => simp [saturated, truncated_neg, truncated_scaled]

theorem saturated_bounds (x : Binary64) (least : low ≤ 0) (most : 0 ≤ high) :
    low ≤ x.saturated low high ∧ x.saturated low high ≤ high := by
  cases x with
  | nan => exact ⟨least, most⟩
  | infinite negative => cases negative <;> simp [saturated] <;> omega
  | finite negative m q =>
    rw [saturated]
    omega

end Decimal.Binary64

/-! ## Unpacked numbers -/

namespace Packing

open Float.Model (UnpackedFloat)
open Float.Model.Format Float.Model.UnpackedFloat

variable {x : Float} {u : UnpackedFloat}

def isNegative : Sign → Bool
  | .negative => true
  | .positive => false

/-- The decoded word of a number that is unpacked to `u`. -/
def decoded : UnpackedFloat → Binary64
  | .notANumber => .nan
  | .infinity s => .infinite (isNegative s)
  | .zero s => .finite (isNegative s) 0 Binary64.leastExponent
  | .finite s m q _ => .finite (isNegative s) m q

theorem isNegative_signBit (negative : Bool) : isNegative (signBit negative) = negative := by
  cases negative <;> rfl

theorem ofFloat_unpack (x : Float) : Binary64.ofFloat x = decoded x.toModel.unpack := by
  cases h : Binary64.ofFloat x with
  | nan =>
    obtain rfl := of_nan h
    rfl
  | infinite negative =>
    obtain rfl := of_infinite h
    cases negative <;> rfl
  | finite negative m q =>
    rcases Nat.eq_zero_or_pos m with rfl | pos
    · obtain rfl := of_zero h
      rw [← h]
      cases negative <;> decide +kernel
    · obtain ⟨can, rfl⟩ := of_finite h pos
      rw [unpack_number, decoded, isNegative_signBit]

theorem unpack_neg (x : Float) : (-x).toModel.unpack = x.toModel.unpack.neg := by
  cases h : Binary64.ofFloat x with
  | nan =>
    obtain rfl := of_nan h
    rfl
  | infinite negative =>
    obtain rfl := of_infinite h
    cases negative <;> rfl
  | finite negative m q =>
    rcases Nat.eq_zero_or_pos m with rfl | pos
    · obtain rfl := of_zero h
      cases negative <;> rfl
    · obtain ⟨can, rfl⟩ := of_finite h pos
      rw [neg_number, unpack_number, unpack_number]
      cases negative <;> rfl

/-- What is left of a finite number is its significand, shifted by its exponent. -/
theorem toInt_finite (s : Sign) (m : Nat) (q : Int) (pos : 0 < m) (low high : Int) :
    (UnpackedFloat.finite s m q pos).toInt low high = s.apply (whole m q) := by
  simp only [UnpackedFloat.toInt, roundToInt, decreaseExponent, shiftToExponent,
    ExtendedMantissa.ofMantissaAndAccuracy, Exact.shiftRight_mantissa, Nat.shiftLeft_eq]
  rw [show (0 - (q - ((q - 0).toNat : Int))).toNat = (-q).toNat by omega]
  simp [whole]

theorem toNat_ofNatClamp (n : Nat) : (UInt64.ofNatClamp n).toNat = min n (2 ^ 64 - 1) := by
  have size : UInt64.size = 2 ^ 64 := rfl
  unfold UInt64.ofNatClamp
  split <;> rw [UInt64.toNat_ofNatLT] <;> omega

/-- The cast to a word saturates. -/
theorem toNat_toUInt64 (x : Float) :
    (x.toUInt64.toNat : Int) = (Binary64.ofFloat x).saturated 0 (2 ^ 64 - 1) := by
  have cast : x.toUInt64.toNat = min (x.toModel.unpack.toInt 0 (2 ^ 64 - 1)).toNat (2 ^ 64 - 1) :=
    toNat_ofNatClamp _
  rw [cast, ofFloat_unpack]
  cases x.toModel.unpack with
  | notANumber => rfl
  | infinity s => cases s <;> rfl
  | zero s =>
    rw [decoded, Binary64.saturated_finite]
    simp [UnpackedFloat.toInt, whole]
  | finite s m q pos =>
    rw [toInt_finite, decoded, Binary64.saturated_finite]
    cases s <;> simp [isNegative, Sign.apply]
    omega

end Packing

/-! ## Operands -/

namespace Machine

open Float.Model (UnpackedFloat)
open Packing

/-- The integer of 64 bits that an operand is cut to. -/
def encoded (operand : Option Float) : Int :=
  (Binary64.ofFloat (operand.getD 0)).saturated (-2 ^ 63) (2 ^ 63 - 1)

theorem encoded_bounds (operand : Option Float) :
    -2 ^ 63 ≤ encoded operand ∧ encoded operand ≤ 2 ^ 63 - 1 :=
  Binary64.saturated_bounds _ (by decide) (by decide)

/-- Addresses count up from zero, and those below zero from minus one down. -/
theorem address_encoded (operand : Option Float) : (address operand : Int)
    = if 0 ≤ encoded operand then encoded operand else -encoded operand - 1 := by
  unfold address encoded
  generalize operand.getD 0 = x
  have up := toNat_toUInt64 x
  have down := toNat_toUInt64 (-x)
  have below : x < 0 ↔ (x.toModel.unpack.compare (.zero .positive) == some .lt) = true :=
    decide_eq_true_iff
  rw [ofFloat_unpack] at up down ⊢
  rw [unpack_neg] at down
  have bound : addressBound = 2 ^ 63 := rfl
  simp only [below, bound]
  generalize x.toModel.unpack = u at up down ⊢
  cases u with
  | notANumber =>
    have zero : x.toUInt64.toNat = 0 := Int.natCast_inj.mp up
    simp [zero, UnpackedFloat.compare, decoded, Binary64.saturated]
  | infinity s =>
    cases s with
    | negative =>
      have most : (-x).toUInt64.toNat = 2 ^ 64 - 1 := Int.natCast_inj.mp down
      simp [most, UnpackedFloat.compare, decoded, isNegative, Binary64.saturated]
    | positive =>
      have most : x.toUInt64.toNat = 2 ^ 64 - 1 := Int.natCast_inj.mp up
      simp [most, UnpackedFloat.compare, decoded, isNegative, Binary64.saturated]
  | zero s =>
    have nothing : whole 0 Binary64.leastExponent = 0 := by simp [whole]
    rw [decoded, Binary64.saturated_finite, nothing] at up ⊢
    have zero : x.toUInt64.toNat = 0 := by simpa using up
    simp [zero, UnpackedFloat.compare]
  | finite s m q pos =>
    simp only [UnpackedFloat.neg, decoded, Binary64.saturated_finite] at up down ⊢
    generalize whole m q = n at up down ⊢
    cases s with
    | negative =>
      have cut : (-x).toUInt64.toNat = min n (2 ^ 64 - 1) := by
        simp [isNegative] at down
        omega
      simp [cut, UnpackedFloat.compare, isNegative]
      omega
    | positive =>
      have cut : x.toUInt64.toNat = min n (2 ^ 64 - 1) := by
        simp [isNegative] at up
        omega
      simp [cut, UnpackedFloat.compare, isNegative]
      omega

theorem address_lt (operand : Option Float) : address operand < addressBound := by
  have decoded := address_encoded operand
  have bounds := encoded_bounds operand
  have bound : addressBound = 2 ^ 63 := rfl
  split at decoded <;> omega

theorem count_saturated (operand : Option Float) : (count operand : Int)
    = (Binary64.ofFloat (operand.getD 0)).saturated 0 (2 ^ 64 - 1) :=
  toNat_toUInt64 _

end Machine

end FlatStack
