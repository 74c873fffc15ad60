import FlatStack.Decimal.Binary64
import Mathlib

/-!
# Numbers and their words

A binary64 number is told by its decoded word: by the sign, significand and
exponent if it is finite. Packing and unpacking lose nothing of it.
-/

set_option autoImplicit false

namespace FlatStack.Packing

open Float.Model (UnpackedFloat)
open Float.Model.Format Float.Model.UnpackedFloat
open Decimal (Binary64)

variable {m : Nat} {q : Int} {s : Sign} {x y : Float} {negative : Bool}

/-! ## Packing -/

/-- `m * 2 ^ q` as binary64 has it: with 53 bits unless the exponent is the least one. -/
structure Canonical (m : Nat) (q : Int) : Prop where
  pos : 0 < m
  high : m < 2 ^ 53
  least : -1074 ≤ q
  most : q ≤ 971
  normal : 2 ^ 52 ≤ m ∨ q = -1074

/-- The exponent field of a number. -/
def exponentField (m : Nat) (q : Int) : Nat := if 2 ^ 52 ≤ m then (q + 1075).toNat else 0

theorem exponentField_lt (can : Canonical m q) : exponentField m q < 2047 := by
  have := can.most
  unfold exponentField
  split <;> omega

theorem log2_of_normal (low : 2 ^ 52 ≤ m) (high : m < 2 ^ 53) : m.log2 = 52 := by
  rw [Nat.log2_eq_iff (by omega)]
  exact ⟨low, high⟩

/-- Only the lowest 52 bits of a significand are packed. -/
theorem pack_finite (can : Canonical m q) : pack binary64 (.finite s m q can.pos)
    = packComponents binary64 s (.ofNat 11 (exponentField m q)) (.ofNat 52 m) := by
  have biased : (q + (exponentBias binary64 : Int) + (52 : Nat)).toNat = (q + 1075).toNat := by
    simp [exponentBias]
    omega
  obtain ⟨pos, high, least, most, normal⟩ := can
  simp only [pack, biased]
  rw [if_neg (by simp; omega)]
  unfold exponentField
  by_cases low : 2 ^ 52 ≤ m
  · rw [if_pos (by rw [log2_of_normal low high]; rfl), if_pos low]
  · have bits : m.log2 < 52 := (Nat.log2_lt (by omega)).mpr (by omega)
    rw [if_neg (by simp [mantissaBits]; omega), if_neg low]

theorem field_toNat (can : Canonical m q) :
    (BitVec.ofNat 11 (exponentField m q)).toNat = exponentField m q := by
  have field := exponentField_lt can
  rw [BitVec.toNat_ofNat, Nat.mod_eq_of_lt (by omega)]

theorem field_ne_ones (can : Canonical m q) : BitVec.ofNat 11 (exponentField m q) ≠ -1#11 := by
  have field := exponentField_lt can
  rw [← BitVec.toNat_ne_iff_ne, field_toNat can]
  simp
  omega

theorem unpack_pack (can : Canonical m q) :
    unpack binary64 (pack binary64 (.finite s m q can.pos)) = .finite s m q can.pos := by
  have sign : Sign.ofBitVec s.toBitVec = s := by cases s <;> rfl
  have hfield := field_toNat can
  rw [pack_finite can]
  simp only [unpack, unpackExponent_packComponents, unpackMantissa_packComponents,
    unpackSign_packComponents, sign]
  rw [if_neg (field_ne_ones can)]
  obtain ⟨pos, high, least, most, normal⟩ := can
  by_cases low : 2 ^ 52 ≤ m
  · have zeros : BitVec.ofNat 11 (exponentField m q) ≠ 0#11 := by
      rw [← BitVec.toNat_ne_iff_ne, hfield, exponentField, if_pos low]
      simp
      omega
    have hidden : (1#1 ++ BitVec.ofNat 52 m).toNat = m := by
      rw [BitVec.toNat_append, ← Nat.shiftLeft_add_eq_or_of_lt (BitVec.isLt _)]
      simp
      omega
    have exponent : ((BitVec.ofNat 11 (exponentField m q)).toNat : Int) - 1075 = q := by
      rw [hfield, exponentField, if_pos low]
      omega
    rw [if_neg zeros]
    simp only [hidden]
    congr 1
  · -- A significand without its leading bit has the exponent field zero.
    have least : q = -1074 := normal.resolve_left low
    have nothing : exponentField m q = 0 := if_neg low
    have fraction : (BitVec.ofNat 52 m).toNat = m := by
      rw [BitVec.toNat_ofNat, Nat.mod_eq_of_lt (by omega)]
    have some : BitVec.ofNat 52 m ≠ 0#52 := by
      rw [← BitVec.toNat_ne_iff_ne, fraction]
      simp
      omega
    rw [nothing, if_pos rfl, dif_neg some]
    simp only [fraction]
    congr 1
    simp [exponentBias, least]

/-! ## Words -/

def signBit (negative : Bool) : Sign := if negative then .negative else .positive

theorem word_packComponents (e : BitVec 11) (f : BitVec 52) :
    (packComponents binary64 (signBit negative) e f).toNat
      = negative.toNat * 2 ^ 63 + e.toNat * 2 ^ 52 + f.toNat := by
  have he := e.isLt
  have hf := f.isLt
  cases negative
  all_goals
    simp only [packComponents, signBit, BitVec.toNat_append,
      ← Nat.shiftLeft_add_eq_or_of_lt he, ← Nat.shiftLeft_add_eq_or_of_lt hf]
    simp [Sign.toBitVec, Nat.shiftLeft_eq]
  omega

theorem ext_of_word (h : x.toBits.toNat = y.toBits.toNat) : x = y := by
  obtain ⟨⟨x, _⟩⟩ := x
  obtain ⟨⟨y, _⟩⟩ := y
  have same : x = y := UInt64.toNat_inj.mp h
  subst same
  rfl

/-- The number `m * 2 ^ q`, negated when `negative` holds. -/
def number (negative : Bool) (can : Canonical m q) : Float :=
  .ofModel (.pack (.finite (signBit negative) m q can.pos))

theorem unpack_number (can : Canonical m q) :
    (number negative can).toModel.unpack = .finite (signBit negative) m q can.pos :=
  unpack_pack can

theorem neg_number (can : Canonical m q) : -number negative can = number (!negative) can := by
  change Float.ofModel (.pack (number negative can).toModel.unpack.neg) = _
  rw [unpack_number]
  cases negative <;> rfl

theorem number_beq (can : Canonical m q) : number negative can == number negative can := by
  change (UnpackedFloat.compare (number negative can).toModel.unpack
    (number negative can).toModel.unpack == some .eq) = true
  rw [unpack_number]
  cases negative <;> simp [signBit, UnpackedFloat.compare]

theorem word_number (can : Canonical m q) : (number negative can).toBits.toNat
    = negative.toNat * 2 ^ 63 + exponentField m q * 2 ^ 52 + m % 2 ^ 52 := by
  change (pack binary64 (.finite (signBit negative) m q can.pos)).toNat = _
  rw [pack_finite can, word_packComponents, field_toNat can, BitVec.toNat_ofNat]

/-! ## Decoded words -/

/-- A word is decoded by its exponent field and the bits behind it. -/
theorem word_fields (x : Float) : ∃ (negative : Bool) (field fraction : Nat),
    x.toBits.toNat = negative.toNat * 2 ^ 63 + field * 2 ^ 52 + fraction
      ∧ field < 2 ^ 11 ∧ fraction < 2 ^ 52
      ∧ Binary64.ofFloat x
        = if field = 2047 then if fraction = 0 then .infinite negative else .nan
          else if field = 0 then .finite negative fraction Binary64.leastExponent
          else .finite negative (2 ^ 52 + fraction) (field - 1075) := by
  have bound : x.toBits.toNat < 2 ^ 64 := x.toBits.toNat_lt
  refine ⟨decide (2 ^ 63 ≤ x.toBits.toNat), x.toBits.toNat / 2 ^ 52 % 2 ^ 11,
    x.toBits.toNat % 2 ^ 52, ?_, Nat.mod_lt _ (by norm_num), Nat.mod_lt _ (by norm_num), rfl⟩
  by_cases h : 2 ^ 63 ≤ x.toBits.toNat
  · simp only [h, decide_true, Bool.toNat_true]
    omega
  · simp only [h, decide_false, Bool.toNat_false]
    omega

theorem of_finite (h : Binary64.ofFloat x = .finite negative m q) (pos : 0 < m) :
    ∃ can : Canonical m q, x = number negative can := by
  obtain ⟨sign, field, fraction, word, hfield, hfraction, decoded⟩ := word_fields x
  rw [decoded] at h
  split at h
  · split at h <;> cases h
  split at h
  · cases h
    have can : Canonical m Binary64.leastExponent :=
      ⟨pos, by omega, by decide, by decide, .inr rfl⟩
    refine ⟨can, ext_of_word ?_⟩
    rw [word, word_number, exponentField, if_neg (by omega), Nat.mod_eq_of_lt hfraction]
    omega
  · cases h
    have can : Canonical (2 ^ 52 + fraction) (field - 1075) :=
      ⟨pos, by omega, by omega, by omega, .inl (by omega)⟩
    refine ⟨can, ext_of_word ?_⟩
    rw [word, word_number, exponentField, if_pos (by omega)]
    omega

theorem zero_word : (if negative then -0 else 0 : Float).toBits.toNat
    = negative.toNat * 2 ^ 63 := by
  cases negative <;> decide +kernel

theorem of_zero (h : Binary64.ofFloat x = .finite negative 0 q) :
    x = if negative then -0 else 0 := by
  obtain ⟨sign, field, fraction, word, hfield, hfraction, decoded⟩ := word_fields x
  rw [decoded] at h
  split at h
  · split at h <;> cases h
  split at h
  · cases h
    refine ext_of_word (word.trans (Eq.trans ?_ zero_word.symm))
    omega
  · simp only [Binary64.finite.injEq] at h
    omega

theorem infinity_word : (if negative then -(1.0 / 0.0) else 1.0 / 0.0 : Float).toBits.toNat
    = negative.toNat * 2 ^ 63 + 2047 * 2 ^ 52 := by
  cases negative <;> decide +kernel

theorem of_infinite (h : Binary64.ofFloat x = .infinite negative) :
    x = if negative then -(1.0 / 0.0) else 1.0 / 0.0 := by
  obtain ⟨sign, field, fraction, word, hfield, hfraction, decoded⟩ := word_fields x
  rw [decoded] at h
  split at h
  swap
  · split at h <;> cases h
  split at h
  · cases h
    refine ext_of_word (word.trans (Eq.trans ?_ infinity_word.symm))
    omega
  · cases h

theorem nan_bits : (0.0 / 0.0 : Float).toBits.toBitVec = packedNaN binary64 := rfl

/-- All words that stand for no number are one. -/
theorem of_nan (h : Binary64.ofFloat x = .nan) : x = 0.0 / 0.0 := by
  obtain ⟨sign, field, fraction, word, hfield, hfraction, decoded⟩ := word_fields x
  rw [decoded] at h
  split at h
  swap
  · split at h <;> cases h
  rename_i ones
  split at h
  · cases h
  rename_i some
  have parts : x.toBits.toBitVec
      = packComponents binary64 (signBit sign) (.ofNat 11 field) (.ofNat 52 fraction) := by
    apply BitVec.eq_of_toNat_eq
    rw [word_packComponents, BitVec.toNat_ofNat, BitVec.toNat_ofNat, Nat.mod_eq_of_lt hfield,
      Nat.mod_eq_of_lt hfraction]
    exact word
  have canonical : x.toBits.toBitVec = packedNaN binary64 := by
    apply x.toModel.valid.eq_packedNaN
    · change @unpackExponent binary64 x.toBits.toBitVec = _
      rw [parts, unpackExponent_packComponents, ones]
      rfl
    · change @unpackMantissa binary64 x.toBits.toBitVec ≠ _
      rw [parts, unpackMantissa_packComponents]
      intro hc
      have := congrArg BitVec.toNat hc
      rw [BitVec.toNat_ofNat, Nat.mod_eq_of_lt hfraction] at this
      exact some this
  exact ext_of_word (congrArg BitVec.toNat (canonical.trans nan_bits.symm))

end FlatStack.Packing
