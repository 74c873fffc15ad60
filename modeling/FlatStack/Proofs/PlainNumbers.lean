import FlatStack.Proofs.WrittenNumbers

/-!
# Numbers of compiled code

Addresses, counts and numerals are read as products and quotients of what is
positive. So none of them is a negative zero or no number at all, and each
comes back from its text as it was.
-/

set_option autoImplicit false

namespace FlatStack

namespace Decimal

open Float.Model (UnpackedFloat)
open Float.Model.Format Float.Model.UnpackedFloat
open Packing (word_fields word_packComponents signBit)

variable {x : Float} {u : UnpackedFloat} {n width k : Nat} {e : Int}

/-- A number, and not a negative zero. -/
def Plain (x : Float) : Prop := x.isNaN = false ∧ unsignedZero x = x

theorem isNaN_eq_false (h : Binary64.ofFloat x ≠ .nan) : x.isNaN = false := by
  cases decoded : Binary64.ofFloat x with
  | nan => exact absurd decoded h
  | infinite negative =>
    rw [Packing.of_infinite decoded]
    cases negative <;> decide +kernel
  | finite negative m q =>
    rcases Nat.eq_zero_or_pos m with rfl | pos
    · rw [Packing.of_zero decoded]
      cases negative <;> decide +kernel
    · obtain ⟨can, rfl⟩ := Packing.of_finite decoded pos
      change (Packing.number negative can).toModel.unpack.isNaN = false
      rw [Packing.unpack_number]
      rfl

theorem plain_of_word {field fraction : Nat}
    (word : x.toBits.toNat = field * 2 ^ 52 + fraction) (hfield : field < 2047)
    (hfraction : fraction < 2 ^ 52) : Plain x := by
  obtain ⟨negative, field', fraction', word', hfield', hfraction', decoded⟩ := word_fields x
  have sign : negative = false := by
    cases negative
    · rfl
    · simp at word'
      omega
  subst sign
  have same : field' = field := by
    simp at word'
    omega
  subst same
  rw [if_neg (by omega)] at decoded
  constructor
  · apply isNaN_eq_false
    rw [decoded]
    split <;> simp
  · unfold unsignedZero
    split
    · rename_i negative _ zero
      have sign : negative = false := by
        rw [decoded] at zero
        split at zero <;> simp_all
      rw [Packing.of_zero zero, sign]
      rfl
    · rfl

/-- A number whose sign is positive. -/
def Positive : UnpackedFloat → Prop
  | .notANumber => False
  | .infinity s | .zero s | .finite s .. => s = .positive

/-- Too large a number is packed as the infinity, and no other has that exponent field. -/
theorem pack_positive (m : Nat) (e : Int) (h : 0 < m) :
    pack binary64 (.finite .positive m e h) = packedInfinity binary64 .positive
      ∨ ∃ field < 2047, ∃ f : BitVec 52, pack binary64 (.finite .positive m e h)
        = packComponents binary64 .positive (.ofNat 11 field) f := by
  obtain ⟨field, hfield⟩ : ∃ field : Nat,
      (e + (exponentBias binary64 : Int) + (52 : Nat)).toNat = field := ⟨_, rfl⟩
  unfold pack
  simp only [hfield]
  split
  · exact .inl rfl
  · rename_i small
    have small : field < 2047 := by
      have : (2 : Nat) ^ 11 = 2048 := rfl
      omega
    split
    · exact .inr ⟨field, small, _, rfl⟩
    · exact .inr ⟨0, by omega, _, rfl⟩

theorem plain_pack (h : Positive u) : Plain (.ofModel (.pack u)) := by
  cases u with
  | notANumber => exact h.elim
  | infinity s =>
    cases h
    constructor <;> decide +kernel
  | zero s =>
    cases h
    constructor <;> decide +kernel
  | finite s m e hm =>
    cases h
    rcases pack_positive m e hm with packed | ⟨field, small, f, packed⟩
    · have infinite : Float.ofModel (.pack (.finite .positive m e hm)) = 1.0 / 0.0 :=
        Packing.ext_of_word (congrArg BitVec.toNat packed)
      rw [infinite]
      constructor <;> decide +kernel
    · have word : (Float.ofModel (.pack (.finite .positive m e hm))).toBits.toNat
          = field * 2 ^ 52 + f.toNat := by
        refine (congrArg BitVec.toNat packed).trans ?_
        have parts := @word_packComponents false (.ofNat 11 field) f
        rw [BitVec.toNat_ofNat, Nat.mod_eq_of_lt (by omega)] at parts
        simpa [signBit] using parts
      exact plain_of_word word small f.isLt

theorem positive_round (n : Nat) (e : Int) (a : Accuracy) :
    Positive (roundWithAccuracy binary64 .positive n e a) := by
  unfold roundWithAccuracy
  dsimp only
  split <;> rfl

theorem positive_mul {m₁ m₂ : Nat} {e₁ e₂ : Int} (h₁ : 0 < m₁) (h₂ : 0 < m₂) :
    Positive (UnpackedFloat.mul binary64 (.finite .positive m₁ e₁ h₁)
      (.finite .positive m₂ e₂ h₂)) :=
  positive_round _ _ _

theorem positive_div {m₁ m₂ : Nat} {e₁ e₂ : Int} (h₁ : 0 < m₁) (h₂ : 0 < m₂) :
    Positive (UnpackedFloat.div binary64 (.finite .positive m₁ e₁ h₁)
      (.finite .positive m₂ e₂ h₂)) :=
  positive_round _ _ _

theorem positive_ofScientific (n : Nat) (e : Int) :
    Positive (UnpackedFloat.ofScientific binary64 n e) := by
  unfold UnpackedFloat.ofScientific
  split
  · rfl
  split
  · rfl
  split
  · rfl
  split
  · exact positive_mul _ _
  · exact positive_div _ _

theorem plain_ofScientific (pos : 0 < n) (down : Bool) (k : Nat) :
    Plain (Float.ofScientific n down k) := by
  unfold Float.ofScientific
  split
  · rename_i fast
    obtain ⟨small, hk⟩ := fast
    have hk : k < Float.exactlyRepresentablePowersOfTen.size := Nat.lt_succ_of_le hk
    have digits := Exact.unpack_small pos small
    have power : (Float.exactlyRepresentablePowersOfTen[k]).toModel.unpack = _ :=
      (congrArg (fun x : Float => x.toModel.unpack) (Rounding.ten_exact k hk)).trans
        (Packing.unpack_number _)
    cases down
    · change Plain (.ofModel (.pack (UnpackedFloat.mul binary64 n.toUInt64.toFloat.toModel.unpack
        (Float.exactlyRepresentablePowersOfTen[k]).toModel.unpack)))
      rw [digits, power]
      exact plain_pack (positive_mul _ _)
    · change Plain (.ofModel (.pack (UnpackedFloat.div binary64 n.toUInt64.toFloat.toModel.unpack
        (Float.exactlyRepresentablePowersOfTen[k]).toModel.unpack)))
      rw [digits, power]
      exact plain_pack (positive_div _ _)
  · exact plain_pack (positive_ofScientific n _)

theorem plain_zero : Plain 0 := by
  constructor <;> decide +kernel

theorem plain_ofNat (n : Nat) : Plain (Float.ofNat n) := by
  rcases Nat.eq_zero_or_pos n with rfl | pos
  · exact plain_zero
  · exact plain_ofScientific pos false 0

theorem plain_nearest (n width : Nat) (e : Int) : Plain (nearest n width e) := by
  unfold nearest
  split
  · exact plain_zero
  rename_i nonzero
  split
  · constructor <;> decide +kernel
  split
  · exact plain_zero
  · exact plain_ofScientific (by omega) _ _

theorem plain_readDigits {cs : List Char} {x : Float} (h : readDigits? cs = some x) :
    Plain x := by
  unfold readDigits? at h
  dsimp only at h
  split at h
  all_goals
    split at h
    · cases h
    · obtain ⟨e, -, rfl⟩ := Option.map_eq_some_iff.mp h
      exact plain_nearest _ _ _

end Decimal

end FlatStack
