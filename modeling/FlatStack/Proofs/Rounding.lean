import FlatStack.Decimal.Binary64
import FlatStack.Proofs.Exact

/-!
# Rounding to the nearest number

The logical model of binary64 arithmetic truncates an exact number and keeps
two bits that tell how far it lies above. Whatever it was truncated to, a
number in the interval around a binary64 number rounds to it. The interval
ends half way to the neighbours, and at an end the even significand wins.
-/

set_option autoImplicit false

namespace FlatStack.Rounding

open Float.Model (UnpackedFloat totalExponent)
open Float.Model.Format Float.Model.UnpackedFloat
open Packing (Canonical)

variable {em : ExtendedMantissa} {v : ℚ} {m n : Nat} {q e : Int} {a : Accuracy} {s : Sign}

/-! ## Truncated significands -/

/-- The bits behind a significand tell where `v` lies above it: nowhere, below, at or beyond the
half way to the next one. -/
def Describes : ExtendedMantissa → ℚ → Prop
  | ⟨n, false, false⟩, v => v = n
  | ⟨n, false, true⟩, v => (n : ℚ) < v ∧ v < n + 1 / 2
  | ⟨n, true, false⟩, v => v = n + 1 / 2
  | ⟨n, true, true⟩, v => (n : ℚ) + 1 / 2 < v ∧ v < n + 1

theorem Describes.bounds (h : Describes em v) : (em.mantissa : ℚ) ≤ v ∧ v < em.mantissa + 1 := by
  obtain ⟨n, _ | _, _ | _⟩ := em
  all_goals
    simp only [Describes] at h ⊢
    constructor <;> linarith

theorem Describes.shiftRightOne (h : Describes em v) : Describes em.shiftRightOne (v / 2) := by
  obtain ⟨n, r, t⟩ := em
  -- The lowest bit of the significand becomes the round bit, and the other two become sticky.
  rcases Nat.even_or_odd' n with ⟨k, rfl | rfl⟩
  · have half : ExtendedMantissa.shiftRightOne ⟨2 * k, r, t⟩ = ⟨k, false, r || t⟩ := by
      simp [ExtendedMantissa.shiftRightOne]
    rw [half]
    cases r <;> cases t
    all_goals
      simp only [Describes, Bool.or_false, Bool.or_true] at h ⊢
      push_cast at h
      first
        | linarith
        | constructor <;> linarith
  · have half : ExtendedMantissa.shiftRightOne ⟨2 * k + 1, r, t⟩ = ⟨k, true, r || t⟩ := by
      simp [ExtendedMantissa.shiftRightOne]
      omega
    rw [half]
    cases r <;> cases t
    all_goals
      simp only [Describes, Bool.or_false, Bool.or_true] at h ⊢
      push_cast at h
      first
        | linarith
        | constructor <;> linarith

theorem Describes.shiftRight (h : Describes em v) (k : Nat) : Describes (em >>> k) (v / 2 ^ k) := by
  induction k with
  | zero => simpa [HShiftRight.hShiftRight, Nat.repeat] using h
  | succ k ih =>
    rw [pow_succ, ← div_div]
    exact ih.shiftRightOne

/-- Rounding finds the integer that lies no further than a half away, the even one of two. -/
theorem Describes.rounded (h : Describes em v) (low : (m : ℚ) - 1 / 2 ≤ v)
    (high : v ≤ m + 1 / 2) (ends : m % 2 = 0 ∨ (m : ℚ) - 1 / 2 < v ∧ v < m + 1 / 2) :
    em.roundedMantissa = m := by
  have near : em.mantissa = m ∨ em.mantissa + 1 = m := by
    obtain ⟨atLeast, below⟩ := h.bounds
    have upper : (em.mantissa : ℚ) < (m + 1 : Nat) := by push_cast; linarith
    have lower : (m : ℚ) < (em.mantissa + 2 : Nat) := by push_cast; linarith
    rw [Nat.cast_lt] at upper lower
    omega
  obtain ⟨n, _ | _, _ | _⟩ := em
  all_goals simp only [Describes] at h near
  · rcases near with rfl | rfl
    · rfl
    · push_cast at low
      linarith
  · rcases near with rfl | rfl
    · rfl
    · push_cast at low
      linarith
  · -- `v` lies half way, so `m` is even.
    have even : m % 2 = 0 := by
      refine ends.resolve_right ?_
      rintro ⟨above, below⟩
      rcases near with rfl | rfl
      · linarith
      · push_cast at above
        linarith
    change n + n % 2 = m
    omega
  · rcases near with rfl | rfl
    · linarith
    · rfl

/-! ## Shifts -/

theorem shift_settled (high : n < 2 ^ 53) (least : -1074 ≤ e) :
    shiftToTargetExponent binary64 n e .exact = (⟨n, false, false⟩, e) := by
  have hlog : n.log2 ≤ 52 := by
    rcases Nat.eq_zero_or_pos n with rfl | h
    · simp
    · exact Exact.log2_le n h high
  have target : (binary64.targetExponent (totalExponent n e) - e).toNat = 0 := by
    simp [targetExponent, totalExponent, mantissaBits, minExponent]
    omega
  simp only [shiftToTargetExponent, shiftToExponent, target,
    ExtendedMantissa.ofMantissaAndAccuracy, Exact.shiftRight_exact n 0 (by simp)]
  simp

/-- A significand that rounding made too long ends in zeros. -/
theorem shift_carried (least : -1074 ≤ e) :
    shiftToTargetExponent binary64 (2 ^ 53) e .exact = (⟨2 ^ 52, false, false⟩, e + 1) := by
  have target : (binary64.targetExponent (totalExponent (2 ^ 53) e) - e).toNat = 1 := by
    simp only [targetExponent, totalExponent, mantissaBits, minExponent, Nat.log2_two_pow]
    norm_num
    omega
  simp only [shiftToTargetExponent, shiftToExponent, target,
    ExtendedMantissa.ofMantissaAndAccuracy, Exact.shiftRight_exact (2 ^ 53) 1 (by norm_num)]
  norm_num

/-! ## Intervals -/

/-- How far the interval of `m * 2 ^ q` reaches below it, in quarters of `2 ^ q`. The neighbour
below the least significand of 53 bits is only half as far as the one above. -/
def reachBelow (m : Nat) (q : Int) : ℚ := if m = 2 ^ 52 ∧ q ≠ -1074 then 1 else 2

/-- The number `v` lies in the interval of `m * 2 ^ q`. -/
structure Near (m : Nat) (q : Int) (v : ℚ) : Prop where
  low : 4 * m - reachBelow m q ≤ 4 * (v / 2 ^ q)
  high : 4 * (v / 2 ^ q) ≤ 4 * m + 2
  ends : m % 2 = 0 ∨ 4 * m - reachBelow m q < 4 * (v / 2 ^ q) ∧ 4 * (v / 2 ^ q) < 4 * m + 2

theorem reachBelow_le : reachBelow m q ≤ 2 := by
  unfold reachBelow
  split <;> norm_num

theorem reachBelow_pos : 0 < reachBelow m q := by
  unfold reachBelow
  split <;> norm_num

theorem near_self : Near m q (m * 2 ^ q) := by
  have exact : (m : ℚ) * 2 ^ q / 2 ^ q = m := mul_div_cancel_right₀ _ (by positivity)
  have := reachBelow_pos (m := m) (q := q)
  exact ⟨by rw [exact]; linarith, by rw [exact]; linarith,
    .inr ⟨by rw [exact]; linarith, by rw [exact]; linarith⟩⟩

/-- The exponent that a truncated number is first shifted to. -/
def target (n : Nat) (e : Int) : Int := binary64.targetExponent (totalExponent n e)

theorem target_eq (n : Nat) (e : Int) : target n e = max (n.log2 + e - 52) (-1074) := by
  simp only [target, targetExponent, totalExponent, mantissaBits, minExponent]
  norm_num
  omega

/-- The leading bit of the truncated number is that of the exact one. -/
theorem leading_bounds (h : Describes em (v / 2 ^ e)) (hn : em.mantissa = n) (pos : 0 < n) :
    (2 : ℚ) ^ (n.log2 + e - q) ≤ v / 2 ^ q ∧ v / 2 ^ q < 2 ^ (n.log2 + e - q + 1) := by
  obtain ⟨low, high⟩ := h.bounds
  rw [hn] at low high
  have atLeast : ((2 ^ n.log2 : Nat) : ℚ) ≤ n := by
    exact_mod_cast Nat.log2_self_le (Nat.pos_iff_ne_zero.mp pos)
  have below : ((n + 1 : Nat) : ℚ) ≤ (2 ^ (n.log2 + 1) : Nat) := by
    exact_mod_cast Nat.lt_log2_self
  push_cast at atLeast below
  have scale : v / 2 ^ q = v / 2 ^ e * 2 ^ (e - q) := by
    rw [zpow_sub₀ two_ne_zero]
    field_simp
  have first : (2 : ℚ) ^ (n.log2 + e - q) = 2 ^ n.log2 * 2 ^ (e - q) := by
    rw [add_sub_assoc, zpow_add₀ two_ne_zero, zpow_natCast]
  have next : (2 : ℚ) ^ (n.log2 + e - q + 1) = 2 ^ (n.log2 + 1) * 2 ^ (e - q) := by
    rw [zpow_add_one₀ two_ne_zero, first, pow_succ]
    ring
  have positive : (0 : ℚ) < 2 ^ (e - q) := by positivity
  rw [scale, first, next]
  exact ⟨mul_le_mul_of_nonneg_right (atLeast.trans low) positive.le,
    mul_lt_mul_of_pos_right (high.trans_le below) positive⟩

section Targets

variable (can : Canonical m q) (near : Near m q v) (h : Describes em (v / 2 ^ e))
  (hn : em.mantissa = n)

include can near h hn

/-- All bits of the significand were kept. -/
theorem target_of_long (long : 2 ^ 52 ≤ n) :
    e ≤ target n e ∧ (target n e = q ∨ target n e = q - 1 ∧ m = 2 ^ 52 ∧ v / 2 ^ q < 2 ^ 52) := by
  have below := near.high
  have above := near.low
  have reach := reachBelow_le (m := m) (q := q)
  have most : (m : ℚ) + 1 ≤ 2 ^ 53 := by exact_mod_cast can.high
  have least := can.least
  have bits : 52 ≤ n.log2 := (Nat.le_log2 (by omega)).mpr long
  obtain ⟨lead, next⟩ := leading_bounds (q := q) h hn (by omega)
  have upper : n.log2 + e - q < 53 := by
    rw [← zpow_lt_zpow_iff_right₀ (one_lt_two : (1 : ℚ) < 2)]
    norm_num at lead most ⊢
    linarith
  rw [target_eq]
  refine ⟨by omega, ?_⟩
  rcases eq_or_ne q (-1074) with rfl | other
  · exact .inl (by omega)
  have normal := can.normal.resolve_right other
  have normal' : (4503599627370496 : ℚ) ≤ m := by exact_mod_cast normal
  by_cases under : v / 2 ^ q < 2 ^ 52
  · have lowest : m = 2 ^ 52 := by
      by_contra other
      have larger : (2 ^ 52 + 1 : Nat) ≤ m := by omega
      have larger : ((2 ^ 52 + 1 : Nat) : ℚ) ≤ m := by exact_mod_cast larger
      push_cast at larger
      linarith
    have lower : 51 < n.log2 + e - q + 1 := by
      rw [← zpow_lt_zpow_iff_right₀ (one_lt_two : (1 : ℚ) < 2)]
      norm_num at next ⊢
      linarith
    have upper : n.log2 + e - q < 52 := by
      rw [← zpow_lt_zpow_iff_right₀ (one_lt_two : (1 : ℚ) < 2)]
      norm_num at lead under ⊢
      linarith
    exact .inr ⟨by omega, lowest, under⟩
  · have lower : 52 < n.log2 + e - q + 1 := by
      rw [← zpow_lt_zpow_iff_right₀ (one_lt_two : (1 : ℚ) < 2)]
      norm_num at next under ⊢
      linarith
    exact .inl (by omega)

/-- The number was truncated at the least exponent or below and is too small for any other. -/
theorem target_of_short (short : n < 2 ^ 52) (tiny : e ≤ -1074) :
    e ≤ target n e ∧ target n e = q := by
  have bits : n.log2 ≤ 51 := by
    rcases Nat.eq_zero_or_pos n with rfl | pos
    · simp
    · have := (Nat.log2_lt (by omega)).mpr short
      omega
  have least : target n e = -1074 := by
    rw [target_eq]
    omega
  refine ⟨by omega, ?_⟩
  rcases can.normal with normal | rfl
  swap
  · exact least
  by_contra other
  have gap : e - q ≤ -1 := by
    have := can.least
    omega
  obtain ⟨nonneg, small⟩ := h.bounds
  rw [hn] at nonneg small
  have short' : (n : ℚ) + 1 ≤ 2 ^ 52 := by exact_mod_cast short
  have normal' : (4503599627370496 : ℚ) ≤ m := by exact_mod_cast normal
  have scale : v / 2 ^ q = v / 2 ^ e * 2 ^ (e - q) := by
    rw [zpow_sub₀ two_ne_zero]
    field_simp
  have half : (2 : ℚ) ^ (e - q) ≤ 2 ^ (-1 : Int) := zpow_le_zpow_right₀ one_le_two gap
  have product : v / 2 ^ q ≤ v / 2 ^ e * 2 ^ (-1 : Int) := by
    rw [scale]
    exact mul_le_mul_of_nonneg_left half (le_trans (by positivity) nonneg)
  have above := near.low
  have reach := reachBelow_le (m := m) (q := q)
  norm_num at product short'
  linarith

/-- A number near `m * 2 ^ q` is first shifted to the exponent `q`, unless it lies below the least
number with that exponent. -/
theorem target_near (enough : 2 ^ 52 ≤ n ∨ e ≤ -1074) :
    e ≤ target n e ∧ (target n e = q ∨ target n e = q - 1 ∧ m = 2 ^ 52 ∧ v / 2 ^ q < 2 ^ 52) := by
  rcases lt_or_ge n (2 ^ 52) with short | long
  · have reached := target_of_short can near h hn short (enough.resolve_left (by omega))
    exact ⟨reached.1, .inl reached.2⟩
  · exact target_of_long can near h hn long

end Targets

/-- A number that was truncated early enough rounds to the number it is near. -/
theorem round_near (can : Canonical m q) (near : Near m q v)
    (h : Describes (ExtendedMantissa.ofMantissaAndAccuracy n a) (v / 2 ^ e))
    (enough : 2 ^ 52 ≤ n ∨ e ≤ -1074) :
    roundWithAccuracy binary64 s n e a = .finite s m q can.pos := by
  have hn : (ExtendedMantissa.ofMantissaAndAccuracy n a).mantissa = n := by
    cases a with
    | exact => rfl
    | inexact o => cases o <;> rfl
  obtain ⟨early, reached⟩ := target_near can near h hn enough
  obtain ⟨low, high, ends⟩ := near
  have place : e + (target n e - e).toNat = target n e := by omega
  have first : shiftToTargetExponent binary64 n e a
      = (ExtendedMantissa.ofMantissaAndAccuracy n a >>> (target n e - e).toNat, target n e) := by
    simp only [shiftToTargetExponent, shiftToExponent]
    exact congrArg _ place
  have shifted := h.shiftRight (target n e - e).toNat
  have scale : v / 2 ^ e / 2 ^ (target n e - e).toNat = v / 2 ^ target n e := by
    conv_rhs => rw [← place, zpow_add₀ two_ne_zero, zpow_natCast]
    rw [div_div]
  rw [scale] at shifted
  generalize ExtendedMantissa.ofMantissaAndAccuracy n a >>> (target n e - e).toNat = em
    at first shifted
  have reach := reachBelow_le (m := m) (q := q)
  rcases reached with same | ⟨before, rfl, under⟩
  · rw [same] at first shifted
    have rounded : em.roundedMantissa = m := by
      refine shifted.rounded (by linarith) (by linarith) ?_
      exact ends.imp_right fun strict => ⟨by linarith [strict.1], by linarith [strict.2]⟩
    simp only [roundWithAccuracy, first, rounded, shift_settled can.high can.least]
    rw [dif_neg (by have := can.pos; omega)]
  · -- Just below the least significand of 53 bits all bits are ones, and rounding carries over.
    have least : -1074 ≤ q - 1 := by
      rw [← before, target_eq]
      exact le_max_right _ _
    have quarter : reachBelow (2 ^ 52) q = 1 := if_pos ⟨rfl, by omega⟩
    have double : v / 2 ^ (q - 1) = 2 * (v / 2 ^ q) := by
      rw [zpow_sub_one₀ two_ne_zero]
      field_simp
    rw [before, double] at shifted
    rw [before] at first
    rw [quarter] at low
    push_cast at low
    have rounded : em.roundedMantissa = 2 ^ 53 := by
      refine shifted.rounded ?_ ?_ (.inl (by norm_num))
      · push_cast
        linarith
      · push_cast
        linarith
    simp only [roundWithAccuracy, first, rounded, shift_carried least]
    rw [dif_neg (by norm_num)]
    congr 1
    omega

/-! ## Products and quotients -/

theorem describes_exact (n : Nat) : Describes (ExtendedMantissa.ofMantissaAndAccuracy n .exact) n :=
  rfl

theorem describes_quotient (n d : Nat) (hd : 0 < d) :
    Describes (ExtendedMantissa.ofMantissaAndAccuracy (n / d) (accuracyOfFraction (n % d) d))
      ((n : ℚ) / d) := by
  have positive : (0 : ℚ) < d := by exact_mod_cast hd
  have parts : (n : ℚ) = d * (n / d : Nat) + (n % d : Nat) := by
    exact_mod_cast (Nat.div_add_mod n d).symm
  have less : ((n % d : Nat) : ℚ) < d := by exact_mod_cast Nat.mod_lt n hd
  generalize n / d = k at parts ⊢
  generalize n % d = r at parts less ⊢
  have value : (n : ℚ) / d = k + r / d := by
    rw [parts]
    field_simp
  rw [value]
  unfold accuracyOfFraction
  split
  · rename_i zero
    subst zero
    simp [ExtendedMantissa.ofMantissaAndAccuracy, Describes]
  · rename_i some
    have above : (0 : ℚ) < r / d := by
      have : 0 < r := by omega
      positivity
    cases order : compare (2 * r) d with
    | lt =>
      have order : ((2 * r : Nat) : ℚ) < d := by exact_mod_cast compare_lt_iff_lt.mp order
      push_cast at order
      have : (r : ℚ) / d < 1 / 2 := by rw [div_lt_div_iff₀ positive two_pos]; linarith
      exact ⟨by linarith, by linarith⟩
    | eq =>
      have order : ((2 * r : Nat) : ℚ) = d := by exact_mod_cast compare_eq_iff_eq.mp order
      push_cast at order
      have : (r : ℚ) / d = 1 / 2 := by rw [div_eq_div_iff positive.ne' two_ne_zero]; linarith
      change (k : ℚ) + r / d = k + 1 / 2
      rw [this]
    | gt =>
      have order : (d : ℚ) < (2 * r : Nat) := by exact_mod_cast compare_gt_iff_gt.mp order
      push_cast at order
      have : (1 : ℚ) / 2 < r / d := by rw [div_lt_div_iff₀ two_pos positive]; linarith
      have : (r : ℚ) / d < 1 := (div_lt_one positive).mpr less
      exact ⟨by linarith, by linarith⟩

/-- A product rounds to the number it is near. -/
theorem mul_near (can : Canonical m q) {s₁ s₂ : Sign} {m₁ m₂ : Nat} {e₁ e₂ : Int}
    (pos₁ : 0 < m₁) (pos₂ : 0 < m₂) (near : Near m q (m₁ * 2 ^ e₁ * (m₂ * 2 ^ e₂)))
    (enough : 2 ^ 52 ≤ m₁ * m₂) :
    UnpackedFloat.mul binary64 (.finite s₁ m₁ e₁ pos₁) (.finite s₂ m₂ e₂ pos₂)
      = .finite (s₁ * s₂) m q can.pos := by
  refine round_near can near ?_ (.inl enough)
  have exact : (m₁ : ℚ) * 2 ^ e₁ * (m₂ * 2 ^ e₂) / 2 ^ (e₁ + e₂) = (m₁ * m₂ : Nat) := by
    rw [zpow_add₀ two_ne_zero]
    push_cast
    field_simp
  rw [exact]
  exact describes_exact _

/-- The dividend is scaled until its quotient has 53 bits or the least exponent. -/
theorem quotient_enough {m₁ m₂ k : Nat} {e t : Int} (pos : 0 < m₁) (pos' : 0 < m₂)
    (ht : t = min e (target m₁ (e - (m₂.log2 + 1)))) (hk : (k : Int) = e - t) :
    2 ^ 52 ≤ m₁ * 2 ^ k / m₂ ∨ t ≤ -1074 := by
  rw [target_eq] at ht
  by_cases least : t ≤ -1074
  · exact .inr least
  refine .inl ((Nat.le_div_iff_mul_le pos').mpr ?_)
  have low := Nat.log2_self_le (Nat.pos_iff_ne_zero.mp pos)
  have high := Nat.lt_log2_self (n := m₂)
  calc
    2 ^ 52 * m₂ ≤ 2 ^ 52 * 2 ^ (m₂.log2 + 1) := Nat.mul_le_mul_left _ high.le
    _ = 2 ^ (52 + (m₂.log2 + 1)) := (pow_add ..).symm
    _ ≤ 2 ^ (m₁.log2 + k) := Nat.pow_le_pow_right two_pos (by omega)
    _ = 2 ^ m₁.log2 * 2 ^ k := pow_add ..
    _ ≤ m₁ * 2 ^ k := Nat.mul_le_mul_right _ low

/-- A quotient rounds to the number it is near. -/
theorem div_near (can : Canonical m q) {s₁ s₂ : Sign} {m₁ m₂ : Nat} {e₁ e₂ : Int}
    (pos₁ : 0 < m₁) (pos₂ : 0 < m₂) (near : Near m q (m₁ * 2 ^ e₁ / (m₂ * 2 ^ e₂))) :
    UnpackedFloat.div binary64 (.finite s₁ m₁ e₁ pos₁) (.finite s₂ m₂ e₂ pos₂)
      = .finite (s₁ / s₂) m q can.pos := by
  obtain ⟨t, ht⟩ : ∃ t, t = min (e₁ - e₂) (target m₁ (e₁ - e₂ - (m₂.log2 + 1))) := ⟨_, rfl⟩
  have same : min (e₁ - e₂) (binary64.targetExponent (totalExponent m₁ e₁ - totalExponent m₂ e₂))
      = t := by
    rw [ht, target]
    simp only [totalExponent]
    congr 2
    omega
  obtain ⟨k, hk⟩ : ∃ k : Nat, (k : Int) = e₁ - e₂ - t := ⟨(e₁ - e₂ - t).toNat, by omega⟩
  simp only [UnpackedFloat.div, divCore, same, ← hk, Int.toNat_natCast, Nat.shiftLeft_eq]
  refine round_near can near ?_ (quotient_enough pos₁ pos₂ ht hk)
  have exact : (m₁ : ℚ) * 2 ^ e₁ / (m₂ * 2 ^ e₂) / 2 ^ t = (m₁ * 2 ^ k : Nat) / m₂ := by
    have scale : (2 : ℚ) ^ e₁ = 2 ^ k * 2 ^ e₂ * 2 ^ t := by
      rw [← zpow_natCast, ← zpow_add₀ two_ne_zero, ← zpow_add₀ two_ne_zero]
      congr 1
      omega
    rw [scale]
    push_cast
    field_simp
  rw [exact]
  exact describes_quotient _ _ pos₂

end FlatStack.Rounding
