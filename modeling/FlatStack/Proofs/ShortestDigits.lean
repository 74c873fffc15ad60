import FlatStack.Decimal.Shortest
import FlatStack.Proofs.Rounding

/-!
# The shortest digits lie in the interval

A decimal on a grid is tested by natural numbers that stand for the ends of
the interval. Seventeen digits give a grid fine enough to meet every interval,
so the search for the shortest decimal always ends with one inside.
-/

set_option autoImplicit false

namespace FlatStack.Rounding

open Decimal (Interval Scaled)
open Packing (Canonical)

variable {m n : Nat} {q k e : Int}

/-! ## Scales -/

/-- What one quarter of `2 ^ q` counts in the steps of a grid. -/
def scale (q k : Int) : Nat := 2 ^ (q - 2).toNat * 10 ^ (-k).toNat

theorem scale_pos (q k : Int) : (0 : ℚ) < scale q k := by
  unfold scale
  positivity

theorem zpow_toNat {b : ℚ} (hb : b ≠ 0) (k : Int) : b ^ k.toNat = b ^ (-k).toNat * b ^ k := by
  rw [← zpow_natCast, ← zpow_natCast, ← zpow_add₀ hb]
  congr 1
  omega

theorem unit_eq (m : Nat) (q k : Int) : (((Interval.ofBinary m q).inSteps k).unit : ℚ)
    = scale q k * (4 * (10 ^ k / 2 ^ q)) := by
  have two := zpow_toNat (b := 2) (by norm_num) (2 - q)
  have ten := zpow_toNat (b := 10) (by norm_num) k
  have quarter : (2 : ℚ) ^ (2 - q) = 4 / 2 ^ q := by
    rw [zpow_sub₀ two_ne_zero]
    norm_num
  rw [neg_sub] at two
  simp only [Interval.ofBinary, Interval.inSteps, scale, Nat.pow_eq]
  push_cast
  rw [two, ten, quarter]
  ring

/-- The steps of `10 ^ k` around `m * 2 ^ q`. -/
abbrev steps (m : Nat) (q k : Int) : Interval := (Interval.ofBinary m q).inSteps k

theorem value_eq (m : Nat) (q k : Int) : ((steps m q k).value : ℚ) = scale q k * (4 * m) := by
  simp only [steps, Interval.ofBinary, Interval.inSteps, scale, Nat.pow_eq]
  push_cast
  ring

theorem high_eq (m : Nat) (q k : Int) : ((steps m q k).high : ℚ) = scale q k * (4 * m + 2) := by
  simp only [steps, Interval.ofBinary, Interval.inSteps, scale, Nat.pow_eq]
  push_cast
  ring

theorem low_eq (pos : 0 < m) (q k : Int) :
    ((steps m q k).low : ℚ) = scale q k * (4 * m - reachBelow m q) := by
  obtain ⟨r, reach, enough, low⟩ : ∃ r : Nat, (r : ℚ) = reachBelow m q ∧ r ≤ 4 * m
      ∧ (steps m q k).low = (4 * m - r) * 2 ^ (q - 2).toNat * 10 ^ (-k).toNat := by
    refine ⟨if m = 2 ^ 52 ∧ q ≠ -1074 then 1 else 2, ?_, ?_, rfl⟩
    · unfold reachBelow
      split <;> rfl
    · split <;> omega
  rw [low, scale, ← reach]
  push_cast [Nat.cast_sub enough]
  ring

/-- A test against the ends tells whether a point of the grid lies in the interval. -/
theorem contains_iff (pos : 0 < m) (a : Nat) :
    (steps m q k).contains (a * (steps m q k).unit) = true ↔ Near m q (a * 10 ^ k) := by
  have positive := scale_pos q k
  have point : ((a * (steps m q k).unit : Nat) : ℚ)
      = scale q k * (4 * (a * 10 ^ k / 2 ^ q)) := by
    push_cast [unit_eq]
    ring
  have low := low_eq pos q k
  have high := high_eq m q k
  have atLeast : (steps m q k).low ≤ a * (steps m q k).unit
      ↔ 4 * m - reachBelow m q ≤ 4 * ((a : ℚ) * 10 ^ k / 2 ^ q) := by
    rw [← Nat.cast_le (α := ℚ), point, low, mul_le_mul_iff_right₀ positive]
  have atMost : a * (steps m q k).unit ≤ (steps m q k).high
      ↔ 4 * ((a : ℚ) * 10 ^ k / 2 ^ q) ≤ 4 * m + 2 := by
    rw [← Nat.cast_le (α := ℚ), point, high, mul_le_mul_iff_right₀ positive]
  have above : (steps m q k).low < a * (steps m q k).unit
      ↔ 4 * m - reachBelow m q < 4 * ((a : ℚ) * 10 ^ k / 2 ^ q) := by
    rw [← Nat.cast_lt (α := ℚ), point, low, mul_lt_mul_iff_right₀ positive]
  have below : a * (steps m q k).unit < (steps m q k).high
      ↔ 4 * ((a : ℚ) * 10 ^ k / 2 ^ q) < 4 * m + 2 := by
    rw [← Nat.cast_lt (α := ℚ), point, high, mul_lt_mul_iff_right₀ positive]
  have closed : (steps m q k).closed = decide (m % 2 = 0) := rfl
  unfold Interval.contains
  rw [closed]
  by_cases even : m % 2 = 0
  · rw [if_pos (by simpa using even), decide_eq_true_iff, atLeast, atMost]
    exact ⟨fun h => ⟨h.1, h.2, .inl even⟩, fun h => ⟨h.low, h.high⟩⟩
  · rw [if_neg (by simpa using even), decide_eq_true_iff, above, below]
    exact ⟨fun h => ⟨h.1.le, h.2.le, .inr h⟩, fun h => h.ends.resolve_left even⟩

theorem nearest?_near (pos : 0 < m) (h : (Interval.ofBinary m q).nearest? k = some n) :
    Near m q (n * 10 ^ k) := by
  unfold Interval.nearest? at h
  simp only at h
  split at h
  · rename_i found
    cases h
    exact (contains_iff pos _).mp (Bool.and_eq_true_iff.mp found).1
  · split at h
    · rename_i found
      cases h
      exact (contains_iff pos _).mp found
    · cases h

/-- Multiples of the number and of a step are compared as rationals. -/
theorem multiples_lt_iff (m : Nat) (q k : Int) (c d : Nat) :
    c * (steps m q k).value < d * (steps m q k).unit
      ↔ (c : ℚ) * m < d * (10 ^ k / 2 ^ q) := by
  have positive := scale_pos q k
  have left : ((c * (steps m q k).value : Nat) : ℚ) = scale q k * 4 * (c * m) := by
    push_cast [value_eq]
    ring
  have right : ((d * (steps m q k).unit : Nat) : ℚ) = scale q k * 4 * (d * (10 ^ k / 2 ^ q)) := by
    push_cast [unit_eq]
    ring
  rw [← Nat.cast_lt (α := ℚ), left, right, mul_lt_mul_iff_right₀ (by positivity)]

theorem unit_pos (m : Nat) (q k : Int) : 0 < (steps m q k).unit := by
  have positive := scale_pos q k
  rw [← Nat.cast_pos (α := ℚ), unit_eq]
  positivity

/-- A grid whose steps are short enough meets the interval. -/
theorem nearest?_isSome (pos : 0 < m) (fine : (10 : ℚ) ^ k / 2 ^ q < reachBelow m q / 2) :
    ((Interval.ofBinary m q).nearest? k).isSome := by
  have reach := reachBelow_le (m := m) (q := q)
  have order := multiples_lt_iff m q k
  have point (a : Nat) : 4 * ((a : ℚ) * 10 ^ k / 2 ^ q) = 4 * (a * (10 ^ k / 2 ^ q)) := by ring
  have positive : (0 : ℚ) < 10 ^ k / 2 ^ q := by positivity
  generalize (10 : ℚ) ^ k / 2 ^ q = t at fine order point positive
  obtain ⟨a, ha⟩ : ∃ a, (steps m q k).value / (steps m q k).unit = a := ⟨_, rfl⟩
  unfold Interval.nearest?
  simp only [ha]
  -- The number lies between the point `a` of the grid and the next one, and one of them is close.
  have floor : (a : ℚ) * t ≤ m := by
    have fits := (Nat.le_div_iff_mul_le (unit_pos m q k)).mp ha.ge
    have := mt (order 1 a).mpr (by omega)
    push_cast at this
    linarith
  have ceiling : (m : ℚ) < (a + 1) * t := by
    have fits : (steps m q k).value < (a + 1) * (steps m q k).unit :=
      (Nat.div_lt_iff_lt_mul (unit_pos m q k)).mp (by omega)
    have := (order 1 (a + 1)).mp (by omega)
    push_cast at this
    linarith
  by_cases nearer : 2 * (steps m q k).value < (2 * a + 1) * (steps m q k).unit
  · have half := (order 2 (2 * a + 1)).mp nearer
    push_cast at half
    have lower : (steps m q k).contains (a * (steps m q k).unit) = true := by
      rw [contains_iff pos]
      refine ⟨?_, ?_, .inr ⟨?_, ?_⟩⟩
      all_goals
        rw [point]
        linarith
    rw [if_pos (by simp [lower, nearer])]
    rfl
  · have half := not_lt.mp (mt (order 2 (2 * a + 1)).mpr nearer)
    push_cast at half
    have upper : (steps m q k).contains ((a + 1) * (steps m q k).unit) = true := by
      rw [contains_iff pos]
      refine ⟨?_, ?_, .inr ⟨?_, ?_⟩⟩
      all_goals
        rw [point]
        push_cast
        linarith
    rw [if_pos upper]
    split <;> rfl

/-! ## The order of magnitude -/

theorem below_iff (m : Nat) (q e : Int) :
    (Interval.ofBinary m q).below e = true ↔ (m : ℚ) * 2 ^ q < 10 ^ e := by
  have positive := scale_pos q e
  have left : (((Interval.ofBinary m q).value * Nat.pow 10 (-e).toNat : Nat) : ℚ)
      = scale q e * (4 / 2 ^ q) * (m * 2 ^ q) := by
    have := value_eq m q e
    simp only [Interval.inSteps] at this
    rw [this]
    field_simp
  have right : (((Interval.ofBinary m q).unit * Nat.pow 10 e.toNat : Nat) : ℚ)
      = scale q e * (4 / 2 ^ q) * 10 ^ e := by
    have := unit_eq m q e
    simp only [Interval.inSteps] at this
    rw [this]
    ring
  unfold Interval.below
  rw [decide_eq_true_iff, ← Nat.cast_lt (α := ℚ), left, right,
    mul_lt_mul_iff_right₀ (by positivity)]

/-- The first guess at a magnitude, from the binary logarithm `x`. -/
def guess (x : Int) : Int := Int.fdiv (x * 30103) 100000

theorem guess_up : ∀ x < 1024, 10 ^ (guess (x : Nat) - 1).toNat ≤ 2 ^ x := by
  decide +kernel

theorem guess_down : ∀ x < 1075,
    guess (-(x : Nat)) ≤ 1 ∧ 2 ^ x ≤ 10 ^ (1 - guess (-(x : Nat))).toNat := by
  decide +kernel

/-- The guess is at most one too high. -/
theorem guess_low (x : Int) (low : -1075 < x) (high : x < 1024) :
    (10 : ℚ) ^ (guess x - 1) ≤ 2 ^ x := by
  rcases le_or_gt 0 x with up | down
  · obtain ⟨x, rfl⟩ := Int.eq_ofNat_of_zero_le up
    have bound : (10 : ℚ) ^ (guess x - 1).toNat ≤ 2 ^ x := by
      exact_mod_cast guess_up x (by omega)
    calc
      (10 : ℚ) ^ (guess x - 1) ≤ 10 ^ ((guess x - 1).toNat : Int) :=
        zpow_le_zpow_right₀ (by norm_num) (Int.self_le_toNat _)
      _ ≤ 2 ^ (x : Int) := by rwa [zpow_natCast, zpow_natCast]
  · obtain ⟨x, rfl⟩ : ∃ y : Nat, x = -y := ⟨x.natAbs, by omega⟩
    obtain ⟨small, bound⟩ := guess_down x (by omega)
    have bound : (2 : ℚ) ^ x ≤ 10 ^ (1 - guess (-x)).toNat := by exact_mod_cast bound
    calc
      (10 : ℚ) ^ (guess (-x) - 1) = 10 ^ (-((1 - guess (-x)).toNat : Int)) := by
        congr 1
        omega
      _ = ((10 : ℚ) ^ (1 - guess (-x)).toNat)⁻¹ := by rw [zpow_neg, zpow_natCast]
      _ ≤ ((2 : ℚ) ^ x)⁻¹ := inv_anti₀ (by positivity) bound
      _ = 2 ^ (-(x : Int)) := by rw [zpow_neg, zpow_natCast]

theorem pow_log2_le (pos : 0 < m) (q : Int) : (2 : ℚ) ^ ((Nat.log2 m : Nat) + q) ≤ m * 2 ^ q := by
  have lead : ((2 ^ m.log2 : Nat) : ℚ) ≤ m := by
    exact_mod_cast Nat.log2_self_le (Nat.pos_iff_ne_zero.mp pos)
  push_cast at lead
  rw [zpow_add₀ two_ne_zero, zpow_natCast]
  exact mul_le_mul_of_nonneg_right lead (by positivity)

/-- No number is below a tenth of its magnitude. -/
theorem magnitude_low (can : Canonical m q) :
    (10 : ℚ) ^ (Decimal.magnitude m q - 1) ≤ m * 2 ^ q := by
  have bits := Exact.log2_le m can.pos can.high
  have guessed := guess_low ((Nat.log2 m : Nat) + q) (by have := can.least; omega)
    (by have := can.most; omega)
  unfold Decimal.magnitude
  simp only
  split
  · exact guessed.trans (pow_log2_le can.pos q)
  · rename_i first
    rw [below_iff] at first
    split
    · rw [add_sub_cancel_right]
      exact not_lt.mp first
    · rename_i second
      rw [below_iff] at second
      have next : ∀ g : Int, g + 2 - 1 = g + 1 := by omega
      rw [next]
      exact not_lt.mp second

/-! ## The search -/

/-- Seventeen digits reach a grid that is fine enough. -/
theorem finest_grid (can : Canonical m q) :
    (10 : ℚ) ^ (Decimal.magnitude m q - 17) / 2 ^ q < reachBelow m q / 2 := by
  have low := magnitude_low can
  have most : (m : ℚ) + 1 ≤ 2 ^ 53 := by exact_mod_cast can.high
  have step : (10 : ℚ) ^ (Decimal.magnitude m q - 17) / 2 ^ q ≤ m / 10 ^ 16 := by
    have split : (10 : ℚ) ^ (Decimal.magnitude m q - 17)
        = 10 ^ (Decimal.magnitude m q - 1) / 10 ^ 16 := by
      rw [eq_div_iff (by norm_num), ← zpow_natCast, ← zpow_add₀ (by norm_num)]
      congr 1
      push_cast
      omega
    rw [split, div_le_div_iff₀ (by positivity) (by positivity)]
    have := mul_le_mul_of_nonneg_right low (by positivity : (0 : ℚ) ≤ 10 ^ 16)
    calc
      (10 : ℚ) ^ (Decimal.magnitude m q - 1) / 10 ^ 16 * 10 ^ 16
          = 10 ^ (Decimal.magnitude m q - 1) := by field_simp
      _ ≤ m * 2 ^ q := low
  unfold reachBelow
  split
  · rename_i least
    have small : (m : ℚ) = 2 ^ 52 := by exact_mod_cast least.1
    rw [small] at step
    norm_num at step ⊢
    linarith
  · norm_num at step most ⊢
    linarith

theorem near_pos (can : Canonical m q) (near : Near m q (n * 10 ^ k)) : 0 < n := by
  have one : (1 : ℚ) ≤ m := by exact_mod_cast can.pos
  have low := near.low
  have reach := reachBelow_le (m := m) (q := q)
  by_contra none
  have zero : (n : ℚ) = 0 := by exact_mod_cast Nat.eq_zero_of_not_pos none
  rw [zero, zero_mul, zero_div] at low
  linarith

/-- The point of a grid that the search tries. -/
def point? (m : Nat) (q k : Int) : Option Scaled :=
  ((Interval.ofBinary m q).nearest? k).map fun n => ⟨n, k⟩

def grids (m : Nat) (q : Int) : List Int :=
  (List.range Decimal.mostDigits).map fun d => Decimal.magnitude m q - (d + 1 : Nat)

theorem search_found (can : Canonical m q) : ∃ d k,
    (grids m q).findSome? (point? m q) = some ⟨d, k⟩ ∧ Near m q (d * 10 ^ k) := by
  have finest : Decimal.magnitude m q - 17 ∈ grids m q :=
    List.mem_map.mpr ⟨16, by decide, by omega⟩
  have meets : (point? m q (Decimal.magnitude m q - 17)).isSome := by
    rw [point?, Option.isSome_map]
    exact nearest?_isSome can.pos (finest_grid can)
  obtain ⟨s, hs⟩ := Option.isSome_iff_exists.mp (List.findSome?_isSome_iff.mpr ⟨_, finest, meets⟩)
  obtain ⟨k, -, found⟩ := List.exists_of_findSome?_eq_some hs
  obtain ⟨n, hn, rfl⟩ := Option.map_eq_some_iff.mp found
  exact ⟨n, k, hs, nearest?_near can.pos hn⟩

/-- The search for the shortest decimal ends with one in the interval. -/
theorem shortest_near (can : Canonical m q) : 0 < (Decimal.shortest m q).digits
    ∧ Near m q ((Decimal.shortest m q).digits * 10 ^ (Decimal.shortest m q).exponent) := by
  obtain ⟨d, k, found, near⟩ := search_found can
  have result : Decimal.shortest m q = if d = 10 then ⟨1, k + 1⟩ else ⟨d, k⟩ := by
    unfold Decimal.shortest
    dsimp only
    split
    · rename_i ten
      cases found.symm.trans ten
      rfl
    · rename_i other some
      cases found.symm.trans some
      rw [if_neg fun h => other k (by rw [h])]
    · rename_i none
      cases found.symm.trans none
  rw [result]
  split
  · rename_i ten
    subst ten
    refine ⟨one_pos, ?_⟩
    have same : ((1 : Nat) : ℚ) * 10 ^ (k + 1) = (10 : Nat) * 10 ^ k := by
      rw [zpow_add_one₀ (by norm_num)]
      push_cast
      ring
    rw [same]
    exact near
  · exact ⟨near_pos can near, near⟩

end FlatStack.Rounding
