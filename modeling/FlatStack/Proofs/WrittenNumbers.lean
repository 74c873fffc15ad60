import FlatStack.Decimal.Notation
import FlatStack.Proofs.Nearest
import FlatStack.Proofs.ShortestDigits
import FlatStack.Proofs.Texts

/-!
# Written numbers are read back

An operand is written in positional notation, in full or with the shortest
digits. Either way the decimal lies in the interval around the number, so the
reader finds the number again. Only a negative zero loses its sign.
-/

set_option autoImplicit false

namespace FlatStack

namespace Decimal

open Packing (Canonical number)
open Rounding (Near)

variable {m n k : Nat} {q e : Int} {c : Char} {cs ds fs : List Char} {negative : Bool} {x : Float}

/-! ## Digits -/

theorem numberFrom_eq (n : Nat) (ds : List Char) : numberFrom n ds = Nat.ofDigitChars 10 ds n :=
  Nat.ofDigitChars_eq_foldl.symm

theorem numberFrom_append (n : Nat) (ds fs : List Char) :
    numberFrom n (ds ++ fs) = numberFrom (numberFrom n ds) fs :=
  List.foldl_append

theorem numberFrom_zeros (n k : Nat) : numberFrom n (zeros k).toList = 10 ^ k * n := by
  rw [numberFrom_eq, zeros, String.toList_ofList, Nat.ofDigitChars_replicate_zero]

theorem numberFrom_repr (n : Nat) : numberFrom 0 n.repr.toList = n := by
  rw [numberFrom_eq, Nat.toList_repr, Nat.ofDigitChars_ten_toDigits]

theorem isDigit_repr (h : c ∈ n.repr.toList) : c.isDigit :=
  Nat.isDigit_of_mem_toDigits (by decide) (by decide) (Nat.toList_repr ▸ h)

theorem isDigit_zeros (h : c ∈ (zeros k).toList) : c.isDigit := by
  rw [zeros, String.toList_ofList] at h
  rw [List.eq_of_mem_replicate h]
  decide

theorem repr_ne_nil (n : Nat) : n.repr.toList ≠ [] := by
  rw [Nat.toList_repr]
  exact Nat.toDigits_ne_nil

theorem length_zeros (k : Nat) : (zeros k).toList.length = k := by
  rw [zeros, String.toList_ofList, List.length_replicate]

theorem lt_pow_length (n : Nat) : n < 10 ^ n.repr.toList.length := by
  rw [String.length_toList]
  exact (Nat.length_repr_le_iff Nat.length_repr_pos).mp le_rfl

/-! ## Digits with a point -/

theorem readDigits_whole (digits : ∀ c ∈ ds, c.isDigit) (full : ds ≠ []) :
    readDigits? ds = some (nearest (numberFrom 0 ds) ds.length 0) := by
  have parts : ds.span Char.isDigit = (ds, []) := Text.span_all digits
  have nonempty : ds.isEmpty = false := by simpa using full
  unfold readDigits?
  simp only [parts, nonempty, Bool.false_and]
  rfl

theorem readDigits_point (digits : ∀ c ∈ ds, c.isDigit) (digits' : ∀ c ∈ fs, c.isDigit)
    (full : ds ≠ []) : readDigits? (ds ++ '.' :: fs)
      = some (nearest (numberFrom 0 (ds ++ fs)) (ds.length + fs.length) (-fs.length)) := by
  have parts : (ds ++ '.' :: fs).span Char.isDigit = (ds, '.' :: fs) :=
    Text.span_stop digits (by simp)
  have parts' : fs.span Char.isDigit = (fs, []) := Text.span_all digits'
  have nonempty : ds.isEmpty = false := by simpa using full
  unfold readDigits?
  simp only [parts, parts', nonempty, Bool.false_and, numberFrom_append]
  simp [readExponent?]

theorem digit_range (h : c.isDigit) : 48 ≤ c.toNat ∧ c.toNat ≤ 57 := by
  simpa [Char.isDigit, UInt32.le_iff_toNat_le] using h

theorem digit_toLower (h : c.isDigit) : c.toLower = c := by
  have range := digit_range h
  unfold Char.toLower
  rw [dif_neg]
  rintro ⟨upper, -⟩
  have : 65 ≤ c.toNat := UInt32.le_iff_toNat_le.mp upper
  omega

/-- What begins with a digit is none of the words. -/
theorem readUnsigned_digits (head : c.isDigit) :
    readUnsigned? (c :: cs) = readDigits? (c :: cs) := by
  have first : (String.ofList ((c :: cs).map Char.toLower)).toList.head? = some c := by
    simp [digit_toLower head]
  unfold readUnsigned?
  split
  case h_4 => rfl
  all_goals
    rename_i word
    rw [word] at first
    cases first
    exact absurd head (by decide)

theorem read_digits (head : c.isDigit) : read? (c :: cs) = readDigits? (c :: cs) := by
  rw [← readUnsigned_digits head]
  unfold read?
  split
  · rename_i sign
    cases sign
    exact absurd head (by decide)
  · rename_i sign
    cases sign
    exact absurd head (by decide)
  · rfl

/-! ## Written numbers -/

/-- A text begins with a digit and stands for `v`. -/
def Writes (text : String) (v : Float) : Prop :=
  (∃ c ∈ text.toList.head?, c.isDigit) ∧ readDigits? text.toList = some v

theorem Writes.read_signed {text : String} {v : Float} (h : Writes text v) (negative : Bool) :
    read? (signed negative text).toList = some (if negative then -v else v) := by
  obtain ⟨⟨c, first, digit⟩, reads⟩ := h
  obtain ⟨cs, chars⟩ : ∃ cs, text.toList = c :: cs := by
    cases htext : text.toList with
    | nil => rw [htext] at first; cases first
    | cons d cs =>
      rw [htext] at first
      cases first
      exact ⟨cs, rfl⟩
  rw [chars] at reads
  cases negative
  · rw [signed, if_neg (by decide), chars, read_digits digit, reads]
    rfl
  · rw [signed, if_pos rfl, String.toList_append, chars]
    change (readUnsigned? (c :: cs)).map (- ·) = _
    rw [readUnsigned_digits digit, reads]
    rfl

theorem head_of_digits (digits : ∀ c ∈ ds, c.isDigit) (full : ds ≠ []) (cs : List Char) :
    ∃ c ∈ (ds ++ cs).head?, c.isDigit := by
  cases ds with
  | nil => exact absurd rfl full
  | cons c ds => exact ⟨c, rfl, digits c List.mem_cons_self⟩

theorem writes_whole {text : String} (can : Canonical m q) (digits : ∀ c ∈ text.toList, c.isDigit)
    (full : text.toList ≠ []) (value : numberFrom 0 text.toList = n) (pos : 0 < n)
    (wide : n ≤ 10 ^ text.toList.length) (near : Near m q n) : Writes text (number false can) := by
  refine ⟨by simpa using head_of_digits digits full [], ?_⟩
  rw [readDigits_whole digits full, value]
  exact congrArg some (Rounding.nearest_near can (by simpa using near) pos wide)

theorem writes_point {text : String} (can : Canonical m q) (chars : text.toList = ds ++ '.' :: fs)
    (digits : ∀ c ∈ ds, c.isDigit) (digits' : ∀ c ∈ fs, c.isDigit) (full : ds ≠ [])
    (value : numberFrom 0 (ds ++ fs) = n) (pos : 0 < n) (wide : n ≤ 10 ^ (ds.length + fs.length))
    (near : Near m q (n * 10 ^ (-fs.length : Int))) : Writes text (number false can) := by
  refine ⟨chars ▸ head_of_digits digits full _, ?_⟩
  rw [chars, readDigits_point digits digits' full, value]
  exact congrArg some (Rounding.nearest_near can near pos wide)

theorem writes_repr (can : Canonical m q) (pos : 0 < n) (near : Near m q n) :
    Writes n.repr (number false can) :=
  writes_whole can (fun _ => isDigit_repr) (repr_ne_nil n) (numberFrom_repr n) pos
    (lt_pow_length n).le near

theorem writes_zeros (can : Canonical m q) (pos : 0 < n) (near : Near m q (n * 10 ^ (k : Int))) :
    Writes (n.repr ++ zeros k) (number false can) := by
  have chars : (n.repr ++ zeros k).toList = n.repr.toList ++ (zeros k).toList :=
    String.toList_append
  have value : numberFrom 0 (n.repr ++ zeros k).toList = 10 ^ k * n := by
    rw [chars, numberFrom_append, numberFrom_repr, numberFrom_zeros]
  have full := repr_ne_nil n
  refine writes_whole can ?_ (by simp [chars]) value (by positivity) ?_ ?_
  · intro c hc
    rw [chars] at hc
    exact (List.mem_append.mp hc).elim isDigit_repr isDigit_zeros
  · rw [chars, List.length_append, length_zeros, pow_add, mul_comm]
    exact Nat.mul_le_mul_right _ (lt_pow_length n).le
  · push_cast
    rw [mul_comm]
    simpa using near

section Places

variable (can : Canonical m q) (pos : 0 < n) (near : Near m q (n * 10 ^ (-k : Int)))

include pos near

/-- The point stands among the digits. -/
theorem writes_inside (inside : k < n.repr.toList.length) :
    Writes (String.ofList (n.repr.toList.take (n.repr.toList.length - k)) ++ "."
      ++ String.ofList (n.repr.toList.drop (n.repr.toList.length - k))) (number false can) := by
  have full := repr_ne_nil n
  have wide := lt_pow_length n
  have digits := fun c => isDigit_repr (c := c) (n := n)
  have value := numberFrom_repr n
  generalize n.repr.toList = ds at *
  have parts := List.take_append_drop (ds.length - k) ds
  have behind : (ds.drop (ds.length - k)).length = k := by
    rw [List.length_drop]
    omega
  refine writes_point can (by simp) ?_ ?_ ?_ (parts.symm ▸ value) pos ?_ ?_
  · exact fun c hc => digits c (List.mem_of_mem_take hc)
  · exact fun c hc => digits c (List.mem_of_mem_drop hc)
  · rw [ne_eq, List.take_eq_nil_iff]
    exact fun none => none.elim (by omega) full
  · rw [← List.length_append, parts]
    exact wide.le
  · rwa [behind]

/-- Zeros stand on both sides of the point. -/
theorem writes_outside (outside : n.repr.toList.length ≤ k) :
    Writes ("0." ++ zeros (k - n.repr.toList.length) ++ n.repr) (number false can) := by
  have wide := lt_pow_length n
  obtain ⟨gap, hgap⟩ : ∃ gap, k - n.repr.toList.length = gap := ⟨_, rfl⟩
  have behind : ((zeros gap).toList ++ n.repr.toList).length = k := by
    rw [List.length_append, length_zeros]
    omega
  have chars : ("0." ++ zeros gap ++ n.repr).toList
      = ['0'] ++ '.' :: ((zeros gap).toList ++ n.repr.toList) := by
    rw [String.toList_append, String.toList_append, List.append_assoc]
    rfl
  rw [hgap]
  refine writes_point can chars (by simp) ?_ (by simp) ?_ pos ?_ ?_
  · intro c hc
    exact (List.mem_append.mp hc).elim isDigit_zeros isDigit_repr
  · rw [numberFrom_append, numberFrom_append, numberFrom_zeros]
    exact numberFrom_repr n
  · rw [behind]
    exact wide.le.trans (Nat.pow_le_pow_right (by norm_num) (outside.trans (Nat.le_add_left _ _)))
  · rwa [behind]

end Places

/-- Zeros fill the places in front of the point and behind it, so the exponent is never written. -/
theorem writes_positional (can : Canonical m q) {s : Scaled} (pos : 0 < s.digits)
    (near : Near m q (s.digits * 10 ^ s.exponent)) : Writes s.positional (number false can) := by
  obtain ⟨n, k | k⟩ := s
  · exact writes_zeros can pos near
  · have near : Near m q (n * 10 ^ (-(k + 1 : Nat) : Int)) := near
    unfold Scaled.positional
    dsimp only
    split
    · rename_i inside
      exact writes_inside can pos near inside
    · rename_i outside
      exact writes_outside can pos near (not_lt.mp outside)

theorem natural?_eq (h : Binary64.natural? m q = some n) : (n : ℚ) = m * 2 ^ q := by
  unfold Binary64.natural? at h
  split at h
  · cases h
    simp
  · rename_i k
    simp only at h
    split at h
    · rename_i divides
      cases h
      have scale : ((Nat.pow 2 (k + 1) : Nat) : ℚ) = 2 ^ (k + 1) := by
        push_cast [Nat.pow_eq]
        rfl
      rw [Nat.cast_div (Nat.dvd_of_mod_eq_zero divides) (by rw [scale]; positivity), scale,
        Int.negSucc_eq, zpow_neg, div_eq_mul_inv]
      norm_cast
    · cases h

theorem natural?_zero (q : Int) : Binary64.natural? 0 q = some 0 := by
  cases q with
  | ofNat k => simp [Binary64.natural?]
  | negSucc k => simp [Binary64.natural?]

/-- Zero without its sign. -/
def unsignedZero (x : Float) : Float :=
  match Binary64.ofFloat x with
  | .finite _ 0 _ => 0
  | _ => x

/-- What is written as an operand is read as the same number. -/
theorem read_operand (x : Float) : read? (operand x).toList = some (unsignedZero x) := by
  unfold operand unsignedZero plain
  cases h : Binary64.ofFloat x with
  | nan =>
    rw [Packing.of_nan h]
    decide +kernel
  | infinite negative =>
    rw [Packing.of_infinite h]
    cases negative <;> decide +kernel
  | finite negative m q =>
    rcases Nat.eq_zero_or_pos m with rfl | pos
    · simp only [natural?_zero]
      decide +kernel
    obtain ⟨can, rfl⟩ := Packing.of_finite h pos
    have sign : number negative can
        = if negative then -number false can else number false can := by
      cases negative
      · rfl
      · exact (Packing.neg_number can : -number false can = number (!false) can).symm
    obtain ⟨m, rfl⟩ : ∃ k, m = k + 1 := ⟨m - 1, by omega⟩
    dsimp only
    cases whole : Binary64.natural? (m + 1) q with
    | some n =>
      have value := natural?_eq whole
      have positive : 0 < n := by
        have : (0 : ℚ) < n := by
          rw [value]
          positivity
        exact_mod_cast this
      obtain ⟨n, rfl⟩ : ∃ k, n = k + 1 := ⟨n - 1, by omega⟩
      change read? (signed negative (n + 1).repr).toList = some (number negative can)
      rw [sign]
      exact (writes_repr can positive (value ▸ Rounding.near_self)).read_signed negative
    | none =>
      obtain ⟨digits, near⟩ := Rounding.shortest_near can
      change read? (signed negative (shortest (m + 1) q).positional).toList
        = some (number negative can)
      rw [sign]
      exact (writes_positional can digits near).read_signed negative

/-! ## Equal numbers -/

/-- Equal as numbers, where all that is no number counts as one. -/
def SameNumber (x y : Float) : Prop := x == y ∨ x.isNaN ∧ y.isNaN

theorem unsignedZero_beq (h : x.isNaN = false) : unsignedZero x == x := by
  unfold unsignedZero
  cases decoded : Binary64.ofFloat x with
  | nan =>
    rw [Packing.of_nan decoded] at h
    exact absurd h (by decide +kernel)
  | infinite negative =>
    rw [Packing.of_infinite decoded]
    cases negative <;> decide +kernel
  | finite negative m q =>
    rcases Nat.eq_zero_or_pos m with rfl | pos
    · rw [Packing.of_zero decoded]
      change (0 : Float) == (if negative then -0 else 0)
      cases negative <;> decide +kernel
    · obtain ⟨can, rfl⟩ := Packing.of_finite decoded pos
      obtain ⟨m, rfl⟩ : ∃ k, m = k + 1 := ⟨m - 1, by omega⟩
      exact Packing.number_beq can

theorem unsignedZero_same (x : Float) : SameNumber (unsignedZero x) x := by
  cases h : x.isNaN with
  | false => exact .inl (unsignedZero_beq h)
  | true =>
    have same : unsignedZero x = x := by
      unfold unsignedZero
      split
      · rename_i negative q decoded
        have number : (if negative then -0 else 0 : Float).isNaN = false := by
          cases negative <;> decide +kernel
        rw [Packing.of_zero decoded, number] at h
        cases h
      · rfl
    rw [same]
    exact .inr ⟨h, h⟩

/-! ## The characters of written numbers -/

def isFigure (c : Char) : Bool := c.isDigit || ['-', '.', 'i', 'n', 'f', 'N', 'a'].contains c

/-- All characters of a text occur in written numbers. -/
def Figures (text : String) : Prop := text.toList.all isFigure = true

instance (text : String) : Decidable (Figures text) := inferInstanceAs (Decidable (_ = _))

theorem Figures.not_blank {text : String} (h : Figures text) : Text.Solid text.toList := by
  intro c hc
  have figure := List.all_eq_true.mp h c hc
  rw [isFigure, Bool.or_eq_true] at figure
  rcases figure with digit | mark
  · have := digit_range digit
    simp [Text.isBlank]
    omega
  · simp only [List.contains_iff_mem, List.mem_cons, List.not_mem_nil, or_false] at mark
    rcases mark with rfl | rfl | rfl | rfl | rfl | rfl | rfl
    all_goals rfl

theorem Figures.no_hash {text : String} (h : Figures text) : '#' ∉ text.toList := fun hc =>
  absurd (List.all_eq_true.mp h '#' hc) (by decide)

theorem Figures.append {a b : String} (ha : Figures a) (hb : Figures b) : Figures (a ++ b) := by
  rw [Figures, String.toList_append, List.all_append, ha, hb]
  rfl

theorem figures_digits {text : String} (h : ∀ c ∈ text.toList, c.isDigit) : Figures text :=
  List.all_eq_true.mpr fun c hc => by rw [isFigure, h c hc, Bool.true_or]

theorem figures_signed {negative : Bool} {text : String} (h : Figures text) :
    Figures (signed negative text) := by
  cases negative
  · exact h
  · exact Figures.append (by decide) h

theorem figures_positional (s : Scaled) : Figures s.positional := by
  have digits : ∀ c ∈ s.digits.repr.toList, c.isDigit := fun _ => isDigit_repr
  have zeros (k : Nat) : Figures (zeros k) := figures_digits fun _ => isDigit_zeros
  unfold Scaled.positional
  split
  · exact (figures_digits digits).append (zeros _)
  · simp only
    split
    · refine (Figures.append (figures_digits ?_) (by decide)).append (figures_digits ?_)
      · intro c hc
        rw [String.toList_ofList] at hc
        exact digits c (List.mem_of_mem_take hc)
      · intro c hc
        rw [String.toList_ofList] at hc
        exact digits c (List.mem_of_mem_drop hc)
    · exact (Figures.append (by decide) (zeros _)).append (figures_digits digits)

theorem figures_plain (x : Float) : Figures (plain x) := by
  unfold plain
  split
  · decide
  · exact figures_signed (by decide)
  · exact figures_signed (by decide)
  · exact figures_signed (figures_positional _)

theorem figures_operand (x : Float) : Figures (operand x) := by
  unfold operand
  split
  · split
    · decide
    · exact figures_signed (figures_digits fun _ => isDigit_repr)
    · exact figures_plain x
  · exact figures_plain x

theorem operand_ne_nil (x : Float) : (operand x).toList ≠ [] := by
  intro none
  have reads := read_operand x
  rw [none] at reads
  cases reads

end Decimal

end FlatStack
