import FlatStack.Source.Location
import Mathlib

/-!
# Places in order

A place further on in a text has a greater line, or else the same line and a
greater column. So lines and columns order the boundaries between characters
as their offsets do.
-/

set_option autoImplicit false

namespace FlatStack

/-! ## Bytes -/

@[simp] theorem byteLength_nil : byteLength [] = 0 := rfl

@[simp] theorem byteLength_cons (c : Char) (cs : List Char) :
    byteLength (c :: cs) = c.utf8Size + byteLength cs := rfl

@[simp] theorem byteLength_append (cs ds : List Char) :
    byteLength (cs ++ ds) = byteLength cs + byteLength ds := by
  induction cs with
  | nil => simp
  | cons c cs ih => simp [ih, Nat.add_assoc]

theorem byteLength_pos {cs : List Char} (h : cs ≠ []) : 0 < byteLength cs := by
  cases cs with
  | nil => exact absurd rfl h
  | cons c cs =>
    have := c.utf8Size_pos
    rw [byteLength_cons]
    omega

/-- A place between two characters of a text, or at one of its ends. -/
def IsBoundary (source : List Char) (offset : Nat) : Prop :=
  ∃ front back, source = front ++ back ∧ byteLength front = offset

/-! ## Lines and columns -/

namespace Location

variable {l m n : Location} {cs front back source : List Char} {a b : Nat}

/-- By the line first, and within a line by the column. -/
def Before (l m : Location) : Prop := l.line < m.line ∨ l.line = m.line ∧ l.column < m.column

theorem Before.trans (h : Before l m) (h' : Before m n) : Before l n := by
  unfold Before at *
  omega

theorem before_advance (l : Location) (c : Char) : Before l (l.advance c) := by
  unfold advance Before
  split
  · exact .inl (Nat.lt_succ_self _)
  · exact .inr ⟨rfl, Nat.lt_succ_self _⟩

theorem before_foldl (l : Location) (h : cs ≠ []) : Before l (cs.foldl advance l) := by
  induction cs generalizing l with
  | nil => exact absurd rfl h
  | cons c cs ih =>
    rw [List.foldl_cons]
    by_cases last : cs = []
    · rw [last]
      exact before_advance l c
    · exact (before_advance l c).trans (ih _ last)

theorem seek?_append (l : Location) (front back : List Char) :
    l.seek? (front ++ back) (byteLength front) = some (front.foldl advance l) := by
  induction front generalizing l with
  | nil => cases back <;> rfl
  | cons c front ih =>
    have positive := c.utf8Size_pos
    obtain ⟨n, whole⟩ := Nat.exists_eq_add_one_of_ne_zero
      (show byteLength (c :: front) ≠ 0 by rw [byteLength_cons]; omega)
    have left : n + 1 - c.utf8Size = byteLength front := by
      rw [← whole, byteLength_cons, Nat.add_sub_cancel_left]
    have fits : c.utf8Size ≤ n + 1 := by
      rw [← whole, byteLength_cons]
      exact Nat.le_add_right _ _
    rw [whole, List.cons_append, seek?, if_pos fits, left, ih, List.foldl_cons]

theorem ofOffset_append (front back : List Char) :
    ofOffset (front ++ back) (byteLength front) = after front := by
  rw [ofOffset, seek?_append]
  rfl

/-- A place with a smaller offset stands before one with a greater offset. -/
theorem ofOffset_before (ha : IsBoundary source a) (hb : IsBoundary source b) (h : a < b) :
    Before (ofOffset source a) (ofOffset source b) := by
  obtain ⟨front, back, rfl, rfl⟩ := ha
  obtain ⟨longer, rest, whole, rfl⟩ := hb
  rw [ofOffset_append, whole, ofOffset_append]
  rcases List.prefix_or_prefix_of_prefix (List.prefix_append front back)
    (whole ▸ List.prefix_append longer rest) with ⟨more, rfl⟩ | ⟨more, rfl⟩
  · have some : more ≠ [] := by
      rintro rfl
      simp at h
    rw [after, after, List.foldl_append]
    exact before_foldl _ some
  · rw [byteLength_append] at h
    omega

end Location

end FlatStack
