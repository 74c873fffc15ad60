import FlatStack.Text.Blank
import Mathlib

/-!
# Words and lines

What is written as a word is read as one when a blank or nothing follows it,
and what is written as lines is read as these lines unless one of them holds a
newline or ends in a carriage return.
-/

set_option autoImplicit false

namespace FlatStack.Text

/-! ## Runs -/

section Runs

variable {α : Type} {p : α → Bool} {xs ys : List α}

/-- A run ends where nothing follows it, or something that does not belong to it. -/
theorem span_stop (all : ∀ x ∈ xs, p x) (stop : ∀ y ∈ ys.head?, p y = false) :
    (xs ++ ys).span p = (xs, ys) := by
  rw [List.span_eq_takeWhile_dropWhile, List.takeWhile_append_of_pos all,
    List.dropWhile_append_of_pos all]
  cases ys with
  | nil => simp
  | cons y ys =>
    have other := stop y rfl
    rw [List.takeWhile_cons_of_neg (by simp [other]), List.dropWhile_cons_of_neg (by simp [other]),
      List.append_nil]

theorem span_all (all : ∀ x ∈ xs, p x) : xs.span p = (xs, []) := by
  simpa using @span_stop _ _ xs [] all (by simp)

theorem dropWhile_stop (stop : ∀ x ∈ xs.head?, p x = false) : xs.dropWhile p = xs := by
  cases xs with
  | nil => rfl
  | cons x xs => rw [List.dropWhile_cons_of_neg (by simp [stop x rfl])]

theorem head_dropWhile (p : α → Bool) (xs : List α) :
    ∀ x ∈ (xs.dropWhile p).head?, p x = false := by
  intro x hx
  have := List.head?_dropWhile_not p xs
  rw [Option.mem_def.mp hx] at this
  simpa using this

end Runs

/-! ## Ends -/

variable {c : Char} {cs ds : List Char}

/-- A text with no blank at either end. -/
structure Trimmed (cs : List Char) : Prop where
  head : ∀ c ∈ cs.head?, isBlank c = false
  last : ∀ c ∈ cs.getLast?, isBlank c = false

theorem Trimmed.eq (h : Trimmed cs) : trim cs = cs := by
  have last : ∀ c ∈ cs.reverse.head?, isBlank c = false := by
    rw [List.head?_reverse]
    exact h.last
  rw [trim, dropWhile_stop h.head, dropWhile_stop last, List.reverse_reverse]

theorem trim_parts (cs : List Char) : ∃ front back, cs = front ++ trim cs ++ back ∧
    (∀ c ∈ front, isBlank c = true) ∧ ∀ c ∈ back, isBlank c = true := by
  have before := List.takeWhile_append_dropWhile (p := isBlank) (l := cs)
  have behind :=
    List.takeWhile_append_dropWhile (p := isBlank) (l := (cs.dropWhile isBlank).reverse)
  refine ⟨cs.takeWhile isBlank, ((cs.dropWhile isBlank).reverse.takeWhile isBlank).reverse, ?_,
    fun c hc => List.mem_takeWhile_imp hc,
    fun c hc => List.mem_takeWhile_imp (List.mem_reverse.mp hc)⟩
  rw [trim, List.append_assoc, ← List.reverse_append, behind, List.reverse_reverse, before]

theorem trim_infix (cs : List Char) : trim cs <:+: cs := by
  obtain ⟨front, back, whole, -⟩ := trim_parts cs
  exact ⟨front, back, whole.symm⟩

theorem trimmed_trim (cs : List Char) : Trimmed (trim cs) := by
  have last := head_dropWhile isBlank (cs.dropWhile isBlank).reverse
  refine ⟨?_, by rwa [trim, List.getLast?_reverse]⟩
  -- Only what stands behind the first character is dropped from the end.
  obtain ⟨dropped, parts⟩ := List.dropWhile_suffix (l := (cs.dropWhile isBlank).reverse) isBlank
  intro c hc
  rw [trim, List.head?_reverse] at hc
  refine head_dropWhile isBlank cs c ?_
  rw [← List.getLast?_reverse, ← parts, List.getLast?_append, Option.mem_def.mp hc]
  rfl

theorem trimmed_iff : Trimmed cs ↔ trim cs = cs :=
  ⟨Trimmed.eq, fun h => h ▸ trimmed_trim cs⟩

theorem trim_ne_nil (h : ∃ c ∈ cs, isBlank c = false) : trim cs ≠ [] := by
  obtain ⟨c, member, other⟩ := h
  intro none
  rw [trim, List.reverse_eq_nil_iff, List.dropWhile_eq_nil_iff] at none
  have blank : isBlank c = true := by
    rw [← List.takeWhile_append_dropWhile (p := isBlank) (l := cs), List.mem_append] at member
    exact member.elim List.mem_takeWhile_imp fun later => none c (List.mem_reverse.mpr later)
  rw [blank] at other
  cases other

/-! ## Words -/

/-- A text without blanks. -/
def Solid (cs : List Char) : Prop := ∀ c ∈ cs, isBlank c = false

theorem Solid.trimmed (h : Solid cs) : Trimmed cs :=
  ⟨fun c hc => h c (List.mem_of_mem_head? hc), fun c hc => h c (List.mem_of_mem_getLast? hc)⟩

theorem Solid.free (h : Solid cs) : '\n' ∉ cs :=
  fun newline => absurd (h _ newline) (by decide)

/-- Nothing follows a word directly. -/
def Apart (cs : List Char) : Prop := ∀ c ∈ cs.head?, isBlank c = true

theorem splitWord_append (word : Solid cs) (apart : Apart ds) : splitWord (cs ++ ds) = (cs, ds) :=
  span_stop (fun c hc => by simp [word c hc]) fun c hc => by simp [apart c hc]

theorem firstWord_append {bs : List Char} (blanks : ∀ c ∈ bs, isBlank c) (word : Solid cs)
    (full : cs ≠ []) (apart : Apart ds) : firstWord? (bs ++ (cs ++ ds)) = some cs := by
  cases cs with
  | nil => exact absurd rfl full
  | cons c cs =>
    have skipped : (bs ++ (c :: cs ++ ds)).dropWhile isBlank = c :: cs ++ ds := by
      rw [List.dropWhile_append_of_pos blanks]
      exact dropWhile_stop fun d hd => word d (by simp_all)
    rw [firstWord?, skipped]
    exact congrArg (fun parts => some (Prod.fst parts)) (splitWord_append word apart)

theorem firstWord_blank (blank : ∀ c ∈ cs, isBlank c) : firstWord? cs = none := by
  rw [firstWord?, List.dropWhile_eq_nil_iff.mpr blank]

/-! ## Lines -/

theorem linesFrom_newline (line : List Char) (cs : List Char) :
    linesFrom line ('\n' :: cs) = (dropReturn line).reverse :: lines cs := by
  cases line <;> rfl

theorem linesFrom_other (line : List Char) (other : c ≠ '\n') (cs : List Char) :
    linesFrom line (c :: cs) = linesFrom (c :: line) cs := by
  cases line <;> simp [linesFrom]

theorem linesFrom_append (line : List Char) (free : '\n' ∉ cs) (ds : List Char) :
    linesFrom line (cs ++ '\n' :: ds) = (dropReturn (cs.reverse ++ line)).reverse :: lines ds := by
  induction cs generalizing line with
  | nil => exact linesFrom_newline line ds
  | cons c cs ih =>
    have other : c ≠ '\n' := fun same => free (same ▸ List.mem_cons_self)
    rw [List.cons_append, linesFrom_other line other, ih _ fun h => free (List.mem_cons_of_mem _ h),
      List.reverse_cons, List.append_assoc]
    rfl

theorem lines_append (free : '\n' ∉ cs) (last : cs.getLast? ≠ some '\r') (ds : List Char) :
    lines (cs ++ '\n' :: ds) = cs :: lines ds := by
  have kept : dropReturn cs.reverse = cs.reverse := by
    unfold dropReturn
    split
    · rename_i line ending
      rw [← List.head?_reverse, ending] at last
      exact absurd rfl last
    · rfl
  rw [lines, linesFrom_append [] free, List.append_nil, kept, List.reverse_reverse]

theorem lines_flatMap {lss : List (List Char)} (free : ∀ cs ∈ lss, '\n' ∉ cs)
    (last : ∀ cs ∈ lss, cs.getLast? ≠ some '\r') :
    lines (lss.flatMap fun cs => cs ++ ['\n']) = lss := by
  induction lss with
  | nil => rfl
  | cons cs lss ih =>
    rw [List.flatMap_cons, List.append_assoc, List.singleton_append,
      lines_append (free _ List.mem_cons_self) (last _ List.mem_cons_self),
      ih (fun ds hds => free ds (List.mem_cons_of_mem _ hds))
        fun ds hds => last ds (List.mem_cons_of_mem _ hds)]

theorem free_of_mem_linesFrom {line : List Char} (start : '\n' ∉ line)
    (h : ds ∈ linesFrom line cs) : '\n' ∉ ds := by
  induction cs generalizing line with
  | nil =>
    cases line with
    | nil => cases h
    | cons c line =>
      rw [List.mem_singleton.mp h, List.mem_reverse]
      exact start
  | cons c cs ih =>
    by_cases newline : c = '\n'
    · subst newline
      rw [linesFrom_newline, List.mem_cons] at h
      rcases h with rfl | later
      · rw [List.mem_reverse]
        unfold dropReturn
        split
        · exact fun h => start (List.mem_cons_of_mem _ h)
        · exact start
      · exact ih List.not_mem_nil later
    · rw [linesFrom_other line newline] at h
      exact ih (by simp [start, Ne.symm newline]) h

theorem free_of_mem_lines (h : ds ∈ lines cs) : '\n' ∉ ds :=
  free_of_mem_linesFrom List.not_mem_nil h

end FlatStack.Text
