import FlatStack.Proofs.Tiling

/-!
# Places tell offsets

The line of a place counts the newlines in front of it, and its column counts
the characters behind the last of them. Both together order the boundaries
between characters as their offsets do. So a place belongs to one offset only,
and the places of the tokens of a text increase.
-/

set_option autoImplicit false

namespace FlatStack

namespace Location

variable {l m : Location} {cs source : List Char}

/-- The characters behind the last newline, from the last one back. -/
def lastLine (cs : List Char) : List Char := cs.reverse.takeWhile (· != '\n')

theorem after_snoc (cs : List Char) (c : Char) : after (cs ++ [c]) = (after cs).advance c := by
  rw [after, List.foldl_append]
  rfl

theorem lastLine_newline : lastLine (cs ++ ['\n']) = [] := by
  simp [lastLine]

theorem lastLine_snoc {c : Char} (other : c ≠ '\n') : lastLine (cs ++ [c]) = c :: lastLine cs := by
  simp [lastLine, other]

/-- Counting in one pass comes to the same as counting newlines first and characters then. -/
theorem after_eq (cs : List Char) :
    after cs = ⟨cs.count '\n' + 1, (lastLine cs).length + 1⟩ := by
  induction cs using List.reverseRecOn with
  | nil => rfl
  | append_singleton cs c ih =>
    rw [after_snoc, ih, advance]
    by_cases newline : c = '\n'
    · subst newline
      rw [if_pos rfl, lastLine_newline, List.count_append, List.count_singleton_self]
      rfl
    · rw [if_neg newline, lastLine_snoc newline, List.count_append,
        List.count_eq_zero_of_not_mem (l := [c]) (by simpa using Ne.symm newline)]
      rfl

example : ofOffset ['\n', 'é', '$'] 3 = ⟨2, 2⟩ := by decide

theorem Before.irrefl (l : Location) : ¬ Before l l := by
  unfold Before
  omega

theorem Before.asymm (h : Before l m) : ¬ Before m l := fun back => irrefl l (h.trans back)

variable {a b : Nat}

theorem before_iff (ha : IsBoundary source a) (hb : IsBoundary source b) :
    Before (ofOffset source a) (ofOffset source b) ↔ a < b := by
  refine ⟨fun before => ?_, ofOffset_before ha hb⟩
  rcases Nat.lt_trichotomy a b with less | rfl | greater
  · exact less
  · exact absurd before (Before.irrefl _)
  · exact absurd before (ofOffset_before hb ha greater).asymm

theorem ofOffset_inj (ha : IsBoundary source a) (hb : IsBoundary source b) :
    ofOffset source a = ofOffset source b ↔ a = b := by
  refine ⟨fun same => ?_, congrArg _⟩
  rcases Nat.lt_trichotomy a b with less | equal | greater
  · exact absurd (same ▸ ofOffset_before ha hb less) (Before.irrefl _)
  · exact equal
  · exact absurd (same ▸ ofOffset_before hb ha greater) (Before.irrefl _)

end Location

open Location

/-- Lines and columns are found by counting, order the boundaries of a source text as their
offsets do, and tell boundaries apart. The tokens of the text stand in their order. -/
theorem places_tell_offsets (source : String) :
    (∀ front back, source.toList = front ++ back → ∀ stop,
      Span.location source.toList ⟨byteLength front, stop⟩
        = ⟨front.count '\n' + 1, (lastLine front).length + 1⟩) ∧
    (∀ s t : Span, IsBoundary source.toList s.start → IsBoundary source.toList t.start →
      ((s.location source.toList).Before (t.location source.toList) ↔ s.start < t.start) ∧
        (s.location source.toList = t.location source.toList ↔ s.start = t.start)) ∧
    (Token.scan source).Pairwise fun t u =>
      (t.span.location source.toList).Before (u.span.location source.toList) := by
  refine ⟨fun front back whole stop => ?_, fun s t hs ht => ⟨before_iff hs ht, ofOffset_inj hs ht⟩,
    (Token.tiles_scanFrom 0 source.toList).located⟩
  rw [Span.location, whole, ofOffset_append, after_eq]

/-- A character of two bytes, and a variable on the next line. -/
def accented : String := "é\n$x"

theorem places_tell_offsets_accented : IsBoundary accented.toList 2 ∧
    IsBoundary accented.toList 3 ∧
      (Span.location accented.toList ⟨2, 3⟩).Before (Span.location accented.toList ⟨3, 5⟩) := by
  have lineEnd : IsBoundary accented.toList 2 := ⟨['é'], ['\n', '$', 'x'], by decide, by decide⟩
  have nextLine : IsBoundary accented.toList 3 := ⟨['é', '\n'], ['$', 'x'], by decide, by decide⟩
  obtain ⟨-, ordered, -⟩ := places_tell_offsets accented
  exact ⟨lineEnd, nextLine, (ordered ⟨2, 3⟩ ⟨3, 5⟩ lineEnd nextLine).1.mpr (by decide)⟩

end FlatStack
