import FlatStack.Program.Grammar
import Mathlib

/-!
# Token streams

The tokens of a source text end with the end of the source, which stands
nowhere before.
-/

set_option autoImplicit false

namespace FlatStack.Token

/-! ## Characters of names -/

section Names

variable {c : Char}

theorem namePart_not_blank (h : isNamePart c) : Text.isBlank c = false := by
  have range : 48 ≤ c.toNat ∧ c.toNat ≤ 122 := by
    simp only [isNamePart, Char.isAlphanum, Char.isAlpha, Char.isUpper, Char.isLower, Char.isDigit,
      Bool.or_eq_true, Bool.and_eq_true, decide_eq_true_eq, beq_iff_eq, UInt32.le_iff_toNat_le,
      ge_iff_le] at h
    rcases h with ((upper | lower) | digit) | rfl
    · exact ⟨le_trans (by decide) upper.1, upper.2.trans (by decide)⟩
    · exact ⟨le_trans (by decide) lower.1, lower.2⟩
    · exact ⟨digit.1, digit.2.trans (by decide)⟩
    · decide
  simp [Text.isBlank]
  omega

theorem nameStart_part (h : isNameStart c) : isNamePart c := by
  unfold isNameStart isNamePart at *
  rw [Bool.or_eq_true] at h ⊢
  exact h.imp_left fun letter => by rw [Char.isAlphanum, letter, Bool.true_or]

end Names

/-! ## The end of the source -/

theorem wordKind_ne_end (word : String) : wordKind word ≠ .endOfSource := by
  unfold wordKind
  split <;> simp

theorem lexeme_ne_end (c : Char) (cs : List Char) : (lexeme c cs).1 ≠ .endOfSource := by
  unfold lexeme orEqual pair
  split <;> (try split) <;> (try split) <;> simp [wordKind_ne_end]

/-- The last token is the end of the source, and no other one is. -/
def Ended (ts : List Token) : Prop :=
  ∃ before last, ts = before ++ [last] ∧ last.kind = .endOfSource ∧
    ∀ t ∈ before, t.kind ≠ .endOfSource

variable {ts us : List Token} {t : Token}

theorem Ended.cons (ht : t.kind ≠ .endOfSource) (h : Ended ts) : Ended (t :: ts) := by
  obtain ⟨before, last, rfl, hlast, others⟩ := h
  refine ⟨t :: before, last, rfl, hlast, ?_⟩
  intro u hu
  rcases List.mem_cons.mp hu with rfl | hu
  · exact ht
  · exact others u hu

theorem Ended.tail (h : Ended (t :: ts)) (ht : t.kind ≠ .endOfSource) : Ended ts := by
  obtain ⟨before, last, heq, hlast, others⟩ := h
  cases before with
  | nil =>
    obtain ⟨rfl, _⟩ := List.cons.inj heq
    exact absurd hlast ht
  | cons u before =>
    obtain ⟨_, rfl⟩ := List.cons.inj heq
    exact ⟨before, last, rfl, hlast, fun v hv => others v (List.mem_cons_of_mem u hv)⟩

theorem Ended.suffix (h : Ended ts) (hs : us <:+ ts) (hne : us ≠ []) : Ended us := by
  obtain ⟨before, last, rfl, hlast, others⟩ := h
  rcases List.suffix_concat_iff.mp hs with rfl | ⟨vs, rfl, hvs⟩
  · exact absurd rfl hne
  · exact ⟨vs, last, rfl, hlast, fun t ht => others t (hvs.subset ht)⟩

theorem Ended.single (h : Ended ts) (hk : Parser.headKind ts = .endOfSource) :
    ∃ last, ts = [last] ∧ last.kind = .endOfSource := by
  obtain ⟨before, last, rfl, hlast, others⟩ := h
  cases before with
  | nil => exact ⟨last, rfl, hlast⟩
  | cons t before => exact absurd hk (others t List.mem_cons_self)

theorem ended_scanFrom (offset : Nat) (cs : List Char) : Ended (scanFrom offset cs) := by
  fun_induction scanFrom offset cs with
  | case1 => exact ⟨[], _, rfl, rfl, by simp⟩
  | case2 _ _ _ _ c rest _ kind _ hlex _ ih =>
    have hkind : kind = (lexeme c rest).1 := by rw [hlex]
    exact .cons (hkind ▸ lexeme_ne_end c rest) ih

theorem ended_scan (source : String) : Ended (scan source) := ended_scanFrom 0 source.toList

end FlatStack.Token
