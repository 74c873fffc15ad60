import FlatStack.Proofs.Locations
import FlatStack.Proofs.TokenStreams

/-!
# Tokens tile the source

A source text is made of gaps and lexemes in turn, from its first character to
its last. A gap holds blanks and comments only, and each lexeme is the text of
one token. So nothing else is left out, and nothing is read twice.
-/

set_option autoImplicit false

namespace FlatStack

namespace Token

/-! ## Gaps -/

/-- The star and the slash that end a comment. -/
def closing : List Char := ['*', '/']

/-- Blanks and comments, given with the text behind them. A comment that
begins with two slashes reaches up to a newline or the end, one that begins
with a slash and a star up to the first star and slash or the end. -/
inductive IsGap : List Char → List Char → Prop where
  | none {rest : List Char} : IsGap [] rest
  | blank {c : Char} {cs rest : List Char} : Text.isBlank c = true → IsGap cs rest →
      IsGap (c :: cs) rest
  | line {body cs rest : List Char} : '\n' ∉ body → (∀ c ∈ (cs ++ rest).head?, c = '\n') →
      IsGap cs rest → IsGap ('/' :: '/' :: body ++ cs) rest
  | block {body cs rest : List Char} : ¬ closing <:+: body → IsGap cs rest →
      IsGap ('/' :: '*' :: body ++ closing ++ cs) rest
  | unclosed {body : List Char} : ¬ closing <:+: body → IsGap ('/' :: '*' :: body) []

theorem closing_infix_cons {c : Char} {cs : List Char} :
    closing <:+: c :: cs ↔ (c = '*' ∧ cs.head? = some '/') ∨ closing <:+: cs := by
  rw [List.infix_cons_iff, closing, List.cons_prefix_cons]
  refine or_congr_left (and_congr eq_comm ?_)
  cases cs with
  | nil => simp
  | cons d ds => simp [List.cons_prefix_cons, eq_comm]

/-- The star, if any, that stands before the place in a comment. -/
def pendingStar (afterStar : Bool) : List Char := if afterStar then ['*'] else []

/-- What is to be known of the text `cs` that a gap takes from the place `g` on. -/
def Continues : Gap → List Char → List Char → Prop
  | .blank, cs, rest => IsGap cs rest
  | .line, cs, rest => ∃ body tail, cs = body ++ tail ∧ '\n' ∉ body ∧
      (∀ c ∈ (tail ++ rest).head?, c = '\n') ∧ IsGap tail rest
  | .block afterStar, cs, rest =>
      (∃ body tail, pendingStar afterStar ++ cs = body ++ closing ++ tail ∧
        ¬ closing <:+: body ∧ IsGap tail rest) ∨
      (rest = [] ∧ ¬ closing <:+: pendingStar afterStar ++ cs)

section Continues

variable {c : Char} {cs rest body : List Char} {afterStar : Bool}

/-- A comment stays open for as long as no slash follows a star. -/
theorem pendingStar_free (stays : afterStar = true → c = '/' → False)
    (start : ∀ d ∈ body.head?, d = c) (free : ¬ closing <:+: body) :
    ¬ closing <:+: pendingStar afterStar ++ body := by
  cases afterStar with
  | false => exact free
  | true =>
    intro found
    rcases closing_infix_cons.mp found with ⟨-, slash⟩ | inside
    · exact stays rfl (start _ slash).symm
    · exact free inside

theorem free_cons (other : c ≠ '*') (free : ¬ closing <:+: body) : ¬ closing <:+: c :: body := by
  intro found
  rcases closing_infix_cons.mp found with ⟨star, -⟩ | inside
  · exact other star
  · exact free inside

/-- One more character of a comment that it does not end. -/
theorem continues_block (stays : afterStar = true → c = '/' → False)
    (h : Continues (.block (c == '*')) cs rest) : Continues (.block afterStar) (c :: cs) rest := by
  by_cases star : c = '*'
  · subst star
    rcases h with ⟨body, tail, text, free, gap⟩ | ⟨rfl, free⟩
    · have start : ∀ d ∈ body.head?, d = '*' := by
        cases body with
        | nil => simp
        | cons d body =>
          obtain ⟨rfl, -⟩ := List.cons.inj text
          simp
      refine .inl ⟨pendingStar afterStar ++ body, tail, ?_, pendingStar_free stays start free, gap⟩
      rw [List.append_assoc, List.append_assoc, ← List.append_assoc body, ← text]
      rfl
    · exact .inr ⟨rfl, pendingStar_free stays (by simp) free⟩
  · rw [beq_eq_false_iff_ne.mpr star] at h
    rcases h with ⟨body, tail, text, free, gap⟩ | ⟨rfl, free⟩
    · obtain rfl : cs = body ++ closing ++ tail := text
      refine .inl ⟨pendingStar afterStar ++ c :: body, tail, ?_, ?_, gap⟩
      · simp
      · exact pendingStar_free stays (by simp) (free_cons star free)
    · exact .inr ⟨rfl, pendingStar_free stays (by simp) (free_cons star free)⟩

/-- What is taken from the text is a gap, and what is left follows it. -/
theorem gapLength_continues (g : Gap) (cs : List Char) :
    Continues g (cs.take (gapLength g cs)) (cs.drop (gapLength g cs)) := by
  fun_induction gapLength g cs with
  | case1 cs ih =>
    obtain ⟨body, tail, text, free, stop, gap⟩ := ih
    rw [List.take_succ_cons, List.take_succ_cons, List.drop_succ_cons, List.drop_succ_cons, text]
    exact .line free stop gap
  | case2 cs ih =>
    rw [List.take_succ_cons, List.take_succ_cons, List.drop_succ_cons, List.drop_succ_cons]
    rcases ih with ⟨body, tail, text, free, gap⟩ | ⟨left, free⟩
    · obtain text : cs.take _ = body ++ closing ++ tail := text
      rw [text]
      exact .block free gap
    · rw [left]
      exact .unclosed free
  | case3 c cs _ _ blank ih =>
    rw [List.take_succ_cons, List.drop_succ_cons]
    exact .blank blank ih
  | case4 => exact .none
  | case5 cs ih =>
    rw [List.take_succ_cons, List.drop_succ_cons]
    exact ⟨[], _, rfl, List.not_mem_nil, by simp, .blank rfl ih⟩
  | case6 c cs other ih =>
    obtain ⟨body, tail, text, free, stop, gap⟩ := ih
    rw [List.take_succ_cons, List.drop_succ_cons, text]
    refine ⟨c :: body, tail, rfl, ?_, stop, gap⟩
    simpa [free] using fun same => other same.symm
  | case7 cs ih =>
    rw [List.take_succ_cons, List.drop_succ_cons]
    exact .inl ⟨[], _, rfl, by simp [closing], ih⟩
  | case8 afterStar c cs stays ih =>
    rw [List.take_succ_cons, List.drop_succ_cons]
    exact continues_block stays ih
  | case9 g =>
    cases g with
    | blank => exact .none
    | line => exact ⟨[], [], rfl, List.not_mem_nil, by simp, .none⟩
    | block afterStar =>
      refine .inr ⟨rfl, ?_⟩
      cases afterStar <;> simp [pendingStar, closing, List.infix_cons_iff]

theorem isGap_gapLength (cs : List Char) :
    IsGap (cs.take (gapLength .blank cs)) (cs.drop (gapLength .blank cs)) :=
  gapLength_continues .blank cs

end Continues

/-! ## Tiles -/

theorem lexeme_pos (c : Char) (cs : List Char) : 0 < (lexeme c cs).2 := by
  unfold lexeme orEqual pair
  split <;> (try split) <;> (try split) <;> simp [numeral]

/-- The tokens of the text `cs`, which begins at `offset`: each stands behind
a gap and is the text up to where the next gap begins. -/
inductive Tiles : Nat → List Char → List Token → Prop where
  | last {offset : Nat} {gap : List Char} : IsGap gap [] →
      Tiles offset gap
        [⟨.endOfSource, ⟨offset + byteLength gap, offset + byteLength gap⟩⟩]
  | token {offset : Nat} {gap word rest : List Char} {kind : Kind} {ts : List Token} :
      IsGap gap (word ++ rest) → word ≠ [] → kind ≠ .endOfSource →
      Tiles (offset + byteLength gap + byteLength word) rest ts →
      Tiles offset (gap ++ word ++ rest)
        (⟨kind, ⟨offset + byteLength gap, offset + byteLength gap + byteLength word⟩⟩ :: ts)

theorem tiles_scanFrom (offset : Nat) (cs : List Char) : Tiles offset cs (scanFrom offset cs) := by
  fun_induction scanFrom offset cs with
  | case1 offset cs gap start empty =>
    have behind := isGap_gapLength cs
    have whole : cs.take gap = cs := by
      rw [← List.append_nil (cs.take gap), ← empty, List.take_append_drop]
    rw [empty, whole] at behind
    have tiles := @Tiles.last offset cs behind
    simpa only [start, whole] using tiles
  | case2 offset cs gap start c rest left kind length lexes stop ih =>
    have behind := isGap_gapLength cs
    have positive : 0 < length := by simpa [lexes] using lexeme_pos c rest
    have proper : kind ≠ .endOfSource := by simpa [lexes] using lexeme_ne_end c rest
    obtain ⟨n, rfl⟩ := Nat.exists_eq_add_one_of_ne_zero positive.ne'
    have parts : cs = cs.take gap ++ (c :: rest).take (n + 1) ++ rest.drop n := by
      rw [List.append_assoc, List.take_succ_cons, List.cons_append, List.take_append_drop, ← left,
        List.take_append_drop]
    rw [left, ← List.take_append_drop (n + 1) (c :: rest), List.drop_succ_cons] at behind
    have tiles := @Tiles.token offset _ _ _ _ _ behind (by simp) proper ih
    rwa [← parts] at tiles

/-- Where the last of the tokens ends, and `offset` if there is none. -/
def endOf : Nat → List Token → Nat
  | offset, [] => offset
  | _, t :: ts => endOf t.span.stop ts

namespace Tiles

variable {offset : Nat} {cs : List Char} {ts : List Token} {t : Token}

theorem filled (h : Tiles offset cs ts) (ht : t ∈ ts) (proper : t.kind ≠ .endOfSource) :
    t.span.start < t.span.stop := by
  induction h with
  | last => simp_all
  | token _ full _ _ ih =>
    rcases List.mem_cons.mp ht with rfl | later
    · have := byteLength_pos full
      simp only
      omega
    · exact ih later

theorem ended (h : Tiles offset cs ts) : ∃ before,
    ts = before ++ [⟨.endOfSource, ⟨offset + byteLength cs, offset + byteLength cs⟩⟩] ∧
      ∀ t ∈ before, t.kind ≠ .endOfSource := by
  induction h with
  | last => exact ⟨[], rfl, by simp⟩
  | @token offset gap word rest kind _ _ _ proper _ ih =>
    obtain ⟨before, rfl, others⟩ := ih
    let first : Token :=
      ⟨kind, ⟨offset + byteLength gap, offset + byteLength gap + byteLength word⟩⟩
    refine ⟨first :: before, ?_, List.forall_mem_cons.mpr ⟨proper, others⟩⟩
    simp [first, Nat.add_assoc]

/-- A token is the text at its span. -/
theorem text (h : Tiles offset cs ts) (ht : t ∈ ts) : ∃ front word back,
    cs = front ++ word ++ back ∧ t.span.start = offset + byteLength front ∧
      t.span.stop = offset + byteLength (front ++ word) := by
  induction h with
  | last =>
    rw [List.mem_singleton.mp ht]
    exact ⟨_, [], [], by simp, rfl, by simp⟩
  | @token offset gap word rest kind ts _ _ _ _ ih =>
    rcases List.mem_cons.mp ht with rfl | later
    · exact ⟨gap, word, rest, rfl, rfl, by simp [Nat.add_assoc]⟩
    · obtain ⟨front, inner, back, rfl, starts, stops⟩ := ih later
      refine ⟨gap ++ word ++ front, inner, back, by simp, ?_, ?_⟩
      · rw [starts]
        simp [Nat.add_assoc]
      · rw [stops]
        simp [Nat.add_assoc]

theorem ordered (h : Tiles offset cs ts) : ts.Pairwise fun t u => t.span.stop ≤ u.span.start := by
  induction h with
  | last => exact List.pairwise_singleton _ _
  | token _ _ _ tiles ih =>
    refine List.pairwise_cons.mpr ⟨fun u hu => ?_, ih⟩
    obtain ⟨front, _, _, -, starts, -⟩ := tiles.text hu
    rw [starts]
    exact Nat.le_add_right _ _

/-- What stands before a token, from the end of the one before it on, is a gap. -/
theorem gap (h : Tiles offset cs ts) {before after : List Token}
    (split : ts = before ++ t :: after) : ∃ front gap rest, cs = front ++ gap ++ rest ∧
      offset + byteLength front = endOf offset before ∧
        offset + byteLength (front ++ gap) = t.span.start ∧ IsGap gap rest := by
  induction h generalizing before with
  | @last offset gap behind =>
    cases before with
    | nil =>
      obtain ⟨rfl, -⟩ := List.cons.inj split
      exact ⟨[], gap, [], by simp, rfl, by simp, behind⟩
    | cons u before => simp at split
  | @token offset gap word rest kind ts behind _ _ _ ih =>
    cases before with
    | nil =>
      obtain ⟨rfl, rfl⟩ := List.cons.inj split
      exact ⟨[], gap, word ++ rest, by simp, rfl, by simp, behind⟩
    | cons u before =>
      obtain ⟨rfl, later⟩ := List.cons.inj split
      obtain ⟨front, inner, back, rfl, ends, starts, between⟩ := ih later
      refine ⟨gap ++ word ++ front, inner, back, by simp, ?_, ?_, between⟩
      · rw [endOf, ← ends]
        simp [Nat.add_assoc]
      · rw [← starts]
        simp [Nat.add_assoc]

theorem length_le (h : Tiles offset cs ts) : ts.length ≤ cs.length + 1 := by
  induction h with
  | last => simp
  | token _ full _ _ ih =>
    have := List.length_pos_iff.mpr full
    simp only [List.length_cons, List.length_append]
    omega

theorem starts (h : Tiles offset cs ts) : ts.Pairwise fun t u => t.span.start < u.span.start := by
  obtain ⟨before, rfl, proper⟩ := h.ended
  have filled : ∀ t ∈ before, t.span.start < t.span.stop := fun t ht =>
    h.filled (List.mem_append_left _ ht) (proper t ht)
  obtain ⟨inside, -, last⟩ := List.pairwise_append.mp h.ordered
  refine List.pairwise_append.mpr ⟨inside.imp_of_mem fun ht _ le => ?_, ?_, fun t ht u hu => ?_⟩
  · exact (filled _ ht).trans_le le
  · exact List.pairwise_singleton _ _
  · exact (filled t ht).trans_le (last t ht u hu)

theorem boundaries (h : Tiles 0 cs ts) (ht : t ∈ ts) :
    IsBoundary cs t.span.start ∧ IsBoundary cs t.span.stop := by
  obtain ⟨front, word, back, whole, starts, stops⟩ := h.text ht
  rw [Nat.zero_add] at starts stops
  exact ⟨⟨front, word ++ back, by simp [whole], starts.symm⟩,
    ⟨front ++ word, back, whole, stops.symm⟩⟩

/-- Each token stands before the next one also by line and column. -/
theorem located (h : Tiles 0 cs ts) :
    ts.Pairwise fun t u => (t.span.location cs).Before (u.span.location cs) :=
  h.starts.imp_of_mem fun ht hu less =>
    Location.ofOffset_before (h.boundaries ht).1 (h.boundaries hu).1 less

end Tiles

/-- The tokens of a source text, which leave out gaps only. -/
structure Tiled (source : List Char) (tokens : List Token) : Prop where
  /-- Gaps and texts of tokens in turn make up the source. -/
  tiles : Tiles 0 source tokens
  /-- The empty end of the source comes last and nowhere else. -/
  ended : ∃ before, tokens = before ++ [⟨.endOfSource, ⟨byteLength source, byteLength source⟩⟩] ∧
    ∀ t ∈ before, t.kind ≠ .endOfSource
  filled : ∀ t ∈ tokens, t.kind ≠ .endOfSource → t.span.start < t.span.stop
  boundaries : ∀ t ∈ tokens, IsBoundary source t.span.start ∧ IsBoundary source t.span.stop
  ordered : tokens.Pairwise fun t u => t.span.stop ≤ u.span.start
  /-- Between two tokens, and before the first one, there is a gap. -/
  gaps : ∀ before t after, tokens = before ++ t :: after → ∃ front gap rest,
    source = front ++ gap ++ rest ∧ byteLength front = endOf 0 before ∧
      byteLength (front ++ gap) = t.span.start ∧ IsGap gap rest
  few : tokens.length ≤ source.length + 1

/-- The tokens of a source text tile it. -/
theorem scan_tiles (source : String) : Tiled source.toList (scan source) := by
  have tiles : Tiles 0 source.toList (scan source) := tiles_scanFrom 0 source.toList
  refine ⟨tiles, ?_, fun t => tiles.filled, fun t => tiles.boundaries, tiles.ordered,
    fun before t after split => ?_, tiles.length_le⟩
  · simpa using tiles.ended
  · simpa using tiles.gap split

end Token

end FlatStack
