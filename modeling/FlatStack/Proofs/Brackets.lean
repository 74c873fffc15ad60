import FlatStack.Command.Session
import FlatStack.Proofs.Respacing

/-!
# Brackets of entries

An entry of a session is complete as soon as its brackets are matched, as far
as its characters tell. They tell the same as the tokens that the entry is
scanned to: the search steps over the gaps between tokens, and of a lexeme
that is no bracket it takes no notice.
-/

set_option autoImplicit false

namespace FlatStack

/-! ## Brackets among tokens -/

inductive Bracket where
  | paren
  | brace
  deriving DecidableEq, Repr

namespace Bracket

/-- The character that closes a bracket. -/
def closer : Bracket → Char
  | .paren => ')'
  | .brace => '}'

end Bracket

namespace Token

def Kind.opens? : Kind → Option Bracket
  | .leftParen => some .paren
  | .leftBrace => some .brace
  | _ => none

def Kind.closes? : Kind → Option Bracket
  | .rightParen => some .paren
  | .rightBrace => some .brace
  | _ => none

/-- Whether the brackets among tokens are matched when some are open before them, the innermost
first. A closing bracket that does not fit ends the search. -/
def matchedFrom : List Bracket → List Kind → Bool
  | opened, [] => opened.isEmpty
  | opened, k :: ks =>
    match k.opens?, k.closes? with
    | some b, _ => matchedFrom (b :: opened) ks
    | none, some b => if opened.head? = some b then matchedFrom opened.tail ks else true
    | none, none => matchedFrom opened ks

variable {opened : List Bracket} {k : Kind} {ks : List Kind}

theorem matchedFrom_other (opens : k.opens? = none) (closes : k.closes? = none) :
    matchedFrom opened (k :: ks) = matchedFrom opened ks := by
  rw [matchedFrom, opens, closes]

theorem matchedFrom_closes {b : Bracket} (opens : k.opens? = none) (closes : k.closes? = some b) :
    matchedFrom opened (k :: ks) =
      if opened.head? = some b then matchedFrom opened.tail ks else true := by
  rw [matchedFrom, opens, closes]

end Token

namespace Session

open Token

variable {c : Char} {cs : List Char} {closers : List Char} {opened : List Bracket}

/-! ## Gaps -/

/-- Where the search is inside of a gap. -/
def placeOf : Gap → Place
  | .blank => .code
  | .line => .lineComment
  | .block afterStar => .blockComment afterStar

def NoBracket (c : Char) : Prop := c ≠ '(' ∧ c ≠ ')' ∧ c ≠ '{' ∧ c ≠ '}'

/-- A character that neither is a bracket nor begins a comment with what stands behind it. -/
structure Skipped (c : Char) (cs : List Char) : Prop where
  plain : NoBracket c
  division : c = '/' → ∀ d ∈ cs.head?, d ≠ '/' ∧ d ≠ '*'

theorem balancedFrom_skipped (h : Skipped c cs) (closers : List Char) :
    balancedFrom .code closers (c :: cs) = balancedFrom .code closers cs := by
  obtain ⟨⟨h1, h2, h3, h4⟩, division⟩ := h
  have noLine : ∀ ds, c = '/' → cs = '/' :: ds → False :=
    fun ds slash same => (division slash '/' (by rw [same]; rfl)).1 rfl
  have noBlock : ∀ ds, c = '/' → cs = '*' :: ds → False :=
    fun ds slash same => (division slash '*' (by rw [same]; rfl)).2 rfl
  cases closers with
  | nil =>
    rw [balancedFrom.eq_7 c cs noLine noBlock h1 h3, if_neg (by simp [h2, h4])]
  | cons expected closers =>
    rw [balancedFrom.eq_6 c cs expected closers noLine noBlock h1 h3, if_neg (by simp [h2, h4])]

theorem skipped_of_blank (blank : Text.isBlank c = true) (cs : List Char) : Skipped c cs := by
  refine ⟨⟨?_, ?_, ?_, ?_⟩, ?_⟩
  all_goals
    rintro rfl
    cases blank

/-- The search steps over a gap as a scan does. -/
theorem balancedFrom_gap (g : Gap) (closers cs : List Char) : balancedFrom (placeOf g) closers cs
    = balancedFrom .code closers (cs.drop (gapLength g cs)) := by
  fun_induction gapLength g cs with
  | case1 cs ih =>
    rw [placeOf, balancedFrom, List.drop_succ_cons, List.drop_succ_cons]
    exact ih
  | case2 cs ih =>
    rw [placeOf, balancedFrom, List.drop_succ_cons, List.drop_succ_cons]
    exact ih
  | case3 c cs _ _ blank ih =>
    rw [placeOf, balancedFrom_skipped (skipped_of_blank blank cs), List.drop_succ_cons]
    exact ih
  | case4 c cs noLine noBlock plain => rfl
  | case5 cs ih =>
    rw [placeOf, balancedFrom, if_pos rfl, List.drop_succ_cons]
    exact ih
  | case6 c cs other ih =>
    rw [placeOf, balancedFrom, if_neg other, List.drop_succ_cons]
    exact ih
  | case7 cs ih =>
    rw [placeOf, balancedFrom, List.drop_succ_cons]
    exact ih
  | case8 afterStar c cs stays ih =>
    rw [placeOf, balancedFrom, List.drop_succ_cons]
    · exact ih
    · exact stays
  | case9 g =>
    rw [List.drop_nil, balancedFrom, balancedFrom]

/-! ## Lexemes -/

/-- A character that is skipped whatever stands behind it. -/
def Quiet (c : Char) : Prop := NoBracket c ∧ c ≠ '/'

theorem Quiet.skipped (h : Quiet c) (cs : List Char) : Skipped c cs where
  plain := h.1
  division slash := absurd slash h.2

theorem quiet_of_namePart (h : isNamePart c = true) : Quiet c := by
  refine ⟨⟨?_, ?_, ?_, ?_⟩, ?_⟩
  all_goals
    rintro rfl
    cases h

theorem quiet_of_digit (h : c.isDigit = true) : Quiet c :=
  quiet_of_namePart (by rw [isNamePart, Char.isAlphanum, h, Bool.or_true, Bool.true_or])

theorem balancedFrom_quiet {word : List Char} (quiet : ∀ c ∈ word, Quiet c)
    (closers cs : List Char) :
    balancedFrom .code closers (word ++ cs) = balancedFrom .code closers cs := by
  induction word with
  | nil => rfl
  | cons c word ih =>
    obtain ⟨first, others⟩ := List.forall_mem_cons.mp quiet
    rw [List.cons_append, balancedFrom_skipped (first.skipped _), ih others]

/-- A lexeme that is no bracket and has quiet characters behind its first one. -/
structure Unnoticed (read : Kind × Nat) (cs : List Char) : Prop where
  opens : read.1.opens? = none
  closes : read.1.closes? = none
  quiet : ∀ d ∈ cs.take (read.2 - 1), Quiet d

theorem unnoticed_one {k : Kind} (opens : k.opens? = none) (closes : k.closes? = none) :
    Unnoticed (k, 1) cs :=
  ⟨opens, closes, by simp⟩

theorem unnoticed_orEqual {one two : Kind} (first : Unnoticed (one, 1) cs)
    (opens : two.opens? = none) (closes : two.closes? = none) :
    Unnoticed (orEqual one two cs) cs := by
  fun_cases orEqual one two cs with
  | case1 => exact ⟨opens, closes, by simp [Quiet, NoBracket]⟩
  | case2 => exact first

theorem unnoticed_pair {first second : Char} {k : Kind} (quiet : Quiet second)
    (opens : k.opens? = none) (closes : k.closes? = none) :
    Unnoticed (pair first second k cs) cs := by
  fun_cases pair first second k cs with
  | case1 cs => exact ⟨opens, closes, by simpa using quiet⟩
  | case2 => exact unnoticed_one rfl rfl
  | case3 => exact unnoticed_one rfl rfl

theorem unnoticed_word {k : Kind} {word : List Char} (opens : k.opens? = none)
    (closes : k.closes? = none) (front : word <+: cs) (quiet : ∀ d ∈ word, Quiet d) :
    Unnoticed (k, word.length + 1) cs :=
  ⟨opens, closes, by
    rw [Nat.add_sub_cancel, ← List.prefix_iff_eq_take.mp front]
    exact quiet⟩

theorem quiet_name (cs : List Char) : ∀ d ∈ cs.takeWhile isNamePart, Quiet d :=
  fun _ hd => quiet_of_namePart (List.mem_takeWhile_imp hd)

theorem quiet_fraction (cs : List Char) : ∀ d ∈ fraction cs, Quiet d := by
  fun_cases fraction cs with
  | case1 d cs digit =>
    intro e he
    rcases List.mem_cons.mp he with rfl | he
    · simp [Quiet, NoBracket]
    rcases List.mem_cons.mp he with rfl | he
    · exact quiet_of_digit digit
    · exact quiet_of_digit (List.mem_takeWhile_imp he)
  | case2 => simp
  | case3 => simp

theorem quiet_figures (cs : List Char) : ∀ d ∈ figures cs, Quiet d := by
  intro d hd
  rcases List.mem_append.mp hd with digit | behind
  · exact quiet_of_digit (List.mem_takeWhile_imp digit)
  · exact quiet_fraction _ d behind

theorem wordKind_opens (word : String) : (wordKind word).opens? = none := by
  unfold wordKind
  split <;> rfl

theorem wordKind_closes (word : String) : (wordKind word).closes? = none := by
  unfold wordKind
  split <;> rfl

theorem unnoticed_lexeme (plain : NoBracket c) (cs : List Char) :
    Unnoticed (lexeme c cs) cs := by
  fun_cases lexeme c cs with
  | case1 | case2 | case3 | case4 => simp [NoBracket] at plain
  | case5 | case6 | case7 | case8 | case9 | case10 | case11 => exact unnoticed_one rfl rfl
  | case12 cs tag =>
    exact unnoticed_word rfl rfl (List.isPrefixOf_iff_prefix.mp tag) (by simp [Quiet, NoBracket])
  | case13 cs untagged => exact unnoticed_orEqual (unnoticed_one rfl rfl) rfl rfl
  | case14 | case15 | case16 => exact unnoticed_orEqual (unnoticed_one rfl rfl) rfl rfl
  | case17 | case18 | case19 => exact unnoticed_pair (by simp [Quiet, NoBracket]) rfl rfl
  | case20 d ds start => exact unnoticed_word rfl rfl (List.takeWhile_prefix _) (quiet_name _)
  | case21 | case22 => exact unnoticed_one rfl rfl
  | case23 => exact unnoticed_word rfl rfl (figures_starts cs) (quiet_figures cs)
  | case24 =>
    exact unnoticed_word (wordKind_opens _) (wordKind_closes _) (List.takeWhile_prefix _)
      (quiet_name _)
  | case25 => exact unnoticed_one rfl rfl

/-! ## Entries -/

theorem balancedFrom_closer (opened : List Bracket) (b : Bracket) (cs : List Char) :
    balancedFrom .code (opened.map Bracket.closer) (b.closer :: cs) =
      if opened.head? = some b then balancedFrom .code (opened.tail.map Bracket.closer) cs
      else true := by
  cases opened with
  | nil => cases b <;> simp [balancedFrom, Bracket.closer]
  | cons first opened => cases b <;> cases first <;> simp [balancedFrom, Bracket.closer]

/-- The characters of a text and the tokens that it is scanned to have the same brackets. -/
theorem balancedFrom_scanFrom (opened : List Bracket) (offset : Nat) (cs : List Char) :
    balancedFrom .code (opened.map Bracket.closer) cs
      = matchedFrom opened (Parser.kinds (scanFrom offset cs)) := by
  fun_induction scanFrom offset cs generalizing opened with
  | case1 offset cs gap start empty =>
    rw [← placeOf, balancedFrom_gap, empty]
    simp [balancedFrom, matchedFrom, Parser.kinds, Kind.opens?, Kind.closes?]
  | case2 offset cs gap start c rest left kind length lexes stop ih =>
    rw [← placeOf, balancedFrom_gap, left]
    change _ = matchedFrom opened (kind :: Parser.kinds (scanFrom stop (rest.drop (length - 1))))
    by_cases plain : NoBracket c
    · have unnoticed := unnoticed_lexeme plain rest
      rw [lexes] at unnoticed
      have begins : gapLength .blank (c :: rest) = 0 := left ▸ gapLength_stops .blank cs
      rw [matchedFrom_other unnoticed.opens unnoticed.closes, ← ih,
        balancedFrom_skipped ⟨plain, (gapLength_eq_zero.mp begins).2⟩]
      conv_lhs => rw [← List.take_append_drop (length - 1) rest]
      exact balancedFrom_quiet unnoticed.quiet _ _
    · -- A bracket is a lexeme of its own.
      obtain rfl | rfl | rfl | rfl : c = '(' ∨ c = ')' ∨ c = '{' ∨ c = '}' := by
        unfold NoBracket at plain
        tauto
      all_goals
        cases lexes
        simp only [Nat.sub_self, List.drop_zero] at ih ⊢
      · exact ih (.paren :: opened)
      · rw [matchedFrom_closes rfl rfl, ← ih]
        exact balancedFrom_closer opened .paren rest
      · exact ih (.brace :: opened)
      · rw [matchedFrom_closes rfl rfl, ← ih]
        exact balancedFrom_closer opened .brace rest

theorem balanced_scan (source : String) :
    balanced source.toList = matchedFrom [] (Parser.kinds (scan source)) :=
  balancedFrom_scanFrom [] 0 source.toList

/-! ## Wrapped entries -/

/-- A character that changes nothing at the end of a text, in a comment or outside. -/
def Trails (c : Char) : Prop := Quiet c ∧ c ≠ '*'

variable {tail : List Char}

theorem balancedFrom_trailing (trails : ∀ c ∈ tail, Trails c) (p : Place) (closers : List Char) :
    balancedFrom p closers tail = closers.isEmpty := by
  induction tail generalizing p with
  | nil => rw [balancedFrom]
  | cons c tail ih =>
    obtain ⟨⟨quiet, noStar⟩, others⟩ := List.forall_mem_cons.mp trails
    cases p with
    | code => rw [balancedFrom_skipped (quiet.skipped tail), ih others]
    | lineComment => rw [balancedFrom, ih others]
    | blockComment afterStar =>
      rw [balancedFrom, ih others]
      exact fun _ slash => quiet.2 slash

/-- No comment begins where there was none. -/
theorem no_comment_append {d : Char} (h : ∀ ds, c = '/' → cs = d :: ds → False)
    (absent : d ∉ tail) : ∀ ds, c = '/' → cs ++ tail = d :: ds → False := by
  intro ds slash same
  cases cs with
  | nil => exact absent (by rw [← List.nil_append tail, same]; exact List.mem_cons_self)
  | cons e cs =>
    obtain ⟨rfl, -⟩ := List.cons.inj same
    exact h cs slash rfl

/-- Whatever place is reached, the search ends there with the brackets that are open. -/
theorem balancedFrom_append (trails : ∀ c ∈ tail, Trails c) (p : Place) (closers cs : List Char) :
    balancedFrom p closers (cs ++ tail) = balancedFrom p closers cs := by
  have noSlash : '/' ∉ tail := fun slash => (trails _ slash).1.2 rfl
  have noStar : '*' ∉ tail := fun star => (trails _ star).2 rfl
  fun_induction balancedFrom p closers cs with
  | case1 p closers => exact balancedFrom_trailing trails p closers
  | case2 closers cs ih | case3 closers cs ih | case4 closers cs ih | case5 closers cs ih =>
    simp only [List.cons_append, balancedFrom]
    exact ih
  | case6 cs c closers noLine noBlock noParen noBrace closes ih =>
    rw [List.cons_append, balancedFrom.eq_6 c _ c closers (no_comment_append noLine noSlash)
      (no_comment_append noBlock noStar) noParen noBrace, if_pos closes, if_pos rfl, ih]
  | case7 c cs noLine noBlock noParen noBrace closes expected closers other =>
    rw [List.cons_append, balancedFrom.eq_6 c _ expected closers (no_comment_append noLine noSlash)
      (no_comment_append noBlock noStar) noParen noBrace, if_pos closes, if_neg other]
  | case8 c cs noLine noBlock noParen noBrace closes =>
    rw [List.cons_append, balancedFrom.eq_7 c _ (no_comment_append noLine noSlash)
      (no_comment_append noBlock noStar) noParen noBrace, if_pos closes]
  | case9 closers c cs noLine noBlock noParen noBrace stays ih =>
    have skipped : Skipped c (cs ++ tail) :=
      ⟨⟨noParen, fun same => stays (.inl same), noBrace, fun same => stays (.inr same)⟩,
        division_of (no_comment_append noLine noSlash) (no_comment_append noBlock noStar)⟩
    rw [List.cons_append, balancedFrom_skipped skipped, ih]
  | case10 closers c cs ih =>
    rw [List.cons_append, balancedFrom, ih]
  | case11 closers cs ih =>
    rw [List.cons_append, balancedFrom, ih]
  | case12 afterStar closers c cs stays ih =>
    rw [List.cons_append, balancedFrom, ih]
    exact stays

theorem trails_of_blank (blank : Text.isBlank c = true) : Trails c := by
  refine ⟨⟨⟨?_, ?_, ?_, ?_⟩, ?_⟩, ?_⟩
  all_goals
    rintro rfl
    cases blank

theorem balanced_trim (entry : List Char) : balanced (Text.trim entry) = balanced entry := by
  obtain ⟨front, back, whole, before, behind⟩ := Text.trim_parts entry
  have trails : ∀ c ∈ back, Trails c := fun c hc => trails_of_blank (behind c hc)
  have quiet : ∀ c ∈ front, Quiet c := fun c hc => (trails_of_blank (before c hc)).1
  calc balanced (Text.trim entry)
    _ = balanced (Text.trim entry ++ back) := (balancedFrom_append trails _ _ _).symm
    _ = balanced (front ++ (Text.trim entry ++ back)) := (balancedFrom_quiet quiet _ _).symm
    _ = balanced entry := by rw [← List.append_assoc, ← whole]

/-- Neither the tags nor the newlines beside them hold a bracket. -/
theorem balanced_wrapped (entry : List Char) :
    balanced (wrapped entry).toList = balanced entry := by
  have opening : ∀ c ∈ "<?php\n".toList, Quiet c := by simp [Quiet, NoBracket]
  have closing : ∀ c ∈ "\n?>".toList, Trails c := by simp [Trails, Quiet, NoBracket]
  have parts : ("<?php\n" ++ String.ofList (Text.trim entry) ++ "\n?>").toList
      = "<?php\n".toList ++ (Text.trim entry ++ "\n?>".toList) := by
    simp only [String.toList_append, String.toList_ofList, List.append_assoc]
  unfold wrapped
  extract_lets text
  split
  · rw [String.toList_ofList, balanced_trim]
  · calc balanced ("<?php\n" ++ text ++ "\n?>").toList
      _ = balanced ("<?php\n".toList ++ (Text.trim entry ++ "\n?>".toList)) := by rw [parts]
      _ = balanced (Text.trim entry ++ "\n?>".toList) := balancedFrom_quiet opening _ _
      _ = balanced (Text.trim entry) := balancedFrom_append closing _ _ _
      _ = balanced entry := balanced_trim entry

end Session

end FlatStack
