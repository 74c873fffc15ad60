import FlatStack.Proofs.ParserProgress
import FlatStack.Proofs.Texts
import FlatStack.Proofs.Tiling
import FlatStack.Token.Listing

/-!
# Layout makes no difference

The characters of a lexeme are read as the same lexeme wherever a blank or
nothing follows them. So a text that is put together from the lexemes of
another one, with a blank between each two, has tokens of the same kinds, and
kinds are all that a parser looks at.
-/

set_option autoImplicit false

namespace FlatStack

namespace Token

variable {c : Char} {cs rest : List Char} {kind : Kind} {offset : Nat}

/-! ## Lexemes before a blank -/

theorem other_of_apart (apart : Text.Apart rest) (plain : Text.isBlank c = false) :
    rest.head? ≠ some c := by
  intro head
  rw [apart c head] at plain
  cases plain

theorem digit_not_blank (h : c.isDigit) : Text.isBlank c = false :=
  namePart_not_blank (by rw [isNamePart, Char.isAlphanum, h, Bool.or_true, Bool.true_or])

/-- A run of characters that are no blanks ends before a blank. -/
theorem takeWhile_again {p : Char → Bool} (cs : List Char) (stop : ∀ c ∈ rest.head?, p c = false) :
    (cs.takeWhile p ++ rest).takeWhile p = cs.takeWhile p := by
  have run : ∀ c ∈ cs.takeWhile p, p c := fun c hc => List.mem_takeWhile_imp hc
  have parts := Text.span_stop run stop
  rw [List.span_eq_takeWhile_dropWhile] at parts
  exact congrArg Prod.fst parts

theorem stops_of_apart {p : Char → Bool} (plain : ∀ c, p c → Text.isBlank c = false)
    (apart : Text.Apart rest) : ∀ c ∈ rest.head?, p c = false := by
  intro c hc
  by_contra some
  exact other_of_apart apart (plain c (by simpa using some)) hc

/-- What is read at the front of `cs` has a text of its own behind its first
character, and this text is read alike where a blank or nothing follows it. -/
def ReadsAlone (read : List Char → Kind × Nat) (cs : List Char) : Prop :=
  ∃ word, word <+: cs ∧ (read cs).2 = word.length + 1 ∧
    ∀ rest, Text.Apart rest → read (word ++ rest) = read cs

/-- A lexeme that one certain character makes longer. -/
theorem readsAlone_double {read : List Char → Kind × Nat} (second : Char) (one two : Kind)
    (double : ∀ ds, read (second :: ds) = (two, 2))
    (here : cs.head? ≠ some second → read cs = (one, 1))
    (alone : ∀ rest, Text.Apart rest → read rest = (one, 1)) : ReadsAlone read cs := by
  by_cases head : cs.head? = some second
  · obtain ⟨ds, rfl⟩ := List.head?_eq_some_iff.mp head
    exact ⟨[second], by simp, by rw [double]; rfl, fun rest _ => by rw [double]; exact double rest⟩
  · refine ⟨[], List.nil_prefix, by rw [here head]; rfl, fun rest apart => ?_⟩
    rw [here head]
    exact alone rest apart

theorem orEqual_single (alone withEqual : Kind) (h : cs.head? ≠ some '=') :
    orEqual alone withEqual cs = (alone, 1) := by
  fun_cases orEqual alone withEqual cs with
  | case1 => exact absurd rfl h
  | case2 => rfl

theorem readsAlone_orEqual (alone withEqual : Kind) (cs : List Char) :
    ReadsAlone (orEqual alone withEqual) cs :=
  readsAlone_double '=' _ _ (fun _ => rfl) (orEqual_single alone withEqual) fun _ apart =>
    orEqual_single alone withEqual (other_of_apart apart rfl)

theorem pair_single {second : Char} (first : Char) (kind : Kind) (h : cs.head? ≠ some second) :
    pair first second kind cs = (.invalid first, 1) := by
  cases cs with
  | nil => rfl
  | cons d ds =>
    have other : d ≠ second := fun same => h (congrArg some same)
    rw [pair, if_neg other]

theorem readsAlone_pair {second : Char} (plain : Text.isBlank second = false) (first : Char)
    (kind : Kind) (cs : List Char) : ReadsAlone (pair first second kind) cs :=
  readsAlone_double second _ _ (fun _ => if_pos rfl) (pair_single first kind) fun _ apart =>
    pair_single first kind (other_of_apart apart plain)

/-- What stands behind `<` in the tag that opens a program. -/
theorem tag_not_apart (apart : Text.Apart rest) : ¬ "?php".toList.isPrefixOf rest := by
  intro tag
  obtain ⟨more, rfl⟩ := List.isPrefixOf_iff_prefix.mp tag
  exact other_of_apart apart (c := '?') rfl rfl

/-! ## Numbers and names -/

theorem fraction_again (apart : Text.Apart rest) :
    fraction (fraction cs ++ rest) = fraction cs := by
  have none : fraction rest = [] := by
    fun_cases fraction rest with
    | case1 => exact absurd rfl (other_of_apart apart (c := '.') rfl)
    | case2 => rfl
    | case3 => rfl
  fun_cases fraction cs with
  | case1 d ds digit =>
    have stop := stops_of_apart (fun _ => digit_not_blank) apart
    simp [fraction, digit, takeWhile_again _ stop]
  | case2 => exact none
  | case3 => exact none

/-- The digits before a fraction go no further than before. -/
theorem fraction_stops (cs : List Char) (apart : Text.Apart rest) :
    ∀ c ∈ (fraction cs ++ rest).head?, c.isDigit = false := by
  have stop := stops_of_apart (fun _ => digit_not_blank) apart
  fun_cases fraction cs with
  | case1 => simp
  | case2 => exact stop
  | case3 => exact stop

theorem fraction_starts : fraction cs <+: cs := by
  fun_cases fraction cs with
  | case1 d ds => simpa [List.cons_prefix_cons] using List.takeWhile_prefix _
  | case2 => exact List.nil_prefix
  | case3 => exact List.nil_prefix

/-- The text of a number behind its first digit. -/
def figures (cs : List Char) : List Char :=
  let digits := cs.takeWhile Char.isDigit
  digits ++ fraction (cs.drop digits.length)

theorem figures_starts (cs : List Char) : figures cs <+: cs := by
  have digits := List.prefix_iff_eq_append.mp (List.takeWhile_prefix (l := cs) Char.isDigit)
  conv_rhs => rw [← digits]
  exact (List.prefix_append_right_inj _).mpr fraction_starts

theorem figures_again (apart : Text.Apart rest) : figures (figures cs ++ rest) = figures cs := by
  have run := takeWhile_again cs
    (fraction_stops (cs.drop (cs.takeWhile Char.isDigit).length) apart)
  rw [figures, figures, List.append_assoc, run, List.drop_left, fraction_again apart]

theorem sigil_alone (h : ∀ d ∈ cs.head?, isNameStart d = false) :
    lexeme '$' cs = (.invalid '$', 1) := by
  cases cs with
  | nil => rfl
  | cons d ds => rw [lexeme, if_neg (by simp [h d rfl])]

theorem sigil_apart (apart : Text.Apart rest) : lexeme '$' rest = (.invalid '$', 1) :=
  sigil_alone (stops_of_apart (fun _ start => namePart_not_blank (nameStart_part start)) apart)

/-! ## All lexemes -/

theorem readsAlone_lexeme (c : Char) (cs : List Char) : ReadsAlone (lexeme c) cs := by
  fun_cases lexeme c cs with
  | case1 | case2 | case3 | case4 | case5 | case6 | case7 | case8 | case9 | case10 | case11 =>
    exact ⟨[], List.nil_prefix, rfl, fun _ _ => rfl⟩
  | case12 cs tag =>
    refine ⟨_, List.isPrefixOf_iff_prefix.mp tag, by rw [lexeme, if_pos tag]; rfl, fun rest _ => ?_⟩
    have again := List.isPrefixOf_iff_prefix.mpr (List.prefix_append "?php".toList rest)
    rw [lexeme, lexeme, if_pos tag, if_pos again]
  | case13 cs untagged =>
    refine readsAlone_double '=' (.relation .lt) _ (fun _ => rfl) (fun other => ?_)
      fun rest apart => ?_
    · rw [lexeme, if_neg untagged, orEqual_single _ _ other]
    · rw [lexeme, if_neg (tag_not_apart apart), orEqual_single _ _ (other_of_apart apart rfl)]
  | case14 | case15 | case16 => exact readsAlone_orEqual _ _ _
  | case17 | case18 | case19 => exact readsAlone_pair rfl _ _ _
  | case20 d ds start =>
    have more : (d :: ds).takeWhile isNamePart = d :: ds.takeWhile isNamePart :=
      List.takeWhile_cons_of_pos (nameStart_part start)
    refine ⟨_, List.takeWhile_prefix isNamePart, by rw [lexeme, if_pos start], fun rest apart => ?_⟩
    have again := takeWhile_again (d :: ds)
      (stops_of_apart (fun _ => namePart_not_blank) apart)
    rw [more, List.cons_append] at again ⊢
    rw [lexeme, lexeme, if_pos start, if_pos start, again, more]
  | case21 d ds other =>
    have here : lexeme '$' (d :: ds) = (.invalid '$', 1) := sigil_alone (by simpa using other)
    refine ⟨[], List.nil_prefix, by rw [here]; rfl, fun rest apart => ?_⟩
    rw [here]
    exact sigil_apart apart
  | case22 => exact ⟨[], List.nil_prefix, rfl, fun rest apart => sigil_apart apart⟩
  | case23 =>
    rename_i digit _
    have number : ∀ ds, lexeme c ds =
        (.number ((Decimal.read? (c :: figures ds)).getD 0), (figures ds).length + 1) := by
      intro ds
      rw [lexeme, if_pos digit]
      · rfl
      all_goals assumption
    refine ⟨_, figures_starts cs, by rw [number], fun rest apart => ?_⟩
    rw [number, number, figures_again apart]
  | case24 =>
    rename_i digit start _
    have name : ∀ ds, lexeme c ds =
        (wordKind (String.ofList (c :: ds.takeWhile isNamePart)),
          (ds.takeWhile isNamePart).length + 1) := by
      intro ds
      rw [lexeme, if_neg digit, if_pos start]
      · rfl
      all_goals assumption
    refine ⟨_, List.takeWhile_prefix isNamePart, by rw [name], fun rest apart => ?_⟩
    rw [name, name, takeWhile_again _ (stops_of_apart (fun _ => namePart_not_blank) apart)]
  | case25 =>
    rename_i digit start
    have unknown : ∀ ds, lexeme c ds = (.invalid c, 1) := by
      intro ds
      rw [lexeme, if_neg digit, if_neg start]
      all_goals assumption
    exact ⟨[], List.nil_prefix, by rw [unknown]; rfl, fun rest _ => by rw [unknown, unknown]⟩

/-! ## Kinds of a text -/

open FlatStack.Parser (kinds)

/-- The kinds of the tokens of a text, which do not depend on where it stands. -/
def kindsOf (cs : List Char) : List Kind := kinds (scanFrom 0 cs)

theorem scanFrom_end (offset : Nat) (h : cs.drop (gapLength .blank cs) = []) :
    kinds (scanFrom offset cs) = [.endOfSource] := by
  rw [scanFrom]
  split
  · rfl
  · rename_i left
    rw [h] at left
    cases left

theorem scanFrom_lexeme (offset : Nat) (h : cs.drop (gapLength .blank cs) = c :: rest) :
    ∃ stop, kinds (scanFrom offset cs) =
      (lexeme c rest).1 :: kinds (scanFrom stop (rest.drop ((lexeme c rest).2 - 1))) := by
  rw [scanFrom]
  split
  · rename_i left
    rw [h] at left
    cases left
  · rename_i left
    rw [h] at left
    obtain ⟨rfl, rfl⟩ := List.cons.inj left
    exact ⟨_, rfl⟩

theorem kinds_scanFrom (offset offset' : Nat) (cs : List Char) :
    kinds (scanFrom offset cs) = kinds (scanFrom offset' cs) := by
  fun_induction scanFrom offset cs generalizing offset' with
  | case1 offset cs gap start empty => exact (scanFrom_end offset' empty).symm
  | case2 offset cs gap start c rest left kind length lexes stop ih =>
    obtain ⟨stop', there⟩ := scanFrom_lexeme offset' left
    rw [there, lexes, ← ih stop']
    rfl

theorem kindsOf_lexeme (h : cs.drop (gapLength .blank cs) = c :: rest) :
    kindsOf cs = (lexeme c rest).1 :: kindsOf (rest.drop ((lexeme c rest).2 - 1)) := by
  obtain ⟨stop, here⟩ := scanFrom_lexeme 0 h
  rw [kindsOf, here, kinds_scanFrom stop 0, kindsOf]

theorem gapLength_blank (blank : Text.isBlank c) (cs : List Char) :
    gapLength .blank (c :: cs) = gapLength .blank cs + 1 := by
  generalize place : Gap.blank = g, text : c :: cs = whole
  fun_cases gapLength g whole with
  | case1 | case2 =>
    obtain ⟨rfl, -⟩ := List.cons.inj text
    cases blank
  | case3 =>
    obtain ⟨-, rfl⟩ := List.cons.inj text
    rfl
  | case4 _ _ _ _ plain =>
    obtain ⟨rfl, -⟩ := List.cons.inj text
    exact absurd blank plain
  | case5 | case6 | case7 | case8 => cases place
  | case9 => cases text

theorem kindsOf_blank (blank : Text.isBlank c) (cs : List Char) :
    kindsOf (c :: cs) = kindsOf cs := by
  have skipped : (c :: cs).drop (gapLength .blank (c :: cs)) = cs.drop (gapLength .blank cs) := by
    rw [gapLength_blank blank, List.drop_succ_cons]
  cases left : cs.drop (gapLength .blank cs) with
  | nil => rw [kindsOf, kindsOf, scanFrom_end _ left, scanFrom_end _ (skipped.trans left)]
  | cons d rest => rw [kindsOf_lexeme left, kindsOf_lexeme (skipped.trans left)]

theorem kindsOf_blanks (blank : ∀ c ∈ cs, Text.isBlank c) : kindsOf cs = [.endOfSource] := by
  induction cs with
  | nil => exact scanFrom_end 0 rfl
  | cons c cs ih =>
    obtain ⟨first, others⟩ := List.forall_mem_cons.mp blank
    rw [kindsOf_blank first, ih others]

/-! ## Words -/

/-- A text that is read as one token where a blank or nothing follows it. -/
def IsWord (kind : Kind) (word : List Char) : Prop :=
  ∀ rest, Text.Apart rest → kindsOf (word ++ rest) = kind :: kindsOf rest

/-- A slash that begins no comment. -/
theorem division_of (noLine : ∀ ds, c = '/' → cs = '/' :: ds → False)
    (noBlock : ∀ ds, c = '/' → cs = '*' :: ds → False) (slash : c = '/') :
    ∀ d ∈ cs.head?, d ≠ '/' ∧ d ≠ '*' := by
  intro d hd
  obtain ⟨ds, rfl⟩ := List.head?_eq_some_iff.mp hd
  exact ⟨fun same => noLine ds slash (by rw [same]), fun same => noBlock ds slash (by rw [same])⟩

theorem gapLength_eq_zero : gapLength .blank (c :: cs) = 0 ↔
    Text.isBlank c = false ∧ (c = '/' → ∀ d ∈ cs.head?, d ≠ '/' ∧ d ≠ '*') := by
  generalize place : Gap.blank = g, text : c :: cs = whole
  fun_cases gapLength g whole with
  | case1 | case2 =>
    obtain ⟨rfl, rfl⟩ := List.cons.inj text
    simp
  | case3 _ _ _ _ blank =>
    obtain ⟨rfl, -⟩ := List.cons.inj text
    simp [blank]
  | case4 _ _ noLine noBlock plain =>
    obtain ⟨rfl, rfl⟩ := List.cons.inj text
    exact iff_of_true rfl ⟨by simpa using plain, division_of noLine noBlock⟩
  | case5 | case6 | case7 | case8 => cases place
  | case9 => cases text

/-- A gap goes on for as long as it can. -/
theorem gapLength_stops (g : Gap) (cs : List Char) :
    gapLength .blank (cs.drop (gapLength g cs)) = 0 := by
  fun_induction gapLength g cs with
  | case1 cs ih | case2 cs ih => exact ih
  | case3 c cs _ _ blank ih => exact ih
  | case4 c cs noLine noBlock plain =>
    exact gapLength_eq_zero.mpr ⟨by simpa using plain, division_of noLine noBlock⟩
  | case5 cs ih => exact ih
  | case6 c cs other ih => exact ih
  | case7 cs ih => exact ih
  | case8 afterStar c cs stays ih => exact ih
  | case9 g => rw [List.drop_nil]; rfl

theorem isWord_lexeme (start : gapLength .blank (c :: cs) = 0) :
    IsWord (lexeme c cs).1 ((c :: cs).take (lexeme c cs).2) := by
  obtain ⟨word, front, length, again⟩ := readsAlone_lexeme c cs
  have taken : (c :: cs).take (lexeme c cs).2 = c :: word := by
    rw [length, List.take_succ_cons, ← List.prefix_iff_eq_take.mp front]
  intro rest apart
  have begins : gapLength .blank (c :: (word ++ rest)) = 0 := by
    obtain ⟨plain, division⟩ := gapLength_eq_zero.mp start
    refine gapLength_eq_zero.mpr ⟨plain, fun slash d hd => ?_⟩
    cases word with
    | nil =>
      have blank := apart d hd
      constructor <;> rintro rfl <;> cases blank
    | cons e word =>
      obtain ⟨more, rfl⟩ := front
      exact division slash d hd
  have left : (c :: (word ++ rest)).drop (gapLength .blank (c :: (word ++ rest))) =
      c :: (word ++ rest) := by
    rw [begins, List.drop_zero]
  rw [taken, List.cons_append, kindsOf_lexeme left, again rest apart, length, Nat.add_sub_cancel,
    List.drop_left]

/-! ## Texts of tokens -/

theorem dropBytes_append (cs ds : List Char) : dropBytes (byteLength cs) (cs ++ ds) = ds := by
  induction cs with
  | nil => cases ds <;> rfl
  | cons c cs ih =>
    have := c.utf8Size_pos
    rw [List.cons_append, dropBytes, byteLength_cons, if_neg (by omega), Nat.add_sub_cancel_left,
      ih]

theorem takeBytes_append (cs ds : List Char) : takeBytes (byteLength cs) (cs ++ ds) = cs := by
  induction cs with
  | nil => cases ds <;> rfl
  | cons c cs ih =>
    have := c.utf8Size_pos
    rw [List.cons_append, takeBytes, byteLength_cons, if_neg (by omega), Nat.add_sub_cancel_left,
      ih]

theorem slice_append (front word back : List Char) :
    slice (front ++ (word ++ back)) ⟨byteLength front, byteLength front + byteLength word⟩ =
      word := by
  rw [slice, dropBytes_append, Span.length, Nat.add_sub_cancel_left, takeBytes_append]

theorem words_scanFrom (front cs : List Char) : ∀ t ∈ scanFrom (byteLength front) cs,
    t.kind ≠ .endOfSource → IsWord t.kind (slice (front ++ cs) t.span) := by
  generalize at_ : byteLength front = offset
  fun_induction scanFrom offset cs generalizing front with
  | case1 => simp
  | case2 offset cs gap start c rest left kind length lexes stop ih =>
    have positive : 0 < length := by simpa [lexes] using lexeme_pos c rest
    obtain ⟨n, rfl⟩ := Nat.exists_eq_add_one_of_ne_zero positive.ne'
    have begins : gapLength .blank (c :: rest) = 0 := left ▸ gapLength_stops .blank cs
    have word := isWord_lexeme begins
    rw [lexes] at word
    have whole : front ++ cs =
        (front ++ cs.take gap) ++ ((c :: rest).take (n + 1) ++ rest.drop n) := by
      rw [List.take_succ_cons, List.cons_append, List.take_append_drop, ← left, List.append_assoc,
        List.take_append_drop]
    have starts : byteLength (front ++ cs.take gap) = start := by
      rw [byteLength_append, at_]
    refine List.forall_mem_cons.mpr ⟨fun _ => ?_, ?_⟩
    · rw [whole]
      have text := slice_append (front ++ cs.take gap) ((c :: rest).take (n + 1)) (rest.drop n)
      rw [starts] at text
      rwa [text]
    · have later := ih (front ++ cs.take gap ++ (c :: rest).take (n + 1))
        (by rw [byteLength_append, starts])
      rwa [whole, ← List.append_assoc]

/-- The texts of tokens, with a space between each two. -/
def joined (source : List Char) (ts : List Token) : String :=
  " ".intercalate (ts.map fun t => String.ofList (slice source t.span))

theorem kindsOf_joined {source tail : List Char} {ts : List Token}
    (words : ∀ t ∈ ts, IsWord t.kind (slice source t.span))
    (blank : ∀ c ∈ tail, Text.isBlank c) :
    kindsOf ((joined source ts).toList ++ tail) = kinds ts ++ [.endOfSource] := by
  induction ts with
  | nil => exact kindsOf_blanks blank
  | cons t ts ih =>
    obtain ⟨first, others⟩ := List.forall_mem_cons.mp words
    cases ts with
    | nil =>
      have apart : Text.Apart tail := fun c hc => blank c (List.mem_of_mem_head? hc)
      have alone : (joined source [t]).toList = slice source t.span := by simp [joined]
      rw [alone, first tail apart, kindsOf_blanks blank]
      rfl
    | cons u ts =>
      have parts : (joined source (t :: u :: ts)).toList =
          slice source t.span ++ ' ' :: (joined source (u :: ts)).toList := by
        simp [joined, String.intercalate_cons_cons]
      rw [parts, List.append_assoc, first _ (by rintro c ⟨⟩; rfl), List.cons_append,
        kindsOf_blank rfl, ih others]
      rfl

/-- An empty text at the end adds a space at most. -/
theorem joined_snoc {source : List Char} {t : Token} (empty : slice source t.span = [])
    (ts : List Token) : ∃ tail,
      (joined source (ts ++ [t])).toList = (joined source ts).toList ++ tail ∧
        ∀ c ∈ tail, Text.isBlank c := by
  cases ts with
  | nil =>
    refine ⟨[], ?_, by simp⟩
    rw [List.append_nil, List.nil_append, joined, joined, List.map_singleton, empty,
      String.intercalate_singleton]
    rfl
  | cons u ts =>
    refine ⟨[' '], ?_, List.forall_mem_singleton.mpr rfl⟩
    rw [joined, List.map_append, String.intercalate_append_of_ne_nil (by simp) (by simp)]
    simp [joined, empty]

end Token

open Token

theorem parse_of_kinds {source other : String}
    (same : Parser.kinds (scan other) = Parser.kinds (scan source)) (p : Program) :
    Program.parse other = .ok p ↔ Program.parse source = .ok p := by
  rw [Program.parse, Program.parse, Program.ofTokens_ok, Program.ofTokens_ok, ← Parser.view_ok,
    Parser.steps_program.view_eq same, Parser.view_ok]

/-- The texts of tokens, with spaces between them, are read as tokens of the
same kinds, whether the empty end of the source counts as one or not. And
from tokens of the same kinds the same program is read, or none. -/
theorem layout_independent (source : String) :
    Parser.kinds (scan (joined source.toList (scan source))) = Parser.kinds (scan source) ∧
    Parser.kinds (scan (joined source.toList (scan source).dropLast)) =
      Parser.kinds (scan source) ∧
    ∀ other, Parser.kinds (scan other) = Parser.kinds (scan source) →
      ∀ p, Program.parse other = .ok p ↔ Program.parse source = .ok p := by
  obtain ⟨before, whole, proper⟩ := (tiles_scanFrom 0 source.toList).ended
  rw [Nat.zero_add, ← scan] at whole
  have words : ∀ t ∈ before, IsWord t.kind (slice source.toList t.span) := by
    intro t ht
    refine words_scanFrom [] source.toList t ?_ (proper t ht)
    rw [byteLength_nil, ← scan, whole]
    exact List.mem_append_left _ ht
  have again : ∀ tail, (∀ c ∈ tail, Text.isBlank c) →
      kindsOf ((joined source.toList before).toList ++ tail) = Parser.kinds (scan source) := by
    intro tail blank
    rw [kindsOf_joined words blank, whole, Parser.kinds, Parser.kinds, List.map_append]
    rfl
  let last : Token := ⟨.endOfSource, ⟨byteLength source.toList, byteLength source.toList⟩⟩
  have none : slice source.toList last.span = [] := by
    simpa using slice_append source.toList [] []
  refine ⟨?_, ?_, fun other same => parse_of_kinds same⟩
  · obtain ⟨tail, text, blank⟩ := joined_snoc none before
    rw [← again tail blank, ← text, ← whole]
    rfl
  · rw [← again [] (by simp), whole, List.dropLast_concat, List.append_nil]
    rfl

end FlatStack
