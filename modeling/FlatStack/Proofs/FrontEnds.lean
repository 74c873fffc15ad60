import FlatStack.Pipeline
import FlatStack.Proofs.ParserExactness
import FlatStack.Proofs.Tiling

/-!
# Two ways to a program

A program can be read from all tokens of a source text, or from its tokens only
if there are no unknown characters among them. A parser never steps over an
unknown character, so both ways lead to the same programs. They report the same
unknown character, except that a parser may stop at something before it.
-/

set_option autoImplicit false

namespace FlatStack

open Stateful Token

variable {source : List Char} {ts us passed rest : List Token} {t : Token} {u : Unrecognized}

/-! ## The first unknown character -/

namespace Token

theorem unrecognized?_cons_invalid {c : Char} (h : t.kind = .invalid c) :
    unrecognized? source (t :: ts) = some ⟨c, t.span.location source⟩ := by
  obtain ⟨kind, span⟩ := t
  obtain rfl : kind = .invalid c := h
  rfl

theorem unrecognized?_cons_other (h : ∀ c, t.kind ≠ .invalid c) :
    unrecognized? source (t :: ts) = unrecognized? source ts := by
  obtain ⟨kind, span⟩ := t
  rw [unrecognized?]
  exact fun c _ same => h c (congrArg Token.kind same)

theorem known_of_proper {k : Kind} (h : k.isProper) (c : Char) : k ≠ .invalid c := by
  rintro rfl
  cases h

theorem unrecognized?_append (proper : ∀ t ∈ passed, t.kind.isProper) :
    unrecognized? source (passed ++ ts) = unrecognized? source ts := by
  induction passed with
  | nil => rfl
  | cons t passed ih =>
    obtain ⟨first, others⟩ := List.forall_mem_cons.mp proper
    rw [List.cons_append, unrecognized?_cons_other (known_of_proper first), ih others]

/-- What is reported stands behind known characters. -/
theorem unrecognized?_some (h : unrecognized? source ts = some u) : ∃ before t after,
    ts = before ++ t :: after ∧ t.kind = .invalid u.character ∧
      t.span.location source = u.location ∧ ∀ t ∈ before, ∀ c, t.kind ≠ .invalid c := by
  induction ts with
  | nil => cases h
  | cons t ts ih =>
    by_cases known : ∀ c, t.kind ≠ .invalid c
    · rw [unrecognized?_cons_other known] at h
      obtain ⟨before, v, after, rfl, kind, place, others⟩ := ih h
      exact ⟨t :: before, v, after, rfl, kind, place, List.forall_mem_cons.mpr ⟨known, others⟩⟩
    · obtain ⟨c, kind⟩ : ∃ c, t.kind = .invalid c := by simpa using known
      rw [unrecognized?_cons_invalid kind] at h
      obtain rfl : _ = u := Option.some.inj h
      exact ⟨[], t, ts, rfl, kind, rfl, by simp⟩

end Token

/-! ## Where a parser ends -/

/-- All tokens of a program are known. -/
theorem Program.known_of_ofTokens (ended : Token.Ended ts) {p : Program}
    (h : Program.ofTokens source ts = .ok p) : unrecognized? source ts = none := by
  obtain ⟨rest, ran⟩ := Program.ofTokens_ok.mp h
  obtain ⟨passed, whole, proper⟩ := (@Parser.steps_program ts).passes
  have left : Parser.left Parser.program ts = rest := by rw [Parser.left, ran]
  rw [left] at whole
  rw [whole, unrecognized?_append proper]
  obtain ⟨_, _, -, -, -, ends, -⟩ := Parser.program_taken ran
  by_cases some : rest = []
  · rw [some]
    rfl
  · obtain ⟨last, rfl, kind⟩ := (ended.suffix ⟨passed, whole.symm⟩ some).single ends
    rw [unrecognized?_cons_other (by simp [kind])]
    rfl

namespace ParseError

/-- An error with nothing but known tokens passed. -/
theorem ofTokens_error {e : ParseError} (h : Program.ofTokens source ts = .error e) :
    ∃ passed rest expectation, ts = passed ++ rest ∧ (∀ t ∈ passed, t.kind.isProper) ∧
      e = ofExpectation source rest expectation := by
  unfold Program.ofTokens at h
  obtain ⟨passed, whole, proper⟩ := (@Parser.steps_program ts).passes
  cases ran : Parser.program ts with
  | ok => simp [ran] at h
  | error expectation rest =>
    have left : Parser.left Parser.program ts = rest := by rw [Parser.left, ran]
    rw [left] at whole
    rw [ran] at h
    exact ⟨passed, rest, expectation, whole, proper, (Except.error.inj h).symm⟩

theorem ofExpectation_invalid {c : Char} (h : t.kind = .invalid c) (ts : List Token)
    (e : Expectation) :
    ofExpectation source (t :: ts) e = .unrecognized ⟨c, t.span.location source⟩ := by
  unfold ofExpectation
  simp [Parser.headKind, h]

theorem ofExpectation_other (h : ∀ c, t.kind ≠ .invalid c) (ts : List Token) (e : Expectation) :
    ofExpectation source (t :: ts) e = .unexpected e t.kind (t.span.location source) := by
  unfold ofExpectation
  dsimp only [Parser.headKind]
  split
  · rename_i c same
    exact absurd same (h c)
  · rfl

end ParseError

/-! ## Both ways -/

theorem scanAll_ok {source : String} :
    scanAll source = .ok ts ↔
      ts = scan source ∧ unrecognized? source.toList (scan source) = none := by
  unfold scanAll
  dsimp only
  cases unrecognized? source.toList (scan source) <;> simp [eq_comm]

theorem scanAll_error {source : String} :
    scanAll source = .error u ↔ unrecognized? source.toList (scan source) = some u := by
  unfold scanAll
  dsimp only
  cases unrecognized? source.toList (scan source) <;> simp

theorem parse_ok_iff (source : String) (p : Program) : Program.parse source = .ok p ↔
    ∃ ts, scanAll source = .ok ts ∧ Program.ofTokens source.toList ts = .ok p := by
  constructor
  · intro h
    exact ⟨_, scanAll_ok.mpr ⟨rfl, Program.known_of_ofTokens (ended_scan source) h⟩, h⟩
  · rintro ⟨ts, scanned, h⟩
    obtain ⟨rfl, -⟩ := scanAll_ok.mp scanned
    exact h

theorem scanAll_of_parse {source : String} (h : Program.parse source = .error (.unrecognized u)) :
    scanAll source = .error u := by
  obtain ⟨passed, rest, e, whole, proper, failed⟩ := ParseError.ofTokens_error h
  rw [scanAll_error, whole, unrecognized?_append proper]
  cases rest with
  | nil => cases failed
  | cons t rest =>
    by_cases known : ∀ c, t.kind ≠ .invalid c
    · rw [ParseError.ofExpectation_other known] at failed
      cases failed
    · obtain ⟨c, kind⟩ : ∃ c, t.kind = .invalid c := by simpa using known
      rw [ParseError.ofExpectation_invalid kind] at failed
      rw [unrecognized?_cons_invalid kind, ParseError.unrecognized.inj failed]

/-- A parser comes to the first unknown character or stops before it. -/
theorem parse_of_scanAll {source : String} (h : scanAll source = .error u) :
    Program.parse source = .error (.unrecognized u) ∨
      ∃ e found l, Program.parse source = .error (.unexpected e found l) ∧
        l.Before u.location := by
  rw [scanAll_error] at h
  cases parsed : Program.parse source with
  | ok p =>
    rw [Program.known_of_ofTokens (ended_scan source) parsed] at h
    cases h
  | error error =>
    obtain ⟨passed, rest, e, whole, proper, rfl⟩ := ParseError.ofTokens_error parsed
    rw [whole, unrecognized?_append proper] at h
    obtain ⟨before, t, after, rfl, kind, place, known⟩ := unrecognized?_some h
    cases before with
    | nil =>
      left
      rw [List.nil_append, ParseError.ofExpectation_invalid kind, place]
    | cons b before =>
      right
      obtain ⟨first, -⟩ := List.forall_mem_cons.mp known
      refine ⟨e, b.kind, _, by rw [List.cons_append, ParseError.ofExpectation_other first], ?_⟩
      have places := (tiles_scanFrom 0 source.toList).located
      rw [← scan] at places
      rw [whole, List.pairwise_append] at places
      rw [← place]
      exact (List.pairwise_cons.mp places.2.1).1 t (by simp)

section Errors

variable {α ε : Type} {x : Except ε α} {f : ε → Error} {a : α} {e : Error}

theorem mapError_ok : x.mapError f = .ok a ↔ x = .ok a := by
  cases x <;> simp [Except.mapError]

theorem mapError_error : x.mapError f = .error e ↔ ∃ d, x = .error d ∧ f d = e := by
  cases x <;> simp [Except.mapError]

theorem ofParse_lexical {d : ParseError} : Error.ofParse d = .lexical u ↔ d = .unrecognized u := by
  cases d <;> simp [Error.ofParse]

end Errors

/-- A program is read just if there is no unknown character and the tokens
are read as this program. An unknown character that a parser reports is the
first one, and where there is one, it is reported or something before it is. -/
theorem front_ends_agree (source : String) :
    (∀ p, (Program.parse source).mapError Error.ofParse = .ok p ↔
      ∃ ts, (scanAll source).mapError Error.lexical = .ok ts ∧
        (Program.ofTokens source.toList ts).mapError Error.ofParse = .ok p) ∧
    (∀ u, (Program.parse source).mapError Error.ofParse = .error (.lexical u) →
      (scanAll source).mapError Error.lexical = .error (.lexical u)) ∧
    (∀ u, (scanAll source).mapError Error.lexical = .error (.lexical u) →
      (Program.parse source).mapError Error.ofParse = .error (.lexical u) ∨
      ∃ e found l, (Program.parse source).mapError Error.ofParse = .error (.grammar e found l) ∧
        l.Before u.location) := by
  refine ⟨fun p => ?_, fun u lexical => ?_, fun u unknown => ?_⟩
  · simp only [mapError_ok]
    exact parse_ok_iff source p
  · obtain ⟨d, failed, same⟩ := mapError_error.mp lexical
    rw [ofParse_lexical.mp same] at failed
    exact mapError_error.mpr ⟨u, scanAll_of_parse failed, rfl⟩
  · obtain ⟨d, failed, same⟩ := mapError_error.mp unknown
    rw [Error.lexical.inj same] at failed
    rcases parse_of_scanAll failed with reported | ⟨e, found, l, reported, before⟩
    · exact .inl (mapError_error.mpr ⟨_, reported, rfl⟩)
    · exact .inr ⟨e, found, l, mapError_error.mpr ⟨_, reported, rfl⟩, before⟩

end FlatStack
