import FlatStack.Proofs.EarliestErrors
import FlatStack.Proofs.FrontEnds

/-!
# Tokens that are cut off

When the last tokens of a source text are missing, an error that was found
before the cut is found again. Otherwise all tokens up to the cut are passed:
they are a whole program, or the end is reported where there should be more.
-/

set_option autoImplicit false

namespace FlatStack

variable {ts rest : List Token} {n : Nat} {e : Expectation}

/-- What is said at the end of the source ends in these words. -/
theorem Expectation.message_at_end (other : e ≠ .endOfSource) :
    ∃ said, e.message .endOfSource = said ++ "found end of file" := by
  cases e with
  | kind k =>
    refine ⟨"expected " ++ k.describe ++ ", ", ?_⟩
    have words : (", found " : String) ++ "end of file" = ", " ++ "found end of file" := by decide
    change "expected " ++ k.describe ++ ", found " ++ "end of file" = _
    rw [String.append_assoc, String.append_assoc, words, String.append_assoc, String.append_assoc]
  | endOfSource => exact absurd rfl other
  | identifier => exact ⟨"expected identifier, ", rfl⟩
  | «variable» => exact ⟨"expected variable, ", rfl⟩
  | statement => exact ⟨"expected statement (echo, if, while or $var), ", rfl⟩
  | assignmentOrCall => exact ⟨"expected '=' or '(' after variable, ", rfl⟩
  | operand => exact ⟨"expected variable, number, function call or '(', ", rfl⟩

/-- Tokens before the last one do not end the source. -/
theorem Token.Ended.take (h : Token.Ended ts) (cut : n < ts.length) :
    ∀ t ∈ ts.take n, t.kind ≠ .endOfSource := by
  obtain ⟨before, last, rfl, -, others⟩ := h
  rw [List.length_append, List.length_singleton] at cut
  rw [List.take_append_of_le_length (by omega)]
  exact fun t ht => others t (List.mem_of_mem_take ht)

/-- What is reported depends on the token that was found, not on those behind it. -/
theorem ParseError.ofExpectation_cons (source : List Char) (t : Token) (after after' : List Token)
    (e : Expectation) :
    ofExpectation source (t :: after) e = ofExpectation source (t :: after') e := rfl

namespace Parser

open Grammar

/-- An error before the cut stays. -/
theorem program_error_take (ended : Token.Ended ts) (h : program ts = .error e rest)
    (early : ts.length - rest.length < n) : ∃ t after after', rest = t :: after ∧
      program (ts.take n) = .error e (t :: after') := by
  obtain ⟨t, after, rfl⟩ := program_error_before_end ended h
  obtain ⟨before, rfl, fails, -⟩ := program_error h
  obtain ⟨more, hmore⟩ : ∃ more, n = before.length + (more + 1) := by
    rw [List.length_append, Nat.add_sub_cancel] at early
    exact ⟨n - before.length - 1, by omega⟩
  refine ⟨t, after, after.take more, rfl, ?_⟩
  rw [hmore, List.take_length_add_append, List.take_succ_cons]
  exact fails _

/-- An error at a token before the cut was there before. -/
theorem program_error_whole {t : Token} {after : List Token}
    (h : program (ts.take n) = .error e (t :: after)) :
    program ts = .error e (t :: (after ++ ts.drop n)) ∧
      ts.length - (t :: (after ++ ts.drop n)).length < n := by
  obtain ⟨before, split, fails, -⟩ := program_error h
  have whole : ts = before ++ t :: (after ++ ts.drop n) := by
    rw [← List.cons_append, ← List.append_assoc, ← split, List.take_append_drop]
  refine ⟨?_, ?_⟩
  · conv => lhs; rw [whole]
    exact fails _
  · have most := List.length_take_le n ts
    have length := congrArg List.length whole
    rw [split, List.length_append, List.length_cons] at most
    rw [List.length_append] at length
    omega

/-- A program that the cut leaves is read up to the cut. -/
theorem program_ok_take (ended : Token.Ended ts) (cut : n < ts.length) {p : Program}
    (h : program (ts.take n) = .ok p rest) : ∃ us vs, Spells [.openTag] (ts.take n) us ∧
      IsBody Function p us vs ∧ Spells [.closeTag] vs [] ∧ vs <:+ ts.take n := by
  obtain ⟨us, vs, first, body, last, atEnd, suffix⟩ := program_taken h
  cases rest with
  | nil => exact ⟨us, vs, first, body, last, suffix⟩
  | cons t after =>
    have passed := steps_program.suffix_ok h
    exact absurd atEnd (ended.take cut t (passed.subset List.mem_cons_self))

end Parser

open Grammar

/-- Without the tokens from position `n` on, an error at an earlier token is reported as before. If
there is none, then either the tokens before the cut are a program, which its closing tag ends, or
the end of the source is reported. -/
theorem cut_tokens_parsed {source : String} (scanned : Token.scanAll source = .ok ts)
    (cut : n < ts.length) :
    (∀ e rest, Parser.program ts = .error e rest → ts.length - rest.length < n →
      ∃ err, Program.ofTokens source.toList ts = .error err ∧
        Program.ofTokens source.toList (ts.take n) = .error err) ∧
    ((∀ e rest, Parser.program ts = .error e rest → n ≤ ts.length - rest.length) →
      (∃ p us vs, Program.ofTokens source.toList (ts.take n) = .ok p ∧
        Spells [.openTag] (ts.take n) us ∧ IsBody Function p us vs ∧ Spells [.closeTag] vs [] ∧
          vs <:+ ts.take n) ∨
      ∃ e said, Program.ofTokens source.toList (ts.take n)
          = .error (.unexpected e .endOfSource (.after source.toList)) ∧
        e.message .endOfSource = said ++ "found end of file") := by
  have ended : Token.Ended ts := (scanAll_ok.mp scanned).1 ▸ Token.ended_scan source
  refine ⟨fun e rest failed early => ?_, fun late => ?_⟩
  · obtain ⟨t, after, after', rfl, fails⟩ := Parser.program_error_take ended failed early
    refine ⟨_, by rw [Program.ofTokens, failed], ?_⟩
    rw [Program.ofTokens, fails, ParseError.ofExpectation_cons source.toList t after after']
  · cases ran : Parser.program (ts.take n) with
    | ok p rest =>
      obtain ⟨us, vs, parts⟩ := Parser.program_ok_take ended cut ran
      exact .inl ⟨p, us, vs, Program.ofTokens_ok.mpr ⟨rest, ran⟩, parts⟩
    | error e rest =>
      cases rest with
      | cons t after =>
        obtain ⟨fails, early⟩ := Parser.program_error_whole ran
        exact absurd (late _ _ fails) (Nat.not_le.mpr early)
      | nil =>
        -- Only a token behind the closing tag is reported as no end, and none is left.
        have other : e ≠ .endOfSource := by
          rintro rfl
          exact Parser.steps_program.missed ran rfl
        obtain ⟨said, message⟩ := e.message_at_end other
        exact .inr ⟨e, said, by rw [Program.ofTokens, ran]; rfl, message⟩

/-- There is no expression to assign. -/
def missingOperand : String := "<?php $a = ; ?>"

def missingOperandTokens : List Token :=
  [⟨.openTag, ⟨0, 5⟩⟩, ⟨.variable "$a", ⟨6, 8⟩⟩, ⟨.assign, ⟨9, 10⟩⟩, ⟨.semicolon, ⟨11, 12⟩⟩,
    ⟨.closeTag, ⟨13, 15⟩⟩, ⟨.endOfSource, ⟨15, 15⟩⟩]

theorem cut_tokens_parsed_missingOperand :
    Token.scanAll missingOperand = .ok missingOperandTokens ∧
    (∃ err, Program.ofTokens missingOperand.toList missingOperandTokens = .error err ∧
      Program.ofTokens missingOperand.toList (missingOperandTokens.take 4) = .error err) ∧
    ∃ e said, Program.ofTokens missingOperand.toList (missingOperandTokens.take 3)
        = .error (.unexpected e .endOfSource (.after missingOperand.toList)) ∧
      e.message .endOfSource = said ++ "found end of file" := by
  have scanned : Token.scanAll missingOperand = .ok missingOperandTokens :=
    scanAll_ok.mpr ⟨by decide +kernel, by decide +kernel⟩
  have failed : Parser.program missingOperandTokens
      = .error .operand (missingOperandTokens.drop 3) := rfl
  refine ⟨scanned, (cut_tokens_parsed scanned (n := 4) (by decide)).1 _ _ failed (by decide), ?_⟩
  have late : ∀ e rest, Parser.program missingOperandTokens = .error e rest →
      3 ≤ missingOperandTokens.length - rest.length := by
    rintro e rest same
    obtain ⟨-, rfl⟩ := EStateM.Result.error.inj (failed.symm.trans same)
    decide
  refine ((cut_tokens_parsed scanned (by decide)).2 late).resolve_left ?_
  rintro ⟨p, us, vs, ok, -⟩
  cases ok

end FlatStack
