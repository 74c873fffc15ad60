import FlatStack.Proofs.ParserCompleteness
import FlatStack.Proofs.ParserProgress
import FlatStack.Proofs.TokenStreams

/-!
# The parser accepts exactly the grammar

The declarations of a body go on for as long as one more can be derived, and
so does the parser: a variable that it takes for a declaration and that is none
cannot begin a statement either. With this, a source text is read as a program
if and only if its tokens derive the program, and they derive no other.
-/

set_option autoImplicit false

namespace FlatStack

namespace Parser

open Grammar Stateful

variable {ts us rest : List Token} {k : Token.Kind}

/-! ## Declarations -/

theorem variableDeclaration_complete {y : String} {e : Option Expr} {vs : List Token}
    (first : Spells [.variable y] ts us) (initialized : Initializer e us vs)
    (last : Spells [.semicolon] vs rest) :
    variableDeclaration ts = .ok (.variable y e) rest := by
  have ends := Spells.headKind last
  refine ok_bind (variableName_complete first) (ok_bind (current_of rfl) ?_)
  cases initialized with
  | none =>
    rw [if_neg (by simp [ends])]
    exact ok_bind pure_of (ok_bind (expect_complete last) pure_of)
  | some second value =>
    have found := expression_complete value (by rw [ends]; exact ⟨rfl, rfl⟩)
    rw [if_pos (Spells.headKind second)]
    exact ok_bind (Spells.advance second) (ok_bind (map_ok.mpr ⟨_, found, rfl⟩)
      (ok_bind (expect_complete last) pure_of))

/-- The kinds that close a body. -/
def Closes (k : Token.Kind) : Prop := k = .closeTag ∨ k = .rightBrace

theorem Closes.not_starts (h : Closes k) : startsStatement k = false := by
  rcases h with rfl | rfl <;> rfl

theorem Closes.endsStatement (h : Closes k) : EndsStatement k := by
  rcases h with rfl | rfl <;> simp [EndsStatement]

/-- What stands behind the declarations of a body starts a statement or closes the body. -/
theorem statements_head {ss : List Statement} (h : Repeated Sentence ss ts rest)
    (closes : Closes (headKind rest)) :
    startsStatement (headKind ts) = true ∨ Closes (headKind ts) := by
  cases h with
  | none => exact .inr closes
  | more first _ => exact .inl (sentence_head first)

/-- A statement that begins with a new variable is a call, or else a declaration. -/
theorem sentence_variable {F : Reading Declaration} {s : Statement} {y : String}
    {declared : List String} (h : Sentence s ts rest) (hk : headKind ts = .variable y)
    (fresh : y ∉ declared) :
    headKind ts.tail = .leftParen ∨ ∃ d, Declares F declared d ts rest := by
  cases h with
  | assign first value last =>
    obtain ⟨us, name, equals⟩ := Spells.split first
    obtain rfl : _ = y := by simpa using (Spells.headKind name).symm.trans hk
    exact .inr ⟨_, .variable fresh name (by simp [Spells.headKind equals])
      (.some equals value) last⟩
  | sigilCall first passed last =>
    obtain ⟨t, us, rfl, _, rfl⟩ := first
    exact .inl (arguments_head passed)
  | echo first _ _ | call first _ _ | ifThen first _ _ _ | loop first _ _ _
  | ifElse first _ _ _ _ _ => simp [Spells.headKind first] at hk

section Bodies

variable {function? : Option (Parser Declaration)} {F : Reading Declaration}

/-- The functions that can be derived are taken. -/
def TakesFunctions (function? : Option (Parser Declaration)) (F : Reading Declaration) : Prop :=
  ∀ d ts rest, F d ts rest → ∃ f, function? = some f ∧ f ts = .ok d rest

/-- No declaration is left out, and none is looked for in vain. -/
theorem declarationsUpTo_complete (hf : ReadsFunctions function? F)
    (takes : TakesFunctions function? F) {declared : List String} {ds : List Declaration}
    {ss : List Statement} (hd : Declarations F declared ds ts us)
    (hs : Repeated Sentence ss us rest) (closes : Closes (headKind rest)) {n : Nat}
    (enough : ts.length ≤ n) : declarationsUpTo function? n declared ts = .ok ds us := by
  induction hd generalizing n with
  | @none declared ts maximal =>
    cases n with
    | zero => rfl
    | succ n =>
      have head := statements_head hs closes
      obtain ⟨k, hk⟩ : ∃ k, headKind ts = k := ⟨_, rfl⟩
      rw [hk] at head
      refine ok_bind (current_of hk) ?_
      split
      · simp [startsStatement, Closes] at head
      · rename_i y
        refine ok_bind rfl ?_
        rw [if_pos]
        · exact pure_of
        · by_contra goes
          obtain ⟨fresh, plain⟩ := not_or.mp goes
          cases hs with
          | none => simp [Closes, hk] at closes
          | more first _ =>
            rcases sentence_variable (F := F) first hk fresh with paren | ⟨d, hd⟩
            · exact plain paren
            · exact maximal d _ hd
      · exact pure_of
  | more hd _ ih =>
    cases hd with
    | «variable» fresh first plain initialized last =>
      have found := variableDeclaration_complete first initialized last
      have less := (variableDeclaration_sound found).2
      obtain ⟨n, rfl⟩ := Nat.exists_eq_add_one_of_ne_zero (show n ≠ 0 by omega)
      refine ok_bind (current_of (Spells.headKind first)) (ok_bind rfl ?_)
      rw [if_neg]
      · exact ok_bind found (ok_bind (ih hs (by omega)) pure_of)
      · obtain ⟨t, us, rfl, _, rfl⟩ := first
        exact not_or.mpr ⟨fresh, plain⟩
    | function hF =>
      obtain ⟨f, rfl, found⟩ := takes _ _ _ hF
      have head := hf.head _ _ _ hF
      have less := (hf.sound f rfl _ _ _ head found).2
      obtain ⟨n, rfl⟩ := Nat.exists_eq_add_one_of_ne_zero (show n ≠ 0 by omega)
      rw [hf.same _ _ _ hF] at ih
      exact ok_bind (current_of head) (ok_bind found (ok_bind (ih hs (by omega)) pure_of))

theorem bodyWith_complete (hf : ReadsFunctions function? F) (takes : TakesFunctions function? F)
    {b : Body} (h : IsBody F b ts rest) (closes : Closes (headKind rest)) :
    bodyWith function? ts = .ok b rest := by
  obtain ⟨hd, hs⟩ := h
  exact ok_bind (declarationsUpTo_complete hf takes hd hs closes le_rfl)
    (ok_bind (statements_complete hs closes.not_starts closes.endsStatement) pure_of)

end Bodies

/-! ## Functions -/

theorem parameters_complete {ps : List String} (h : Parameters ps ts us)
    (stop : headKind us = .rightParen) : parameters ts = .ok ps us := by
  cases h with
  | none =>
    refine ok_bind (current_of stop) ?_
    exact pure_of
  | some separated =>
    obtain ⟨p, qs, vs, rfl, first, _⟩ := Separated.split separated
    have names : Complete (ts.length + 1) variableName (fun y => Spells [.variable y])
        fun _ => True :=
      fun _ _ _ _ spelled _ => variableName_complete spelled
    refine ok_bind (current_of (Spells.headKind first)) ?_
    exact commaSeparated_complete variableName_sound.shortens names trivial separated
      (by simp [stop]) trivial (Nat.lt_succ_self _)

theorem takesFunctions_none : TakesFunctions none noFunction := fun _ _ _ h => h.elim

theorem functionDeclaration_complete {d : Declaration} (h : Function d ts rest) :
    functionDeclaration ts = .ok d rest := by
  obtain ⟨spelled, passed, middle, body, last⟩ := h
  obtain ⟨vs, first, others⟩ := Spells.split spelled
  obtain ⟨ws, name, paren⟩ := Spells.split others
  have inner := bodyWith_complete readsFunctions_none takesFunctions_none body
    (.inr (Spells.headKind last))
  exact ok_bind (Spells.advance first) (ok_bind (identifier_complete name)
    (ok_bind (expect_complete paren) (ok_bind (parameters_complete passed (Spells.headKind middle))
      (ok_bind (expectAll_complete middle) (ok_bind inner
        (ok_bind (expect_complete last) pure_of))))))

theorem takesFunctions_some : TakesFunctions (some functionDeclaration) Function :=
  fun _ _ _ h => ⟨_, rfl, functionDeclaration_complete h⟩

/-! ## Programs -/

/-- Behind the last tag there is nothing left but the end of the source. -/
theorem closed_by_end (ended : Token.Ended ts) (h : Spells [.closeTag] ts rest)
    (hk : headKind rest = .endOfSource) : Spells [.closeTag, .endOfSource] ts [] := by
  obtain ⟨t, us, rfl, ht, rfl⟩ := h
  obtain ⟨last, rfl, hlast⟩ := (ended.tail (by simp [ht])).single hk
  exact ⟨t, _, rfl, ht, last, [], rfl, hlast, rfl⟩

/-- What a program is read from, whatever the tokens end with. -/
theorem program_taken {p : Program} (h : program ts = .ok p rest) : ∃ us vs,
    Spells [.openTag] ts us ∧ IsBody Function p us vs ∧ Spells [.closeTag] vs rest ∧
      headKind rest = .endOfSource ∧ vs <:+ ts := by
  rw [program, bind_ok] at h
  obtain ⟨_, us, hopen, h⟩ := h
  obtain ⟨b, vs, hb, h⟩ := bind_ok.mp h
  obtain ⟨_, ws, hclose, h⟩ := bind_ok.mp h
  obtain ⟨k, xs, hc, h⟩ := bind_ok.mp h
  obtain ⟨hk, rfl⟩ := current_ok.mp hc
  split at h
  · rename_i atEnd
    obtain ⟨rfl, rfl⟩ := pure_ok.mp h
    obtain ⟨first, _⟩ := expect_sound (by simp) _ _ _ hopen
    obtain ⟨body, _⟩ := bodyWith_sound readsFunctions_some hb
    obtain ⟨last, _⟩ := expect_sound (by simp) _ _ _ hclose
    have behind : vs <:+ ts :=
      (steps_programBody.suffix_ok hb).trans ((steps_expect rfl).suffix_ok hopen)
    exact ⟨us, vs, first, body, last, hk.trans atEnd, behind⟩
  · exact absurd h throw_ok

theorem program_sound {p : Program} (ended : Token.Ended ts) (h : program ts = .ok p rest) :
    Derives ts p := by
  obtain ⟨us, vs, first, body, last, atEnd, behind⟩ := program_taken h
  have here : vs ≠ [] := by
    obtain ⟨t, _, rfl, _⟩ := last
    simp
  exact ⟨us, vs, first, body, closed_by_end (ended.suffix behind here) last atEnd⟩

theorem program_complete {p : Program} (h : Derives ts p) : ∃ rest, program ts = .ok p rest := by
  obtain ⟨us, vs, first, body, last⟩ := h
  obtain ⟨ws, close, ended⟩ := Spells.split last
  have inner := bodyWith_complete readsFunctions_some takesFunctions_some body
    (.inl (Spells.headKind last))
  refine ⟨ws, ok_bind (expect_complete first) (ok_bind inner (ok_bind (expect_complete close)
    (ok_bind (current_of (Spells.headKind ended)) ?_)))⟩
  rw [if_pos rfl]
  exact pure_of

end Parser

open Grammar

/-- A source text is read as a program just if all its tokens derive the
program, and there is at most one that they derive. -/
theorem parse_iff_derives (source : String) :
    (∀ p, Program.parse source = .ok p ↔ Derives (Token.scan source) p) ∧
      ∀ p q, Derives (Token.scan source) p → Derives (Token.scan source) q → p = q := by
  have ended := Token.ended_scan source
  refine ⟨fun p => ⟨fun h => ?_, fun h => ?_⟩, fun p q hp hq => ?_⟩
  · unfold Program.parse Program.ofTokens at h
    split at h
    · rename_i found
      obtain rfl : _ = p := by simpa using h
      exact Parser.program_sound ended found
    · simp at h
  · obtain ⟨rest, found⟩ := Parser.program_complete h
    simp only [Program.parse, Program.ofTokens, found]
  · obtain ⟨_, hp⟩ := Parser.program_complete hp
    obtain ⟨_, hq⟩ := Parser.program_complete hq
    have same := hp.symm.trans hq
    simp only [EStateM.Result.ok.injEq] at same
    exact same.1

end FlatStack
