import FlatStack.Proofs.Brackets
import FlatStack.Proofs.ParserExactness

/-!
# Brackets of programs

Each part of a program closes the brackets that it opens, and closes no other.
So the brackets of all of its tokens are matched, and an entry that can be
read as a program is never held back for a bracket.
-/

set_option autoImplicit false

namespace FlatStack

open Token (matchedFrom)

namespace Grammar

open FlatStack.Parser (kinds multiplicative? additive?)

variable {before after behind : List Bracket} {ts us vs rest : List Token} {t : Token}
  {ks : List Token.Kind} {k : Token.Kind}

/-! ## Extents -/

/-- Between `ts` and `us` the brackets `before` are closed and the brackets `after` are opened. -/
def Shifts (before after : List Bracket) (ts us : List Token) : Prop :=
  ∀ outer, matchedFrom (before ++ outer) (kinds ts) = matchedFrom (after ++ outer) (kinds us)

/-- Between `ts` and `us` the brackets that are opened are closed again. -/
abbrev Level (ts us : List Token) : Prop := Shifts [] [] ts us

theorem Shifts.refl (before : List Bracket) (ts : List Token) : Shifts before before ts ts :=
  fun _ => rfl

theorem Shifts.trans (h : Shifts before after ts us) (h' : Shifts after behind us vs) :
    Shifts before behind ts vs :=
  fun outer => (h outer).trans (h' outer)

/-- Brackets that were open before stay open. -/
theorem Level.inside (h : Level ts us) (opened : List Bracket) : Shifts opened opened ts us :=
  fun outer => h (opened ++ outer)

theorem Level.enclosed {b : Bracket} (first : Shifts [] [b] ts us) (inner : Level us vs)
    (last : Shifts [b] after vs rest) : Shifts [] after ts rest :=
  (first.trans (inner.inside [b])).trans last

theorem Spells.kinds (h : Spells ks ts rest) : kinds ts = ks ++ kinds rest := by
  induction ks generalizing ts with
  | nil =>
    cases h
    rfl
  | cons k ks ih =>
    obtain ⟨t, us, rfl, rfl, h⟩ := h
    exact congrArg (t.kind :: ·) (ih h)

theorem Spells.shifts (h : Spells ks ts rest) (all : ∀ outer more,
    matchedFrom (before ++ outer) (ks ++ more) = matchedFrom (after ++ outer) more) :
    Shifts before after ts rest := by
  intro outer
  rw [h.kinds, all]

/-- No bracket. -/
structure Plain (k : Token.Kind) : Prop where
  opens : k.opens? = none
  closes : k.closes? = none

theorem Plain.level (h : Plain t.kind) (ts : List Token) : Level (t :: ts) ts :=
  fun _ => Token.matchedFrom_other h.opens h.closes

theorem plain_of_multiplicative {op : BinaryOp} (h : multiplicative? k = some op) : Plain k := by
  unfold multiplicative? at h
  split at h
  all_goals first | exact ⟨rfl, rfl⟩ | cases h

theorem plain_of_additive {op : BinaryOp} (h : additive? k = some op) : Plain k := by
  unfold additive? at h
  split at h
  all_goals first | exact ⟨rfl, rfl⟩ | cases h

theorem plain_of_and {op : BinaryOp} (h : andOperator? k = some op) : Plain k := by
  unfold andOperator? at h
  split at h
  · rename_i same
    exact same ▸ ⟨rfl, rfl⟩
  · cases h

theorem plain_of_or {op : BinaryOp} (h : orOperator? k = some op) : Plain k := by
  unfold orOperator? at h
  split at h
  · rename_i same
    exact same ▸ ⟨rfl, rfl⟩
  · cases h

/-! ## Parts of programs -/

-- The chains and the lists of arguments are nested in the parts that they consist of, so one
-- induction follows them all.
mutual

theorem factor_level {e : Expr} {ts rest : List Token} : Factor e ts rest → Level ts rest
  | .variable h => h.shifts fun _ _ => rfl
  | .number h => h.shifts fun _ _ => rfl
  | .call name h => (name.shifts fun _ _ => rfl).trans (arguments_level h)
  | .group first h last =>
    (expression_level h).enclosed (first.shifts fun _ _ => rfl) (last.shifts fun _ _ => rfl)

theorem arguments_level {es : List Expr} {ts rest : List Token} :
    Arguments es ts rest → Level ts rest
  | .none h => h.shifts fun _ _ => rfl
  | .some first h last =>
    (items_level h).enclosed (first.shifts fun _ _ => rfl) (last.shifts fun _ _ => rfl)

theorem items_level {es : List Expr} {ts rest : List Token} :
    Separated Expression es ts rest → Level ts rest
  | .one h => expression_level h
  | .more h comma others =>
    (expression_level h).trans ((comma.shifts fun _ _ => rfl).trans (items_level others))

theorem term_level {e : Expr} {ts rest : List Token} : Term e ts rest → Level ts rest
  | .plain h others => (factor_level h).trans (factors_level others)
  | .signed sign h others =>
    (sign.shifts fun _ _ => rfl).trans ((factor_level h).trans (factors_level others))

theorem factors_level {left whole : Expr} {ts rest : List Token} :
    Chain multiplicative? Factor left whole ts rest → Level ts rest
  | .last => .refl _ _
  | .more operator h others => ((plain_of_multiplicative operator).level _).trans
    ((factor_level h).trans (factors_level others))

theorem expression_level {e : Expr} {ts rest : List Token} : Expression e ts rest → Level ts rest
  | .input h => h.shifts fun _ _ => rfl
  | .sum h others => (term_level h).trans (terms_level others)

theorem terms_level {left whole : Expr} {ts rest : List Token} :
    Chain additive? Term left whole ts rest → Level ts rest
  | .last => .refl _ _
  | .more operator h others => ((plain_of_additive operator).level _).trans
    ((term_level h).trans (terms_level others))

end

theorem comparison_level {left e : Expr} (h : Comparison left e ts rest) : Level ts rest := by
  cases h with
  | none => exact .refl _ _
  | some relation h => exact (relation.shifts fun _ _ => rfl).trans (expression_level h)

mutual

theorem negation_level {e : Expr} {ts rest : List Token} : Negation e ts rest → Level ts rest
  | .not bang h => (bang.shifts fun _ _ => rfl).trans (negation_level h)
  | .group first h last products sums comparison =>
    ((condition_level h).enclosed (first.shifts fun _ _ => rfl) (last.shifts fun _ _ => rfl)).trans
      ((factors_level products).trans ((terms_level sums).trans (comparison_level comparison)))
  | .plain _ h comparison => (expression_level h).trans (comparison_level comparison)

theorem conjunction_level {e : Expr} {ts rest : List Token} :
    Conjunction e ts rest → Level ts rest
  | .mk h others => (negation_level h).trans (negations_level others)

theorem negations_level {left whole : Expr} {ts rest : List Token} :
    Chain andOperator? Negation left whole ts rest → Level ts rest
  | .last => .refl _ _
  | .more operator h others => ((plain_of_and operator).level _).trans
    ((negation_level h).trans (negations_level others))

theorem condition_level {e : Expr} {ts rest : List Token} : Condition e ts rest → Level ts rest
  | .mk h others => (conjunction_level h).trans (conjunctions_level others)

theorem conjunctions_level {left whole : Expr} {ts rest : List Token} :
    Chain orOperator? Conjunction left whole ts rest → Level ts rest
  | .last => .refl _ _
  | .more operator h others => ((plain_of_or operator).level _).trans
    ((conjunction_level h).trans (conjunctions_level others))

end

mutual

theorem sentence_level {s : Statement} {ts rest : List Token} : Sentence s ts rest → Level ts rest
  | .echo first h last =>
    (first.shifts fun _ _ => rfl).trans ((expression_level h).trans (last.shifts fun _ _ => rfl))
  | .ifThen first h last body =>
    ((condition_level h).enclosed (first.shifts fun _ _ => rfl) (last.shifts fun _ _ => rfl)).trans
      (block_level body)
  | .ifElse first h last body between otherwise =>
    ((condition_level h).enclosed (first.shifts fun _ _ => rfl) (last.shifts fun _ _ => rfl)).trans
      ((block_level body).trans ((between.shifts fun _ _ => rfl).trans (block_level otherwise)))
  | .loop first h last body =>
    ((condition_level h).enclosed (first.shifts fun _ _ => rfl) (last.shifts fun _ _ => rfl)).trans
      (block_level body)
  | .assign first h last =>
    (first.shifts fun _ _ => rfl).trans ((expression_level h).trans (last.shifts fun _ _ => rfl))
  | .call name h last =>
    (name.shifts fun _ _ => rfl).trans ((arguments_level h).trans (last.shifts fun _ _ => rfl))
  | .sigilCall name h last =>
    (name.shifts fun _ _ => rfl).trans ((arguments_level h).trans (last.shifts fun _ _ => rfl))

theorem block_level {ss : List Statement} {ts rest : List Token} : Block ss ts rest → Level ts rest
  | .mk first h last =>
    (sentences_level h).enclosed (first.shifts fun _ _ => rfl) (last.shifts fun _ _ => rfl)

theorem sentences_level {ss : List Statement} {ts rest : List Token} :
    Repeated Sentence ss ts rest → Level ts rest
  | .none => .refl _ _
  | .more h others => (sentence_level h).trans (sentences_level others)

end

/-! ## Bodies -/

theorem initializer_level {e : Option Expr} (h : Initializer e ts rest) : Level ts rest := by
  cases h with
  | none => exact .refl _ _
  | some equals h => exact (equals.shifts fun _ _ => rfl).trans (expression_level h)

theorem parameters_level {ps : List String} (h : Parameters ps ts rest) : Level ts rest := by
  cases h with
  | none => exact .refl _ _
  | some h =>
    induction h with
    | one name => exact name.shifts fun _ _ => rfl
    | more name comma _ ih =>
      exact (name.shifts fun _ _ => rfl).trans ((comma.shifts fun _ _ => rfl).trans ih)

section Bodies

variable {F : Reading Declaration} (function_level : ∀ {d ts rest}, F d ts rest → Level ts rest)

include function_level

theorem declares_level {declared : List String} {d : Declaration}
    (h : Declares F declared d ts rest) : Level ts rest := by
  cases h with
  | «variable» _ name _ initializer last =>
    exact (name.shifts fun _ _ => rfl).trans
      ((initializer_level initializer).trans (last.shifts fun _ _ => rfl))
  | function h => exact function_level h

theorem declarations_level {declared : List String} {ds : List Declaration}
    (h : Declarations F declared ds ts rest) : Level ts rest := by
  induction h with
  | none => exact .refl _ _
  | more first _ ih => exact (declares_level function_level first).trans ih

theorem body_level {b : Body} (h : IsBody F b ts rest) : Level ts rest := by
  cases h with
  | mk declarations statements =>
    exact (declarations_level function_level declarations).trans (sentences_level statements)

end Bodies

theorem function_level {d : Declaration} (h : Function d ts rest) : Level ts rest := by
  cases h with
  | mk first parameters between body last =>
    have inner := body_level (fun h => h.elim) body
    have head : Shifts [] [.brace] ts _ := (parameters_level parameters).enclosed
      (first.shifts fun _ _ => rfl) (between.shifts fun _ _ => rfl)
    exact inner.enclosed head (last.shifts fun _ _ => rfl)

/-- The brackets of a program are matched. -/
theorem Derives.matched {p : Program} (h : Derives ts p) : matchedFrom [] (kinds ts) = true := by
  obtain ⟨us, vs, opening, body, closing⟩ := h
  have whole : Level ts [] := (opening.shifts fun _ _ => rfl).trans
    ((body_level function_level body).trans (closing.shifts fun _ _ => rfl))
  exact whole []

end Grammar

open Session

/-- The brackets of an entry are matched exactly if those among its tokens are, and they are if the
entry is a program, with or without its tags. -/
theorem balanced_iff_matched (entry : String) :
    balanced entry.toList = matchedFrom [] (Parser.kinds (Token.scan entry)) ∧
      ∀ p, Program.parse (wrapped entry.toList) = .ok p → balanced entry.toList = true := by
  refine ⟨balanced_scan entry, fun p h => ?_⟩
  obtain ⟨_, ran⟩ := Program.ofTokens_ok.mp h
  have derived := Parser.program_sound (Token.ended_scan _) ran
  rw [← balanced_wrapped, balanced_scan, derived.matched]

/-- A slash that divides, one that ends no comment, and brackets that are not there. -/
def slashes : String := "echo (6 / 2) . PHP_EOL; /*/ ( */ // \x7d"

theorem balanced_iff_matched_slashes : ∃ p, Program.parse (wrapped slashes.toList) = .ok p ∧
    balanced slashes.toList = true ∧
      matchedFrom [] (Parser.kinds (Token.scan slashes)) = true := by
  have found : (Program.parse (wrapped slashes.toList)).toOption.isSome = true := by
    decide +kernel
  cases parsed : Program.parse (wrapped slashes.toList) with
  | error e =>
    rw [parsed] at found
    cases found
  | ok p =>
    obtain ⟨same, complete⟩ := balanced_iff_matched slashes
    exact ⟨p, rfl, complete p parsed, same ▸ complete p parsed⟩

end FlatStack
