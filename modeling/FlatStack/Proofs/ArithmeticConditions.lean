import FlatStack.Proofs.ParserCompleteness

/-!
# Expressions read as conditions

A parenthesis opens a condition where a condition is read, and an expression
where an expression is read. What an expression is read from reads as the same
tree in both ways, as long as nothing behind it could only continue a condition.
-/

set_option autoImplicit false

namespace FlatStack

namespace Grammar

open FlatStack.Parser (multiplicative? additive?)

variable {e : Expr} {ts rest : List Token}

/-- An expression that begins with a parenthesis is arithmetic on what stands in it. -/
theorem expression_group (h : Expression e ts rest) (paren : Parser.headKind ts = .leftParen) :
    ∃ inner product us vs ws xs, Spells [.leftParen] ts us ∧ Expression inner us vs ∧
      Spells [.rightParen] vs ws ∧ Chain multiplicative? Factor inner product ws xs ∧
        Chain additive? Term product e xs rest := by
  cases h with
  | input spelled => simp [Parser.Spells.headKind spelled] at paren
  | sum first terms =>
    cases first with
    | signed sign _ _ => simp [Parser.Spells.headKind sign] at paren
    | plain factor factors =>
      cases factor with
      | «variable» found | number found | call found _ =>
        simp [Parser.Spells.headKind found] at paren
      | group first inner last => exact ⟨_, _, _, _, _, _, first, inner, last, factors, terms⟩

theorem condition_of_negation (h : Negation e ts rest) : Condition e ts rest :=
  .mk (.mk h .last) .last

/-- What stands in a parenthesis is shorter, so the induction is on the number of tokens. -/
theorem negation_of_expression {e : Expr} {ts rest : List Token} (h : Expression e ts rest) :
    Negation e ts rest := by
  by_cases paren : Parser.headKind ts = .leftParen
  · obtain ⟨inner, product, us, vs, ws, xs, first, inside, last, factors, terms⟩ :=
      expression_group h paren
    have less := Parser.Spells.shorter first
    have condition := condition_of_negation (negation_of_expression inside)
    exact .group first condition last factors terms .none
  · exact .plain paren h .none
termination_by ts.length

end Grammar

namespace Parser

open Grammar Stateful

variable {e left : Expr} {ts us rest : List Token} {k : Token.Kind} {F : Token.Kind → Prop}
  {operator? : Token.Kind → Option BinaryOp} {operand : Parser Expr}

/-! ## Where expressions end -/

theorem chain_none (h : operator? (headKind ts) = none) :
    chain operator? operand left ts = .ok left ts := by
  cases ts with
  | nil => rfl
  | cons t ts =>
    refine ok_bind (current_of rfl) ?_
    simp only [h]
    rfl

/-- A chain ends in front of no operator, and behind an operand if there is one. -/
theorem chain_ends (short : Shortens operand) (hend : operator? .endOfSource = none)
    (behind : ∀ ts a us, operand ts = .ok a us → F (headKind us)) (here : F (headKind ts))
    (h : chain operator? operand left ts = .ok e rest) :
    operator? (headKind rest) = none ∧ F (headKind rest) := by
  have upTo : ∀ n left ts, ts.length ≤ n → F (headKind ts) →
      chainUpTo operator? operand n left ts = .ok e rest →
        operator? (headKind rest) = none ∧ F (headKind rest) := by
    intro n
    induction n with
    | zero =>
      intro left ts enough here h
      obtain rfl := List.length_eq_zero_iff.mp (Nat.le_zero.mp enough)
      obtain ⟨-, rfl⟩ := pure_ok.mp h
      exact ⟨hend, here⟩
    | succ n ih =>
      intro left ts enough here h
      rw [chainUpTo, bind_ok] at h
      obtain ⟨k, us, hk, h⟩ := h
      obtain ⟨rfl, rfl⟩ := current_ok.mp hk
      cases found : operator? (headKind ts) with
      | none =>
        simp only [found] at h
        obtain ⟨-, rfl⟩ := pure_ok.mp h
        exact ⟨found, here⟩
      | some op =>
        simp only [found] at h
        obtain ⟨_, us, passed, after⟩ := bind_ok.mp h
        obtain ⟨right, vs, taken, others⟩ := bind_ok.mp after
        obtain rfl := advance_ok.mp passed
        have less := short _ _ _ taken
        rw [List.length_tail] at less
        exact ih _ vs (by omega) (behind _ _ _ taken) others
  exact upTo ts.length left ts le_rfl here h

section Expressions

variable {x : Parser Expr}

theorem termWith_ends (sound : Sound x Expression) (h : termWith x ts = .ok e rest) :
    EndsTerm (headKind rest) := by
  obtain ⟨first, us, -, factors⟩ := bind_ok.mp h
  exact (chain_ends (F := fun _ => True) (factorWith_sound sound).shortens rfl
    (fun _ _ _ _ => trivial) trivial factors).1

/-- A number from the console may stand in front of anything. -/
theorem expressionWith_ends (sound : Sound x Expression)
    (computed : headKind ts ≠ .keyword .floatval) (h : expressionWith x ts = .ok e rest) :
    EndsExpression (headKind rest) := by
  rw [expressionWith, bind_ok] at h
  obtain ⟨k, us, hk, h⟩ := h
  obtain ⟨rfl, rfl⟩ := current_ok.mp hk
  rw [if_neg computed] at h
  obtain ⟨first, us, hf, terms⟩ := bind_ok.mp h
  exact (chain_ends (termWith_sound sound).shortens rfl (fun _ _ _ => termWith_ends sound)
    (termWith_ends sound hf) terms).symm

end Expressions

theorem expression_ends (computed : headKind ts ≠ .keyword .floatval)
    (h : expression ts = .ok e rest) : EndsExpression (headKind rest) :=
  expressionWith_ends (unfold_sound expressionWith_sound ts.length) computed h

/-! ## Conditions -/

/-- What stands behind an expression and does not continue a condition. -/
structure OnlyArithmetic (k : Token.Kind) : Prop where
  relation : k.isRelation = false
  conjunction : k ≠ .andAnd
  disjunction : k ≠ .orOr

namespace OnlyArithmetic

theorem relational (h : OnlyArithmetic k) : relational? k = none := by
  have plain := h.relation
  cases k <;> first | rfl | cases plain

theorem ends (h : OnlyArithmetic k) (expression : EndsExpression k) : EndsCondition k :=
  ⟨⟨⟨expression, h.relational⟩, if_neg h.conjunction⟩, if_neg h.disjunction⟩

end OnlyArithmetic

/-- A condition without operators of its own. -/
theorem condition_of_single (h : negation ts = .ok e rest)
    (conjunction : headKind rest ≠ .andAnd) (disjunction : headKind rest ≠ .orOr) :
    condition ts = .ok e rest :=
  ok_bind (ok_bind h (chain_none (if_neg conjunction))) (chain_none (if_neg disjunction))

theorem condition_of_expression (h : expression ts = .ok e rest)
    (only : OnlyArithmetic (headKind rest)) : condition ts = .ok e rest := by
  by_cases read : headKind ts = .keyword .floatval
  · -- An operator behind it is left alone in both ways.
    have compared : relation e rest = .ok e rest := by
      refine ok_bind (current_of rfl) ?_
      simp only [only.relational]
      rfl
    have taken : negation ts = .ok e rest :=
      ok_bind (current_of read) (ok_bind h compared)
    exact condition_of_single taken only.conjunction only.disjunction
  · have derived := condition_of_negation (negation_of_expression (expression_sound _ _ _ h).1)
    exact condition_complete derived (only.ends (expression_ends read h))

/-- Behind a parenthesis with an expression in it, a condition goes on with the tree that a factor
has there. -/
theorem negation_of_factor (paren : headKind ts = .leftParen) (h : factor ts = .ok e rest) :
    negation ts = (do
      let product ← chain multiplicative? factor e
      let sum ← chain additive? term product
      relation sum) rest := by
  cases (factor_sound _ _ _ h).1 with
  | «variable» found | number found | call found _ => simp [Spells.headKind found] at paren
  | group first inner last =>
    have less := Spells.shorter first
    have inside := disjunctionWith_complete (unfold_sound negationWith_sound ts.length)
      (unfold_complete negationWith_sound negationWith_complete ts.length) _ _ _ less
      (condition_of_negation (negation_of_expression inner))
      (by rw [Spells.headKind last]; exact endsCondition_rightParen)
    change negationWith (Parser.unfold negationWith ts.length) ts = _
    rw [negationWith, bind_apply, current_of (Spells.headKind first)]
    dsimp only
    rw [bind_apply, Spells.advance first]
    dsimp only
    rw [bind_apply, inside]
    dsimp only
    rw [bind_apply, expect_complete last]

end Parser

open FlatStack.Parser (headKind chain multiplicative? additive? expression factor term relation
  negation condition condition_of_expression negation_of_factor)

/-- Where an expression is read, and nothing behind it continues a condition, a condition is read
as the same tree up to the same token. A parenthesis that holds an expression gives the same tree
on the way of conditions as on the way of factors. -/
theorem condition_extends_expression (ts : List Token) :
    (∀ e rest, expression ts = .ok e rest → (headKind rest).isRelation = false →
      headKind rest ≠ .andAnd → headKind rest ≠ .orOr → condition ts = .ok e rest) ∧
    (∀ e rest, headKind ts = .leftParen → factor ts = .ok e rest →
      negation ts = (do
        let product ← chain multiplicative? factor e
        let sum ← chain additive? term product
        relation sum) rest) :=
  ⟨fun _ _ taken relation conjunction disjunction =>
    condition_of_expression taken ⟨relation, conjunction, disjunction⟩,
    fun _ _ => negation_of_factor⟩

/-- The tokens of `(($a + 1) * 2);`, wherever they stand. -/
def nestedGroups : List Token :=
  [.leftParen, .leftParen, .variable "$a", .plus, .number 1, .rightParen, .star, .number 2,
    .rightParen, .semicolon].map fun k => ⟨k, ⟨0, 0⟩⟩

/-- What stands in both groups. -/
def doubled : Expr := .binary .mul (.binary .add (.var "$a") (.number 1)) (.number 2)

theorem condition_extends_expression_nestedGroups :
    expression nestedGroups = .ok doubled (nestedGroups.drop 9) ∧
      headKind nestedGroups = .leftParen ∧
        factor nestedGroups = .ok doubled (nestedGroups.drop 9) ∧
    condition nestedGroups = .ok doubled (nestedGroups.drop 9) ∧
    negation nestedGroups = (do
      let product ← chain multiplicative? factor doubled
      let sum ← chain additive? term product
      relation sum) (nestedGroups.drop 9) :=
  have taken : expression nestedGroups = .ok doubled (nestedGroups.drop 9) := rfl
  have grouped : factor nestedGroups = .ok doubled (nestedGroups.drop 9) := rfl
  ⟨taken, rfl, grouped,
    (condition_extends_expression nestedGroups).1 _ _ taken rfl (by decide) (by decide),
    (condition_extends_expression nestedGroups).2 _ _ rfl grouped⟩

end FlatStack
