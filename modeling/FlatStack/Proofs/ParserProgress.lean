import FlatStack.Program.Grammar
import FlatStack.Proofs.Stateful

/-!
# Parsers step by step

A parser looks at the kinds of the next two tokens and steps over a token only
when it has seen that the grammar uses its kind. All parsers of the grammar
are put together from such steps. So whatever a parser is given, and whether it
succeeds or fails, the tokens that it leaves are the last ones of those it was
given, all before them have proper kinds, and nothing but kinds matters to it.
-/

set_option autoImplicit false

namespace FlatStack

/-- A kind that the grammar uses. -/
def Token.Kind.isProper : Token.Kind → Bool
  | .invalid _ | .endOfSource => false
  | _ => true

namespace Parser

open Stateful

/-- How a parser gets on with the tokens that it is given. -/
inductive Steps : {α : Type} → Parser α → List Token → Prop where
  | pure {α : Type} {a : α} {ts : List Token} : Steps (pure a) ts
  /-- The end of the source is missed only at something else. -/
  | throw {α : Type} {e : Expectation} {ts : List Token} :
      (e = .endOfSource → headKind ts ≠ .endOfSource) → Steps (throw e : Parser α) ts
  | look {α : Type} {f : Token.Kind → Parser α} {ts : List Token} :
      Steps (f (headKind ts)) ts → Steps (current >>= f) ts
  | lookAhead {α : Type} {f : Token.Kind → Parser α} {ts : List Token} :
      Steps (f (headKind ts.tail)) ts → Steps (following >>= f) ts
  | advance {ts : List Token} : (headKind ts).isProper → Steps advance ts
  | bind {α β : Type} {x : Parser α} {f : α → Parser β} {ts : List Token} : Steps x ts →
      (∀ a rest, x ts = .ok a rest → Steps (f a) rest) → Steps (x >>= f) ts
  /-- Depths and numbers of rounds depend on the number of tokens. -/
  | measured {α : Type} {f : Nat → Parser α} {ts : List Token} :
      Steps (f ts.length) ts → Steps (fun us => f us.length us) ts

variable {α β : Type} {x : Parser α} {ts us rest : List Token} {k : Token.Kind}

namespace Steps

theorem map {f : α → β} (h : Steps x ts) : Steps (f <$> x) ts :=
  h.bind fun _ _ _ => .pure

/-- A token whose kind has been seen, and what comes behind it. -/
theorem skip {f : Unit → Parser α} (seen : headKind ts = k) (proper : k.isProper)
    (h : Steps (f ()) ts.tail) : Steps (Parser.advance >>= f) ts := by
  refine .bind (.advance (seen ▸ proper)) fun _ rest stepped => ?_
  obtain rfl : ts.tail = rest := by
    injection stepped
  exact h

end Steps

/-! ## Parsers from parsers -/

theorem steps_nested {step : Parser α → Parser α}
    (h : ∀ x, (∀ ts, Steps x ts) → ∀ ts, Steps (step x) ts) : Steps (nested step) ts := by
  have deep : ∀ depth ts, Steps (Parser.unfold step depth) ts := by
    intro depth
    induction depth with
    | zero => exact fun _ => .throw (by simp)
    | succ depth ih => exact h _ ih
  exact .measured (f := fun n => Parser.unfold step (n + 1)) (deep _ ts)

theorem steps_chain {operator? : Token.Kind → Option BinaryOp} {operand : Parser Expr}
    (proper : ∀ k op, operator? k = some op → k.isProper) (h : ∀ ts, Steps operand ts) {e : Expr} :
    Steps (chain operator? operand e) ts := by
  have upTo : ∀ n e ts, Steps (chainUpTo operator? operand n e) ts := by
    intro n
    induction n with
    | zero => exact fun _ _ => .pure
    | succ n ih =>
      intro e ts
      refine .look ?_
      split
      · exact .pure
      · rename_i op found
        exact .skip rfl (proper _ op found) ((h _).bind fun _ _ _ => ih _ _)
  exact .measured (f := fun n => chainUpTo operator? operand n e) (upTo _ e ts)

theorem steps_many {starts : Token.Kind → Bool}
    (h : ∀ ts, starts (headKind ts) = true → Steps x ts) : Steps (many starts x) ts := by
  have upTo : ∀ n ts, Steps (manyUpTo starts x n) ts := by
    intro n
    induction n with
    | zero => exact fun _ => .pure
    | succ n ih =>
      intro ts
      refine .look ?_
      split
      · rename_i first
        exact (h ts first).bind fun _ _ _ => (ih _).bind fun _ _ _ => .pure
      · exact .pure
  exact .measured (f := fun n => manyUpTo starts x n) (upTo _ ts)

theorem steps_commaSeparated (h : ∀ ts, Steps x ts) : Steps (commaSeparated x) ts := by
  refine (h ts).bind fun _ _ _ => (steps_many fun ts comma => ?_).bind fun _ _ _ => .pure
  have seen : headKind ts = .comma := by simpa using comma
  exact .skip seen rfl (h _)

/-! ## Tokens -/

theorem steps_expect (proper : k.isProper) : Steps (expect k) ts := by
  refine .look ?_
  split
  · rename_i seen
    exact .advance (seen ▸ proper)
  · exact .throw (by simp)

theorem steps_expectAll {ks : List Token.Kind} (proper : ∀ k ∈ ks, k.isProper) :
    Steps (expectAll ks) ts := by
  induction ks generalizing ts with
  | nil => exact .pure
  | cons k ks ih =>
    obtain ⟨first, others⟩ := List.forall_mem_cons.mp proper
    exact (steps_expect first).bind fun _ _ _ => ih others

theorem steps_identifier : Steps identifier ts := by
  refine .look ?_
  split
  · rename_i seen
    exact .skip seen rfl .pure
  · exact .throw (by simp)

theorem steps_variableName : Steps variableName ts := by
  refine .look ?_
  split
  · rename_i seen
    exact .skip seen rfl .pure
  · exact .throw (by simp)

/-! ## Expressions -/

theorem proper_additive {op : BinaryOp} (h : additive? k = some op) : k.isProper := by
  cases k <;> first | rfl | cases h

theorem proper_multiplicative {op : BinaryOp} (h : multiplicative? k = some op) : k.isProper := by
  cases k <;> first | rfl | cases h

theorem proper_relational {op : BinaryOp} (h : relational? k = some op) : k.isProper := by
  cases k <;> first | rfl | cases h

section Expressions

variable {x : Parser Expr}

theorem steps_argumentsWith (h : ∀ ts, Steps x ts) : Steps (argumentsWith x) ts := by
  refine .bind (steps_expect rfl) fun _ _ _ => .look ?_
  split
  · exact Steps.pure.bind fun _ _ _ => .bind (steps_expect rfl) fun _ _ _ => .pure
  · exact (steps_commaSeparated h).bind fun _ _ _ => .bind (steps_expect rfl) fun _ _ _ => .pure

theorem steps_factorWith (h : ∀ ts, Steps x ts) : Steps (factorWith x) ts := by
  refine .look ?_
  split
  · rename_i seen
    exact .skip seen rfl .pure
  · rename_i seen
    exact .skip seen rfl .pure
  · rename_i seen
    exact .skip seen rfl ((steps_argumentsWith h).bind fun _ _ _ => .pure)
  · rename_i seen
    exact .skip seen rfl
      ((h _).bind fun _ _ _ => .bind (steps_expect rfl) fun _ _ _ => .pure)
  · exact .throw (by simp)

theorem steps_termWith (h : ∀ ts, Steps x ts) : Steps (termWith x) ts := by
  refine Steps.bind ?_ fun _ _ _ =>
    steps_chain (fun _ _ => proper_multiplicative) fun _ => steps_factorWith h
  refine .look ?_
  split
  · rename_i seen
    exact .skip seen rfl ((steps_factorWith h).bind fun _ _ _ => .pure)
  · exact steps_factorWith h

theorem steps_expressionWith (h : ∀ ts, Steps x ts) : Steps (expressionWith x) ts := by
  refine .look ?_
  split
  · exact (steps_expectAll (by decide)).bind fun _ _ _ => .pure
  · exact (steps_termWith h).bind fun _ _ _ =>
      steps_chain (fun _ _ => proper_additive) fun _ => steps_termWith h

end Expressions

theorem steps_expression : Steps expression ts :=
  steps_nested fun _ h _ => steps_expressionWith h

/-! ## Conditions -/

theorem steps_relation {e : Expr} : Steps (relation e) ts := by
  refine .look ?_
  split
  · exact .pure
  · rename_i found
    exact .skip rfl (proper_relational found) (steps_expression.bind fun _ _ _ => .pure)

theorem proper_only {k' : Token.Kind} {op op' : BinaryOp} (proper : k'.isProper)
    (found : (if k = k' then some op' else none) = some op) : k.isProper := by
  split at found
  · rename_i same
    exact same ▸ proper
  · cases found

theorem steps_conjunction {x : Parser Expr} (h : ∀ ts, Steps x ts) :
    Steps (disjunctionWith.conjunction x) ts :=
  (h ts).bind fun _ _ _ => steps_chain (fun _ _ => proper_only rfl) h

theorem steps_disjunctionWith {x : Parser Expr} (h : ∀ ts, Steps x ts) :
    Steps (disjunctionWith x) ts :=
  (steps_conjunction h).bind fun _ _ _ =>
    steps_chain (fun _ _ => proper_only rfl) fun _ => steps_conjunction h

theorem steps_negationWith {x : Parser Expr} (h : ∀ ts, Steps x ts) :
    Steps (negationWith x) ts := by
  refine .look ?_
  split
  · rename_i seen
    exact .skip seen rfl ((h _).bind fun _ _ _ => .pure)
  · rename_i seen
    have factors : ∀ ts, Steps factor ts := fun _ => steps_factorWith fun _ => steps_expression
    have terms : ∀ ts, Steps term ts := fun _ => steps_termWith fun _ => steps_expression
    refine .skip seen rfl ((steps_disjunctionWith h).bind fun _ _ _ =>
      .bind (steps_expect rfl) fun _ _ _ => ?_)
    exact (steps_chain (fun _ _ => proper_multiplicative) factors).bind fun _ _ _ =>
      (steps_chain (fun _ _ => proper_additive) terms).bind fun _ _ _ => steps_relation
  · exact steps_expression.bind fun _ _ _ => steps_relation

theorem steps_negation : Steps negation ts := steps_nested fun _ h _ => steps_negationWith h

theorem steps_condition : Steps condition ts := steps_disjunctionWith fun _ => steps_negation

/-! ## Statements -/

theorem steps_parenthesized : Steps parenthesized ts :=
  .bind (steps_expect rfl) fun _ _ _ => steps_condition.bind fun _ _ _ =>
    .bind (steps_expect rfl) fun _ _ _ => .pure

theorem steps_callStatement {callee : String} : Steps (callStatement callee) ts :=
  (steps_argumentsWith fun _ => steps_expression).bind fun _ _ _ =>
    .bind (steps_expect rfl) fun _ _ _ => .pure

theorem steps_variableStatement : Steps variableStatement ts := by
  refine steps_variableName.bind fun _ _ _ => .look ?_
  split
  · rename_i seen
    exact .skip seen rfl (steps_expression.bind fun _ _ _ =>
      .bind (steps_expect rfl) fun _ _ _ => .pure)
  · exact steps_callStatement
  · exact .throw (by simp)

section Statements

variable {x : Parser Statement}

theorem steps_blockWith (h : ∀ ts, Steps x ts) : Steps (blockWith x) ts :=
  .bind (steps_expect rfl) fun _ _ _ => (steps_many fun ts _ => h ts).bind fun _ _ _ =>
    .bind (steps_expect rfl) fun _ _ _ => .pure

theorem steps_ifStatementWith (h : ∀ ts, Steps x ts)
    (seen : headKind ts = .keyword .whenTrue) : Steps (ifStatementWith x) ts := by
  refine .skip seen rfl (steps_parenthesized.bind fun _ _ _ => (steps_blockWith h).bind
    fun _ _ _ => .look ?_)
  split
  · rename_i seen
    exact .skip seen rfl ((steps_blockWith h).bind fun _ _ _ => .pure)
  · exact .pure

theorem steps_statementWith (h : ∀ ts, Steps x ts) : Steps (statementWith x) ts := by
  refine .look ?_
  split
  · rename_i seen
    exact .skip seen rfl (steps_expression.bind fun _ _ _ =>
      (steps_expectAll (by decide)).bind fun _ _ _ => .pure)
  · rename_i seen
    exact steps_ifStatementWith h seen
  · rename_i seen
    exact .skip seen rfl (steps_parenthesized.bind fun _ _ _ =>
      (steps_blockWith h).bind fun _ _ _ => .pure)
  · exact steps_variableStatement
  · rename_i seen
    exact .skip seen rfl steps_callStatement
  · exact .throw (by simp)

end Statements

theorem steps_statement : Steps statement ts := steps_nested fun _ h _ => steps_statementWith h

/-! ## Bodies -/

theorem steps_variableDeclaration : Steps variableDeclaration ts := by
  refine steps_variableName.bind fun _ _ _ => .look ?_
  dsimp only
  split
  · rename_i seen
    exact .skip seen rfl
      (.bind steps_expression.map fun _ _ _ => .bind (steps_expect rfl) fun _ _ _ => .pure)
  · exact .bind .pure fun _ _ _ => .bind (steps_expect rfl) fun _ _ _ => .pure

theorem steps_declarations {function? : Option (Parser Declaration)}
    (h : ∀ f, function? = some f → ∀ ts, headKind ts = .keyword .function → Steps f ts) :
    Steps (declarations function?) ts := by
  have upTo : ∀ n declared ts, Steps (declarationsUpTo function? n declared) ts := by
    intro n
    induction n with
    | zero => exact fun _ _ => .pure
    | succ n ih =>
      intro declared ts
      refine .look ?_
      split
      · rename_i seen
        exact (h _ rfl ts seen).bind fun _ _ _ => (ih _ _).bind fun _ _ _ => .pure
      · refine .lookAhead ?_
        split
        · exact .pure
        · exact steps_variableDeclaration.bind fun _ _ _ => (ih _ _).bind fun _ _ _ => .pure
      · exact .pure
  exact .measured (f := fun n => declarationsUpTo function? n []) (upTo _ [] ts)

theorem steps_bodyWith {function? : Option (Parser Declaration)}
    (h : ∀ f, function? = some f → ∀ ts, headKind ts = .keyword .function → Steps f ts) :
    Steps (bodyWith function?) ts :=
  (steps_declarations h).bind fun _ _ _ => (steps_many fun _ _ => steps_statement).bind
    fun _ _ _ => .pure

theorem steps_parameters : Steps parameters ts := by
  refine .look ?_
  split
  · exact steps_commaSeparated fun _ => steps_variableName
  · exact .pure

theorem steps_functionDeclaration (seen : headKind ts = .keyword .function) :
    Steps functionDeclaration ts :=
  .skip seen rfl (steps_identifier.bind fun _ _ _ =>
    .bind (steps_expect rfl) fun _ _ _ => steps_parameters.bind fun _ _ _ =>
      (steps_expectAll (by decide)).bind fun _ _ _ =>
        (steps_bodyWith (by simp)).bind fun _ _ _ =>
          .bind (steps_expect rfl) fun _ _ _ => .pure)

theorem steps_programBody : Steps (bodyWith (some functionDeclaration)) ts := by
  refine steps_bodyWith ?_
  rintro f ⟨⟩ ts seen
  exact steps_functionDeclaration seen

theorem steps_program : Steps program ts := by
  refine .bind (steps_expect rfl) fun _ _ _ => steps_programBody.bind fun _ _ _ =>
    .bind (steps_expect rfl) fun _ _ _ => .look ?_
  split
  · exact .pure
  · rename_i other
    exact .throw fun _ => other

/-! ## What all parsers do -/

/-- The tokens that are left when a parser has ended. -/
def left (x : Parser α) (ts : List Token) : List Token :=
  match x ts with
  | .ok _ rest => rest
  | .error _ rest => rest

/-- A parser goes forward past proper tokens. -/
theorem Steps.passes (h : Steps x ts) :
    ∃ passed, ts = passed ++ left x ts ∧ ∀ t ∈ passed, t.kind.isProper := by
  induction h with
  | pure | throw _ => exact ⟨[], rfl, by simp⟩
  | look _ ih | lookAhead _ ih | measured _ ih => exact ih
  | @advance ts proper =>
    cases ts with
    | nil => exact ⟨[], rfl, by simp⟩
    | cons t ts => exact ⟨[t], rfl, List.forall_mem_singleton.mpr proper⟩
  | @bind _ _ x f ts _ _ first second =>
    obtain ⟨passed, whole, proper⟩ := first
    unfold left at whole ⊢
    rw [bind_apply]
    cases ran : x ts with
    | error e rest =>
      rw [ran] at whole
      exact ⟨passed, whole, proper⟩
    | ok a rest =>
      rw [ran] at whole
      obtain ⟨further, more, others⟩ := second a rest ran
      refine ⟨passed ++ further, ?_, List.forall_mem_append.mpr ⟨proper, others⟩⟩
      rw [List.append_assoc, ← left, ← more]
      exact whole

theorem Steps.suffix_ok (h : Steps x ts) {a : α} (ran : x ts = .ok a rest) : rest <:+ ts := by
  obtain ⟨passed, whole, -⟩ := h.passes
  rw [left, ran] at whole
  exact ⟨passed, whole.symm⟩

/-- No parser reports the end of the source in place of the end of the source. -/
theorem Steps.missed (h : Steps x ts) (ran : x ts = .error .endOfSource rest) :
    headKind rest ≠ .endOfSource := by
  induction h generalizing rest with
  | pure | advance _ => cases ran
  | throw other =>
    cases ran
    exact other rfl
  | look _ ih | lookAhead _ ih | measured _ ih => exact ih ran
  | @bind _ _ x f ts _ _ first second =>
    rw [bind_apply] at ran
    cases stopped : x ts with
    | ok a us =>
      rw [stopped] at ran
      exact second a us stopped ran
    | error e us =>
      rw [stopped] at ran
      cases ran
      exact first stopped

def kinds (ts : List Token) : List Token.Kind := ts.map Token.kind

theorem headKind_of_kinds (same : kinds us = kinds ts) : headKind us = headKind ts := by
  cases us <;> cases ts <;> simp_all [kinds, headKind]

theorem kinds_tail (same : kinds us = kinds ts) : kinds us.tail = kinds ts.tail := by
  rw [kinds, kinds, List.map_tail, List.map_tail]
  exact congrArg List.tail same

/-- The value or what was expected, and the kinds of the tokens that are left. -/
def view : EStateM.Result Expectation (List Token) α → Except Expectation α × List Token.Kind
  | .ok a rest => (.ok a, kinds rest)
  | .error e rest => (.error e, kinds rest)

theorem view_ok {r : EStateM.Result Expectation (List Token) α} {a : α} :
    (view r).1 = .ok a ↔ ∃ rest, r = .ok a rest := by
  cases r <;> simp [view]

/-- Where tokens stand makes no difference. -/
theorem Steps.view_eq (h : Steps x ts) (same : kinds us = kinds ts) :
    view (x us) = view (x ts) := by
  induction h generalizing us with
  | pure => exact congrArg (Prod.mk _) same
  | throw _ => exact congrArg (Prod.mk _) same
  | @look _ f _ _ ih =>
    show view (f (headKind us) us) = _
    rw [headKind_of_kinds same]
    exact ih same
  | @lookAhead _ f _ _ ih =>
    show view (f (headKind us.tail) us) = _
    rw [headKind_of_kinds (kinds_tail same)]
    exact ih same
  | advance => exact congrArg (Prod.mk _) (kinds_tail same)
  | @measured _ f ts _ ih =>
    have length : us.length = ts.length := by simpa [kinds] using congrArg List.length same
    show view (f us.length us) = _
    rw [length]
    exact ih same
  | @bind _ _ x f ts _ _ first second =>
    have agree := first same
    rw [bind_apply, bind_apply]
    cases ran : x ts with
    | error e rest =>
      rw [ran] at agree
      cases other : x us with
      | error e' rest' =>
        rw [other] at agree
        simpa [view] using agree
      | ok => simp [view, other] at agree
    | ok a rest =>
      rw [ran] at agree
      cases other : x us with
      | error => simp [view, other] at agree
      | ok a' rest' =>
        obtain ⟨rfl, left⟩ : a' = a ∧ kinds rest' = kinds rest := by simpa [view, other] using agree
        exact second a' rest ran left

end Parser

theorem Program.ofTokens_ok {source : List Char} {ts : List Token} {p : Program} :
    Program.ofTokens source ts = .ok p ↔ ∃ rest, Parser.program ts = .ok p rest := by
  unfold Program.ofTokens
  cases Parser.program ts <;> simp

end FlatStack
