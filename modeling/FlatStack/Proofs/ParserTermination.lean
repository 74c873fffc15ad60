import FlatStack.Proofs.ParserExactness

/-!
# Parsing comes to an end

A parser refers to itself, and a loop to its next round, with fewer tokens
only. So the equations of the grammar have one solution each, and what a parser
does when it is cut off at some depth makes no difference once the depth
exceeds the number of tokens.
-/

set_option autoImplicit false

namespace FlatStack.Parser

open Stateful

variable {α β σ : Type} {x y : Parser α} {ts us rest : List Token} {k : Token.Kind} {n m : Nat}

/-! ## Parsers that do the same -/

/-- Two parsers do the same with some tokens, and leave no more than there were. -/
structure Alike (x y : Parser α) (ts : List Token) : Prop where
  same : x ts = y ts
  least : ∀ a rest, x ts = .ok a rest → rest.length ≤ ts.length

namespace Alike

theorem of_steps (h : Steps x ts) : Alike x x ts :=
  ⟨rfl, fun _ _ ran => (h.suffix_ok ran).length_le⟩

theorem of_pure {a : α} (same : (pure a : Parser α) ts = y ts) : Alike (pure a) y ts :=
  ⟨same, (of_steps .pure).least⟩

theorem look {f g : Token.Kind → Parser α} (h : Alike (f (headKind ts)) (g (headKind ts)) ts) :
    Alike (current >>= f) (current >>= g) ts := ⟨h.same, h.least⟩

theorem lookAhead {f g : Token.Kind → Parser α}
    (h : Alike (f (headKind ts.tail)) (g (headKind ts.tail)) ts) :
    Alike (following >>= f) (following >>= g) ts := ⟨h.same, h.least⟩

theorem measured {f g : Nat → Parser α} (h : Alike (f ts.length) (g ts.length) ts) :
    Alike (fun us => f us.length us) (fun us => g us.length us) ts := ⟨h.same, h.least⟩

theorem bind {f g : α → Parser β} (first : Alike x y ts)
    (next : ∀ a rest, x ts = .ok a rest → rest.length ≤ ts.length → Alike (f a) (g a) rest) :
    Alike (x >>= f) (y >>= g) ts where
  same := by
    rw [bind_apply, bind_apply, ← first.same]
    cases ran : x ts with
    | error e rest => rfl
    | ok a rest => exact (next a rest ran (first.least a rest ran)).same
  least b rest ran := by
    obtain ⟨a, us, taken, further⟩ := bind_ok.mp ran
    have fewer := first.least a us taken
    exact ((next a us taken fewer).least b rest further).trans fewer

/-- Behind a token whose kind has been seen there are fewer. -/
theorem skip {f g : Unit → Parser α} (seen : headKind ts = k) (proper : k ≠ .endOfSource)
    (h : ts.tail.length < ts.length → Alike (f ()) (g ()) ts.tail) :
    Alike (Parser.advance >>= f) (Parser.advance >>= g) ts := by
  have fewer := (spells_head seen proper).2
  have inner := h fewer
  exact ⟨inner.same, fun a rest ran => (inner.least a rest ran).trans fewer.le⟩

theorem expect {f g : Unit → Parser α} (proper : k.isProper)
    (h : ∀ rest, rest.length < ts.length → Alike (f ()) (g ()) rest) :
    Alike (Parser.expect k >>= f) (Parser.expect k >>= g) ts := by
  refine .bind (.of_steps (steps_expect proper)) fun _ rest taken _ => h rest ?_
  have known : k ≠ .endOfSource := by
    rintro rfl
    cases proper
  exact (expect_sound known _ _ _ taken).2

end Alike

theorem alike_chain {operator? : Token.Kind → Option BinaryOp} {x y : Parser Expr} {e : Expr}
    (hend : operator? .endOfSource = none) (h : ∀ us, us.length < ts.length → Alike x y us) :
    Alike (chain operator? x e) (chain operator? y e) ts := by
  have upTo : ∀ m e us, us.length ≤ ts.length →
      Alike (chainUpTo operator? x m e) (chainUpTo operator? y m e) us := by
    intro m
    induction m with
    | zero => exact fun _ _ _ => .of_steps .pure
    | succ m ih =>
      intro e us le
      refine .look ?_
      cases found : operator? (headKind us) with
      | none => exact .of_steps .pure
      | some op =>
        exact .skip rfl (operator_ne_end hend found) fun fewer =>
          (h _ (by omega)).bind fun _ _ _ _ => ih _ _ (by omega)
  exact .measured (f := fun m => chainUpTo operator? x m e)
    (g := fun m => chainUpTo operator? y m e) (upTo _ e ts le_rfl)

theorem alike_many {starts : Token.Kind → Bool}
    (h : ∀ us, us.length ≤ ts.length → starts (headKind us) = true → Alike x y us) :
    Alike (many starts x) (many starts y) ts := by
  have upTo : ∀ m us, us.length ≤ ts.length →
      Alike (manyUpTo starts x m) (manyUpTo starts y m) us := by
    intro m
    induction m with
    | zero => exact fun _ _ => .of_steps .pure
    | succ m ih =>
      intro us le
      refine .look ?_
      split
      · rename_i first
        exact (h us le first).bind fun _ _ _ _ => (ih _ (by omega)).bind fun _ _ _ _ =>
          .of_steps .pure
      · exact .of_steps .pure
  exact .measured (f := fun m => manyUpTo starts x m) (g := fun m => manyUpTo starts y m)
    (upTo _ ts le_rfl)

theorem alike_commaSeparated (h : ∀ us, us.length ≤ ts.length → Alike x y us) :
    Alike (commaSeparated x) (commaSeparated y) ts := by
  refine (h ts le_rfl).bind fun _ us _ le => (alike_many fun vs fewer comma => ?_).bind
    fun _ _ _ _ => .of_steps .pure
  exact .skip (k := .comma) (by simpa using comma) (by simp) fun _ => h _ (by omega)

/-! ## Recursions -/

/-- A step of a recursion that refers to itself with fewer tokens only: as long as two ways to go
on do the same with fewer than `n` tokens, it does the same with `n` of them. -/
def Descends (step : (σ → Parser α) → σ → Parser α) : Prop :=
  ∀ (x y : σ → Parser α) (n : Nat), (∀ s us, us.length < n → Alike (x s) (y s) us) →
    ∀ s ts, ts.length ≤ n → Alike (step x s) (step y s) ts

/-- A recursion ends with every list of tokens. -/
structure Terminates (step : (σ → Parser α) → σ → Parser α) (x : σ → Parser α) : Prop where
  solves : step x = x
  only : ∀ y, step y = y → y = x
  /-- A depth above the number of tokens is enough, whatever stands at the bottom. -/
  enough : ∀ bottom n s ts, ts.length < n → step^[n] bottom s ts = x s ts

namespace Descends

variable {step : (σ → Parser α) → σ → Parser α} {x b c : σ → Parser α} {s : σ}

/-- Depths above the number of tokens make no difference, and neither does the bottom. -/
theorem iterate (h : Descends step) (hn : ts.length < n) (hm : ts.length < m) :
    Alike (step^[n] b s) (step^[m] c s) ts := by
  induction n generalizing m s ts with
  | zero => exact absurd hn (Nat.not_lt_zero _)
  | succ n ih =>
    obtain ⟨m, rfl⟩ := Nat.exists_eq_add_one_of_ne_zero (Nat.ne_of_gt (Nat.zero_lt_of_lt hm))
    rw [Function.iterate_succ_apply', Function.iterate_succ_apply']
    exact h _ _ ts.length (fun s us fewer => ih (by omega) (by omega)) s ts le_rfl

theorem terminates (h : Descends step) (cut : ∀ s ts, x s ts = step^[ts.length + 1] b s ts) :
    Terminates step x := by
  have enough : ∀ c n s ts, ts.length < n → step^[n] c s ts = x s ts :=
    fun _ _ s ts hn => (h.iterate hn (Nat.lt_succ_self _)).same.trans (cut s ts).symm
  refine ⟨funext fun s => funext fun ts => ?_, fun y fixed => ?_, enough⟩
  · have deeper : ∀ s us, us.length < ts.length → Alike (x s) (step^[ts.length] b s) us := by
      intro s us fewer
      have alike := h.iterate (b := b) (c := b) (s := s)
        (Nat.lt_succ_self us.length) fewer
      exact ⟨(cut s us).trans alike.same, fun a rest ran =>
        alike.least a rest ((cut s us).symm.trans ran)⟩
    rw [(h _ _ ts.length deeper s ts le_rfl).same, ← Function.iterate_succ_apply' step, cut]
  · refine funext fun s => funext fun ts => ?_
    rw [← enough y (ts.length + 1) s ts (Nat.lt_succ_self _), Function.iterate_fixed fixed]

/-- Where there are no tokens the bottom may do what a step would do. Then a depth less is enough. -/
theorem settles (h : Descends step) (settled : ∀ s, Alike (b s) (step b s) [])
    (hn : ts.length ≤ n) : Alike (step^[n] b s) (step^[n + 1] b s) ts := by
  induction n generalizing s ts with
  | zero =>
    rw [List.eq_nil_of_length_eq_zero (Nat.le_zero.mp hn)]
    exact settled s
  | succ n ih =>
    rw [Function.iterate_succ_apply', Function.iterate_succ_apply' step (n + 1)]
    exact h _ _ ts.length (fun s us fewer => ih (by omega)) s ts le_rfl

theorem terminates_settled (h : Descends step) (settled : ∀ s, Alike (b s) (step b s) [])
    (cut : ∀ s ts, x s ts = step^[ts.length] b s ts) : Terminates step x :=
  h.terminates fun s ts => (cut s ts).trans (h.settles settled le_rfl).same

end Descends

/-- A recursion without an argument. -/
def plain (step : Parser α → Parser α) : (Unit → Parser α) → Unit → Parser α :=
  fun x _ => step (x ())

theorem unfold_eq (step : Parser α → Parser α) (n : Nat) :
    Parser.unfold step n = (plain step)^[n] (fun _ => throw .operand) () := by
  induction n with
  | zero => rfl
  | succ n ih =>
    rw [Function.iterate_succ_apply', plain, ← ih]
    rfl

theorem terminates_nested {step : Parser α → Parser α} (h : Descends (plain step)) :
    Terminates (plain step) fun _ => nested step :=
  h.terminates fun _ ts => congrFun (unfold_eq step (ts.length + 1)) ts

/-! ## Expressions -/

section Expressions

variable {x y : Parser Expr}

theorem alike_argumentsWith (h : ∀ us, us.length < n → Alike x y us) (le : ts.length ≤ n) :
    Alike (argumentsWith x) (argumentsWith y) ts := by
  refine .expect rfl fun us fewer => .look ?_
  split
  · exact .of_steps (Steps.pure.bind fun _ _ _ => .bind (steps_expect rfl) fun _ _ _ => .pure)
  · exact (alike_commaSeparated fun vs le => h vs (by omega)).bind fun _ _ _ _ =>
      .of_steps (.bind (steps_expect rfl) fun _ _ _ => .pure)

theorem alike_factorWith (h : ∀ us, us.length < n → Alike x y us) (le : ts.length ≤ n) :
    Alike (factorWith x) (factorWith y) ts := by
  refine .look ?_
  split
  · rename_i seen
    exact .of_steps (.skip seen rfl .pure)
  · rename_i seen
    exact .of_steps (.skip seen rfl .pure)
  · rename_i seen
    exact .skip seen (by simp) fun _ =>
      (alike_argumentsWith h (by omega)).bind fun _ _ _ _ => .of_steps .pure
  · rename_i seen
    exact .skip seen (by simp) fun fewer => (h _ (by omega)).bind fun _ _ _ _ =>
      .of_steps (.bind (steps_expect rfl) fun _ _ _ => .pure)
  · exact .of_steps (.throw (by simp))

theorem alike_termWith (h : ∀ us, us.length < n → Alike x y us) (le : ts.length ≤ n) :
    Alike (termWith x) (termWith y) ts := by
  have factors : ∀ us, us.length ≤ n → Alike (factorWith x) (factorWith y) us :=
    fun _ => alike_factorWith h
  refine Alike.bind (.look ?_) fun _ _ _ fewer =>
    alike_chain rfl fun us less => factors us (by omega)
  split
  · rename_i seen
    exact .skip seen (by simp) fun _ => (factors _ (by omega)).bind fun _ _ _ _ => .of_steps .pure
  · exact factors ts le

theorem alike_expressionWith (h : ∀ us, us.length < n → Alike x y us) (le : ts.length ≤ n) :
    Alike (expressionWith x) (expressionWith y) ts := by
  have terms : ∀ us, us.length ≤ n → Alike (termWith x) (termWith y) us :=
    fun _ => alike_termWith h
  refine .look ?_
  split
  · exact .of_steps ((steps_expectAll (by decide)).bind fun _ _ _ => .pure)
  · exact (terms ts le).bind fun _ _ _ fewer => alike_chain rfl fun us less => terms us (by omega)

end Expressions

theorem descends_expression : Descends (plain expressionWith) :=
  fun _ _ _ h _ _ le => alike_expressionWith (h ()) le

/-! ## Conditions -/

section Conditions

variable {x y : Parser Expr}

theorem alike_disjunctionWith (h : ∀ us, us.length ≤ n → Alike x y us) (le : ts.length ≤ n) :
    Alike (disjunctionWith x) (disjunctionWith y) ts := by
  have conjunction : ∀ us, us.length ≤ n →
      Alike (disjunctionWith.conjunction x) (disjunctionWith.conjunction y) us := fun us le =>
    (h us le).bind fun _ _ _ fewer => alike_chain rfl fun vs less => h vs (by omega)
  exact (conjunction ts le).bind fun _ _ _ fewer =>
    alike_chain rfl fun us less => conjunction us (by omega)

theorem alike_negationWith (h : ∀ us, us.length < n → Alike x y us) (le : ts.length ≤ n) :
    Alike (negationWith x) (negationWith y) ts := by
  refine .look ?_
  split
  · rename_i seen
    exact .skip seen (by simp) fun fewer => (h _ (by omega)).bind fun _ _ _ _ => .of_steps .pure
  · rename_i seen
    refine .skip seen (by simp) fun fewer =>
      (alike_disjunctionWith (n := ts.tail.length) (fun us le => h us (by omega)) le_rfl).bind
        fun _ _ _ _ => .of_steps ?_
    exact .bind (steps_expect rfl) fun _ _ _ =>
      (steps_chain (fun _ _ => proper_multiplicative) fun _ =>
        steps_factorWith fun _ => steps_expression).bind fun _ _ _ =>
      (steps_chain (fun _ _ => proper_additive) fun _ =>
        steps_termWith fun _ => steps_expression).bind fun _ _ _ => steps_relation
  · exact .of_steps (steps_expression.bind fun _ _ _ => steps_relation)

end Conditions

theorem descends_negation : Descends (plain negationWith) :=
  fun _ _ _ h _ _ le => alike_negationWith (h ()) le

/-! ## Statements -/

section Statements

variable {x y : Parser Statement}

theorem alike_blockWith (h : ∀ us, us.length < n → Alike x y us) (le : ts.length ≤ n) :
    Alike (blockWith x) (blockWith y) ts :=
  .expect rfl fun us fewer => (alike_many fun vs le _ => h vs (by omega)).bind fun _ _ _ _ =>
    .of_steps (.bind (steps_expect rfl) fun _ _ _ => .pure)

theorem alike_ifStatementWith (h : ∀ us, us.length < n → Alike x y us) (le : ts.length ≤ n)
    (seen : headKind ts = .keyword .whenTrue) :
    Alike (ifStatementWith x) (ifStatementWith y) ts := by
  refine .skip seen (by simp) fun fewer => (Alike.of_steps steps_parenthesized).bind fun _ _ _ _ =>
    (alike_blockWith h (by omega)).bind fun _ _ _ _ => .look ?_
  split
  · rename_i seen
    exact .skip seen (by simp) fun _ =>
      (alike_blockWith h (by omega)).bind fun _ _ _ _ => .of_steps .pure
  · exact .of_steps .pure

theorem alike_statementWith (h : ∀ us, us.length < n → Alike x y us) (le : ts.length ≤ n) :
    Alike (statementWith x) (statementWith y) ts := by
  refine .look ?_
  split
  · rename_i seen
    exact .of_steps (.skip seen rfl (steps_expression.bind fun _ _ _ =>
      (steps_expectAll (by decide)).bind fun _ _ _ => .pure))
  · rename_i seen
    exact alike_ifStatementWith h le seen
  · rename_i seen
    exact .skip seen (by simp) fun fewer => (Alike.of_steps steps_parenthesized).bind
      fun _ _ _ _ => (alike_blockWith h (by omega)).bind fun _ _ _ _ => .of_steps .pure
  · exact .of_steps steps_variableStatement
  · rename_i seen
    exact .of_steps (.skip seen rfl steps_callStatement)
  · exact .of_steps (.throw (by simp))

end Statements

theorem descends_statement : Descends (plain statementWith) :=
  fun _ _ _ h _ _ le => alike_statementWith (h ()) le

/-! ## Loops -/

/-- One round of a chain of operators, and what goes on then. -/
def chainStep (operator? : Token.Kind → Option BinaryOp) (operand : Parser Expr)
    (further : Expr → Parser Expr) (left : Expr) : Parser Expr := do
  match operator? (← current) with
  | none => pure left
  | some op =>
    advance
    let right ← operand
    further (.binary op left right)

def manyStep (starts : Token.Kind → Bool) (item : Parser α) (further : Parser (List α)) :
    Parser (List α) := do
  if starts (← current) then
    let first ← item
    let others ← further
    pure (first :: others)
  else
    pure []

def declarationsStep (function? : Option (Parser Declaration))
    (further : List String → Parser (List Declaration)) (declared : List String) :
    Parser (List Declaration) := do
  match ← current, function? with
  | .keyword .function, some function =>
    let first ← function
    let others ← further declared
    pure (first :: others)
  | .variable name, _ =>
    if name ∈ declared ∨ (← following) = .leftParen then
      pure []
    else
      let first ← variableDeclaration
      let others ← further (name :: declared)
      pure (first :: others)
  | _, _ => pure []

/-- Declarations where some names have been declared. -/
def declarationsFrom (function? : Option (Parser Declaration)) (declared : List String) :
    Parser (List Declaration) := fun ts => declarationsUpTo function? ts.length declared ts

/-- A round that succeeds where the loop goes on takes a token. -/
def Takes (goesOn : Token.Kind → Bool) (round : Parser β) : Prop :=
  ∀ ts b rest, goesOn (headKind ts) = true → round ts = .ok b rest → rest.length < ts.length

/-- A loop takes a token in each round that succeeds, and it ends. -/
structure Loops (goesOn : Token.Kind → Bool) (round : Parser β)
    (step : (σ → Parser α) → σ → Parser α) (loop : σ → Parser α) : Prop where
  takes : Takes goesOn round
  ends : Terminates step loop

/-- The loop over the operators of a chain and the operands behind them. -/
def ChainLoops (operator? : Token.Kind → Option BinaryOp) (operand : Parser Expr) : Prop :=
  Loops (fun k => (operator? k).isSome) (do advance; operand) (chainStep operator? operand)
    (chain operator? operand)

/-- The loop over an item and those behind commas. -/
def CommaLoops (item : Parser α) : Prop :=
  Takes (fun _ => true) item ∧ Loops (· == .comma) (do advance; item)
    (plain (manyStep (· == .comma) (do advance; item)))
    fun _ => many (· == .comma) (do advance; item)

section Loops

variable {operator? : Token.Kind → Option BinaryOp} {operand : Parser Expr}
  {starts : Token.Kind → Bool} {item : Parser α} {function? : Option (Parser Declaration)}

theorem chainUpTo_eq (n : Nat) :
    chainUpTo operator? operand n = (chainStep operator? operand)^[n] pure := by
  induction n with
  | zero => rfl
  | succ n ih =>
    rw [Function.iterate_succ_apply', ← ih]
    rfl

theorem manyUpTo_eq (n : Nat) : manyUpTo starts item n
    = (plain (manyStep starts item))^[n] (fun _ => pure []) () := by
  induction n with
  | zero => rfl
  | succ n ih =>
    rw [Function.iterate_succ_apply', plain, ← ih]
    rfl

theorem declarationsUpTo_eq (n : Nat) : declarationsUpTo function? n
    = (declarationsStep function?)^[n] fun _ => pure [] := by
  induction n with
  | zero => rfl
  | succ n ih =>
    rw [Function.iterate_succ_apply', ← ih]
    rfl

theorem loops_chain (hend : operator? .endOfSource = none) (steps : ∀ ts, Steps operand ts)
    (short : Shortens operand) : ChainLoops operator? operand := by
  have descends : Descends (chainStep operator? operand) := by
    intro x y n h left ts le
    refine .look ?_
    cases found : operator? (headKind ts) with
    | none => exact .of_steps .pure
    | some op =>
      exact .skip rfl (operator_ne_end hend found) fun fewer =>
        (Alike.of_steps (steps _)).bind fun _ us _ least => h _ us (by omega)
  refine ⟨fun ts b rest _ => short.behind ts b rest, descends.terminates_settled
    (fun left => .of_pure ?_) fun left ts => congrFun (congrFun (chainUpTo_eq ts.length) left) ts⟩
  change _ = (match operator? .endOfSource with
    | none => pure left
    | some op => do advance; let right ← operand; pure (.binary op left right) : Parser Expr) []
  rw [hend]

theorem loops_many (hend : starts .endOfSource = false)
    (steps : ∀ ts, starts (headKind ts) = true → Steps item ts) (short : Shortens item) :
    Loops starts item (plain (manyStep starts item)) fun _ => many starts item := by
  have descends : Descends (plain (manyStep starts item)) := by
    intro x y n h _ ts le
    refine .look ?_
    split
    · rename_i first
      refine (Alike.of_steps (steps ts first)).bind fun a us taken _ => ?_
      have fewer := short ts a us taken
      exact (h () us (by omega)).bind fun _ _ _ _ => .of_steps .pure
    · exact .of_steps .pure
  refine ⟨fun ts a rest _ => short ts a rest, descends.terminates_settled
    (fun _ => .of_pure ?_) fun _ ts => congrFun (manyUpTo_eq ts.length) ts⟩
  change _ = (if starts .endOfSource = true then do
      let first ← item
      let others ← pure []
      pure (first :: others)
    else pure [] : Parser (List α)) []
  rw [hend, if_neg Bool.false_ne_true]

theorem loops_commas (steps : ∀ ts, Steps item ts) (short : Shortens item) : CommaLoops item := by
  refine ⟨fun ts a rest _ => short ts a rest, loops_many rfl (fun ts comma => ?_) short.behind⟩
  have seen : headKind ts = .comma := by simpa using comma
  exact .skip seen rfl (steps _)

theorem terminates_declarations
    (steps : ∀ f, function? = some f → ∀ ts, headKind ts = .keyword .function → Steps f ts)
    (takes : ∀ f, function? = some f → Takes (· == .keyword .function) f) :
    Terminates (declarationsStep function?) (declarationsFrom function?) := by
  have descends : Descends (declarationsStep function?) := by
    intro x y n h declared ts le
    refine .look ?_
    split
    · rename_i f seen
      refine (Alike.of_steps (steps f rfl ts seen)).bind fun d us taken _ => ?_
      have fewer := takes f rfl ts d us (by simp [seen]) taken
      exact (h _ us (by omega)).bind fun _ _ _ _ => .of_steps .pure
    · refine .lookAhead ?_
      split
      · exact .of_steps .pure
      · refine (Alike.of_steps steps_variableDeclaration).bind fun d us taken _ => ?_
        have fewer := (variableDeclaration_sound taken).2
        exact (h _ us (by omega)).bind fun _ _ _ _ => .of_steps .pure
    · exact .of_steps .pure
  exact descends.terminates_settled (fun _ => .of_pure rfl)
    fun declared ts => congrFun (congrFun (declarationsUpTo_eq ts.length) declared) ts

end Loops

/-! ## Going forward -/

/-- From any place in a list of tokens a parser gets, whether it succeeds or fails, to a place that
does not lie before it and not past the end. When it succeeds it is further on. -/
def Advances (x : Parser α) : Prop :=
  ∀ (tokens : List Token) (start : Nat), start ≤ tokens.length → ∃ stop,
    start ≤ stop ∧ stop ≤ tokens.length ∧ left x (tokens.drop start) = tokens.drop stop ∧
      ∀ a rest, x (tokens.drop start) = .ok a rest → start < stop

theorem advances (steps : ∀ ts, Steps x ts) (short : Shortens x) : Advances x := by
  intro tokens start within
  obtain ⟨passed, whole, -⟩ := (steps (tokens.drop start)).passes
  have count := congrArg List.length whole
  rw [List.length_drop, List.length_append] at count
  refine ⟨start + passed.length, by omega, by omega, ?_, fun a rest ran => ?_⟩
  · have further := congrArg (List.drop passed.length) whole
    rw [List.drop_left, List.drop_drop] at further
    exact further.symm
  · have fewer := short _ a rest ran
    have stopped : left x (tokens.drop start) = rest := by rw [left, ran]
    rw [stopped] at count
    rw [List.length_drop] at fewer
    omega

theorem shortens_program : Shortens program := by
  intro ts p rest ran
  obtain ⟨us, vs, -, -, last, -, behind⟩ := program_taken ran
  exact (Spells.shorter last).trans_le behind.length_le

theorem takes_function : Takes (· == .keyword .function) functionDeclaration :=
  fun _ _ _ seen taken => (functionDeclaration_sound (by simpa using seen) taken).2

/-- How parsing goes on and comes to an end. -/
structure Progresses : Prop where
  program : Advances program
  statement : Advances statement
  expression : Advances expression
  /-- The grammar refers to itself in these three places. -/
  nestedExpressions : Terminates (plain expressionWith) fun _ => Parser.expression
  nestedConditions : Terminates (plain negationWith) fun _ => negation
  nestedStatements : Terminates (plain statementWith) fun _ => Parser.statement
  /-- Where a body declares, each function and each variable is a round. -/
  functionTaken : Takes (· == .keyword .function) functionDeclaration
  variableTaken : Takes (fun _ => true) variableDeclaration
  declarations : ∀ function? ∈ [some functionDeclaration, none],
    Terminates (declarationsStep function?) (declarationsFrom function?)
  statements : Loops startsStatement Parser.statement
    (plain (manyStep startsStatement Parser.statement)) fun _ => statements
  parameters : CommaLoops variableName
  arguments : CommaLoops Parser.expression
  disjunction : ChainLoops (fun k => if k = .orOr then some .or else none)
    (disjunctionWith.conjunction negation)
  conjunction : ChainLoops (fun k => if k = .andAnd then some .and else none) negation
  moreTerms : ChainLoops additive? term
  moreFactors : ChainLoops multiplicative? factor

theorem terminates_body {function? : Option (Parser Declaration)}
    (known : function? ∈ [some functionDeclaration, none]) :
    Terminates (declarationsStep function?) (declarationsFrom function?) := by
  refine terminates_declarations (fun f some ts seen => ?_) fun f some => ?_
  all_goals
    obtain rfl : f = functionDeclaration := by simpa [some] using known
  · exact steps_functionDeclaration seen
  · exact takes_function

theorem parsing_progresses : Progresses where
  program := advances (fun _ => steps_program) shortens_program
  statement := advances (fun _ => steps_statement) statement_sound.shortens
  expression := advances (fun _ => steps_expression) expression_sound.shortens
  nestedExpressions := terminates_nested descends_expression
  nestedConditions := terminates_nested descends_negation
  nestedStatements := terminates_nested descends_statement
  functionTaken := takes_function
  variableTaken := fun _ _ _ _ taken => (variableDeclaration_sound taken).2
  declarations := fun _ => terminates_body
  statements := loops_many rfl (fun _ _ => steps_statement) statement_sound.shortens
  parameters := loops_commas (fun _ => steps_variableName) variableName_sound.shortens
  arguments := loops_commas (fun _ => steps_expression) expression_sound.shortens
  disjunction := loops_chain rfl (fun _ => steps_conjunction fun _ => steps_negation)
    (conjunction_sound negation_sound).shortens
  conjunction := loops_chain rfl (fun _ => steps_negation) negation_sound.shortens
  moreTerms := loops_chain rfl (fun _ => steps_termWith fun _ => steps_expression)
    term_sound.shortens
  moreFactors := loops_chain rfl (fun _ => steps_factorWith fun _ => steps_expression)
    factor_sound.shortens

end FlatStack.Parser
