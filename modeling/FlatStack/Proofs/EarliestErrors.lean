import FlatStack.Proofs.ParserExactness
import FlatStack.Proofs.Prefixes

/-!
# Errors at the earliest token

Whatever the parser has passed when it fails is the beginning of a program, and
together with the token where it fails it is not. So no error could have been
noticed earlier.
-/

set_option autoImplicit false

namespace FlatStack

/-! ## Parts of programs -/

namespace Grammar

/-- A comparison with anything on its left. -/
def Compared : Extent := fun ts rest => ∀ left, ∃ e, Comparison left e ts rest

section Possible

variable {ts rest : List Token} {n : Float}

theorem expression_of_number (h : Spells [.number n] ts rest) :
    Expression (.number n) ts rest := .sum (.plain (.number h) .last) .last

theorem negation_of_number (h : Spells [.number n] ts rest) : Negation (.number n) ts rest :=
  .plain (by simp [Parser.Spells.headKind h]) (expression_of_number h) .none

instance possible_factor : Possible (Any Factor) :=
  Possible.mono (E := Spells [.number 0]) fun _ _ h => ⟨_, .number h⟩

instance possible_term : Possible (Any Term) :=
  Possible.mono (E := Spells [.number 0]) fun _ _ h => ⟨_, .plain (.number h) .last⟩

instance possible_expression : Possible (Any Expression) :=
  Possible.mono (E := Spells [.number 0]) fun _ _ h => ⟨_, expression_of_number h⟩

instance possible_arguments : Possible (Any Arguments) :=
  Possible.mono (E := Spells [.leftParen, .rightParen]) fun _ _ h => ⟨_, .none h⟩

instance possible_compared : Possible Compared := ⟨[], fun _ left => ⟨left, .none⟩⟩

instance possible_negation : Possible (Any Negation) :=
  Possible.mono (E := Spells [.number 0]) fun _ _ h => ⟨_, negation_of_number h⟩

instance possible_conjunction : Possible (Any Conjunction) :=
  Possible.mono (E := Any Negation) fun _ _ ⟨_, h⟩ => ⟨_, .mk h .last⟩

instance possible_condition : Possible (Any Condition) :=
  Possible.mono (E := Any Conjunction) fun _ _ ⟨_, h⟩ => ⟨_, .mk h .last⟩

instance possible_block : Possible (Any Block) :=
  Possible.mono (E := Then (Spells [.leftBrace]) (Spells [.rightBrace]))
    fun _ _ ⟨_, first, last⟩ => ⟨_, .mk first .none last⟩

instance possible_sentence : Possible (Any Sentence) :=
  Possible.mono (E := Then (Spells [.identifier "f"]) (Then (Any Arguments) (Spells [.semicolon])))
    fun _ _ ⟨_, first, _, ⟨_, passed⟩, last⟩ => ⟨_, .call first passed last⟩

instance possible_identifier : Possible (Any fun f => Spells [.identifier f]) :=
  Possible.mono (E := Spells [.identifier "f"]) fun _ _ h => ⟨_, h⟩

instance possible_variable : Possible (Any fun x => Spells [.variable x]) :=
  Possible.mono (E := Spells [.variable "$x"]) fun _ _ h => ⟨_, h⟩

instance possible_parameters : Possible (Any Parameters) := ⟨[], fun _ => ⟨_, .none⟩⟩

instance possible_initializer : Possible (Any Initializer) := ⟨[], fun _ => ⟨_, .none⟩⟩

end Possible

end Grammar

namespace Parser

open Grammar Stateful

variable {n : Nat} {ts : List Token}

/-! ## Expressions -/

section Expressions

variable {x y : Parser Expr}

theorem follows_argumentsWith (short : Shortens x) (h : ∀ ts, Follows n x y (Any Expression) ts) :
    Follows n (argumentsWith x) (argumentsWith y) (Any Arguments) ts := by
  refine (Follows.bind (F := Either (Spells [.rightParen])
    (Then (Any (Separated Expression)) (Spells [.rightParen]))) (follows_expect (by simp))
      fun _ us _ => .look ?_).mono ?_
  · split
    · exact .mono (.bind .pure fun _ _ _ => .bind_pure (follows_expect (by simp)))
        fun _ _ ⟨_, same, last⟩ => .inl (same ▸ last)
    · exact .mono (.bind (follows_commaSeparated short h) fun _ _ _ =>
        .bind_pure (follows_expect (by simp))) fun _ _ => .inr
  · rintro ts rest ⟨us, first, last | ⟨vs, ⟨es, inner⟩, last⟩⟩
    · exact ⟨[], .none (Spells.cons first last)⟩
    · exact ⟨es, .some first inner last⟩

theorem follows_factorWith (short : Shortens x) (h : ∀ ts, Follows n x y (Any Expression) ts) :
    Follows (n + 1) (factorWith x) (factorWith y) (Any Factor) ts := by
  refine .look ?_
  split
  · rename_i seen
    exact .mono (.skip seen (by simp) .pure) fun _ _ ⟨_, first, same⟩ =>
      ⟨_, .variable (same ▸ first)⟩
  · rename_i seen
    exact .mono (.skip seen (by simp) .pure) fun _ _ ⟨_, first, same⟩ =>
      ⟨_, .number (same ▸ first)⟩
  · rename_i seen
    exact .mono (.skip seen (by simp) (.bind_pure (follows_argumentsWith short h)))
      fun _ _ ⟨_, first, _, passed⟩ => ⟨_, .call first passed⟩
  · rename_i seen
    exact .mono (.skip seen (by simp) (.bind (h _) fun _ _ _ =>
      .bind_pure (follows_expect (by simp)))) fun _ _ ⟨_, first, _, ⟨_, inner⟩, last⟩ =>
        ⟨_, .group first inner last⟩
  · exact .throw

theorem follows_termWith (short : Shortens x) (h : ∀ ts, Follows n x y (Any Expression) ts) :
    Follows (n + 1) (termWith x) (termWith y) (Any Term) ts := by
  have factors : ∀ ts, Follows (n + 1) (factorWith x) (factorWith y) (Any Factor) ts :=
    fun _ => follows_factorWith short h
  refine (Follows.bind (E := Either (Any Factor) (Then (Spells [.minus]) (Any Factor)))
    (.look ?_) fun _ _ _ => follows_chain rfl factors).mono ?_
  · split
    · rename_i seen
      exact .mono (.skip seen (by simp) (.bind_pure ((factors _).weaken (Nat.le_succ n))))
        fun _ _ => .inr
    · exact (factors ts).mono fun _ _ => .inl
  · rintro ts rest ⟨us, ⟨f, first⟩ | ⟨vs, sign, f, first⟩, chained⟩
    · obtain ⟨e, chained⟩ := chained f
      exact ⟨e, .plain first chained⟩
    · obtain ⟨e, chained⟩ := chained (.unary .neg f)
      exact ⟨e, .signed sign first chained⟩

theorem follows_expressionWith (n : Nat) (x y : Parser Expr) (sound : Sound x Expression)
    (h : ∀ ts, Follows n x y (Any Expression) ts) (ts : List Token) :
    Follows (n + 1) (expressionWith x) (expressionWith y) (Any Expression) ts := by
  have terms : ∀ ts, Follows (n + 1) (termWith x) (termWith y) (Any Term) ts :=
    fun _ => follows_termWith sound.shortens h
  refine .look ?_
  split
  · exact (follows_expectAll (by simp)).bind_pure.mono fun _ _ spelled => ⟨_, .input spelled⟩
  · refine ((terms ts).bind fun _ _ _ => follows_chain rfl terms).mono ?_
    rintro ts rest ⟨us, ⟨t, first⟩, chained⟩
    obtain ⟨e, chained⟩ := chained t
    exact ⟨e, .sum first chained⟩

end Expressions

theorem follows_expression : Follows n expression expression (Any Expression) ts :=
  follows_nested expressionWith_sound follows_expressionWith

theorem follows_factor : Follows n factor factor (Any Factor) ts :=
  (follows_factorWith expression_sound.shortens fun _ => follows_expression).weaken
    (Nat.le_succ n)

theorem follows_term : Follows n term term (Any Term) ts :=
  (follows_termWith expression_sound.shortens fun _ => follows_expression).weaken (Nat.le_succ n)

theorem follows_arguments : Follows n arguments arguments (Any Arguments) ts :=
  follows_argumentsWith expression_sound.shortens fun _ => follows_expression

/-! ## Conditions -/

theorem follows_relation {left : Expr} : Follows n (relation left) (relation left) Compared ts := by
  refine .look ?_
  cases found : relational? (headKind ts) with
  | none => exact Follows.pure.mono fun _ _ same left => ⟨left, same ▸ .none⟩
  | some op =>
    obtain ⟨r, seen⟩ : ∃ r, headKind ts = .relation r := by
      unfold relational? at found
      split at found
      · exact ⟨_, ‹_›⟩
      · cases found
    exact .mono (.skip seen (by simp) (.bind_pure follows_expression))
      fun _ _ ⟨_, first, _, right⟩ left => ⟨_, .some first right⟩

section Conditions

variable {x y : Parser Expr}

theorem follows_conjunction (h : ∀ ts, Follows n x y (Any Negation) ts) :
    Follows n (disjunctionWith.conjunction x) (disjunctionWith.conjunction y) (Any Conjunction)
      ts := by
  refine ((h ts).bind fun _ _ _ => follows_chain rfl h).mono ?_
  rintro ts rest ⟨us, ⟨f, first⟩, chained⟩
  obtain ⟨e, chained⟩ := chained f
  exact ⟨e, .mk first chained⟩

theorem follows_disjunctionWith (h : ∀ ts, Follows n x y (Any Negation) ts) :
    Follows n (disjunctionWith x) (disjunctionWith y) (Any Condition) ts := by
  refine ((follows_conjunction h).bind fun _ _ _ =>
    follows_chain rfl fun _ => follows_conjunction h).mono ?_
  rintro ts rest ⟨us, ⟨f, first⟩, chained⟩
  obtain ⟨e, chained⟩ := chained f
  exact ⟨e, .mk first chained⟩

/-- An expression that begins with no parenthesis. -/
theorem follows_unparenthesized (plain : headKind ts ≠ .leftParen) :
    Follows n expression expression
      (fun us rest => headKind us ≠ .leftParen ∧ Any Expression us rest) ts where
  ok e rest ran := by
    obtain ⟨passed, rfl, part⟩ := (follows_expression (n := n)).ok e rest ran
    have less := (expression_sound _ _ _ ran).2
    cases passed with
    | nil => exact absurd less (Nat.lt_irrefl _)
    | cons t passed => exact ⟨_, rfl, fun rest => ⟨plain, part rest⟩⟩
  error e rest ran := by
    obtain ⟨passed, more, rfl, part⟩ := (follows_expression (n := n)).error e rest ran
    cases passed with
    | nil =>
      have value (rest : List Token) :
          Expression (.number 0) (tokenOf (.number 0) :: rest) rest :=
        expression_of_number ⟨_, _, rfl, rfl, rfl⟩
      exact ⟨[], [tokenOf (.number 0)], rfl, fun rest =>
        ⟨by simp [headKind, tokenOf], _, value rest⟩⟩
    | cons t passed => exact ⟨_, more, rfl, fun rest => ⟨plain, part rest⟩⟩
  agrees := follows_expression.agrees

theorem follows_negationWith (n : Nat) (x y : Parser Expr) (_ : Sound x Negation)
    (h : ∀ ts, Follows n x y (Any Negation) ts) (ts : List Token) :
    Follows (n + 1) (negationWith x) (negationWith y) (Any Negation) ts := by
  refine .look ?_
  split
  · rename_i seen
    exact .mono (.skip seen (by simp) (.bind_pure (h _)))
      fun _ _ ⟨_, first, _, inner⟩ => ⟨_, .not first inner⟩
  · rename_i seen
    refine .mono (.skip seen (by simp) (.bind (follows_disjunctionWith h) fun _ _ _ =>
      .bind (follows_expect (by simp)) fun _ _ _ =>
        .bind (follows_chain rfl fun _ => follows_factor) fun _ _ _ =>
          .bind (follows_chain rfl fun _ => follows_term) fun _ _ _ => follows_relation)) ?_
    rintro ts rest ⟨us, first, vs, ⟨c, inner⟩, ws, last, xs, factors, ys, terms, compared⟩
    obtain ⟨product, factors⟩ := factors c
    obtain ⟨sum, terms⟩ := terms product
    obtain ⟨e, compared⟩ := compared sum
    exact ⟨e, .group first inner last factors terms compared⟩
  · rename_i unparenthesized
    refine .mono (.bind (follows_unparenthesized fun paren => unparenthesized paren)
      fun _ _ _ => follows_relation) ?_
    rintro ts rest ⟨us, ⟨plain, left, first⟩, compared⟩
    obtain ⟨e, compared⟩ := compared left
    exact ⟨e, .plain plain first compared⟩

end Conditions

theorem follows_condition : Follows n condition condition (Any Condition) ts :=
  follows_disjunctionWith fun _ => follows_nested negationWith_sound follows_negationWith

/-! ## Statements -/

theorem follows_parenthesized : Follows n parenthesized parenthesized
    (Then (Spells [.leftParen]) (Then (Any Condition) (Spells [.rightParen]))) ts :=
  .bind (follows_expect (by simp)) fun _ _ _ => .bind follows_condition fun _ _ _ =>
    .bind_pure (follows_expect (by simp))

theorem follows_callStatement {callee : String} :
    Follows n (callStatement callee) (callStatement callee)
      (Then (Any Arguments) (Spells [.semicolon])) ts :=
  .bind follows_arguments fun _ _ _ => .bind_pure (follows_expect (by simp))

/-- A variable whose name has been seen. -/
theorem follows_named {name : String} (seen : headKind ts = .variable name) :
    Follows n variableName variableName (Spells [.variable name]) ts := by
  refine .look ?_
  rw [seen]
  exact .mono (.skip seen (by simp) .pure) fun _ _ ⟨_, first, same⟩ => same ▸ first

theorem follows_variableStatement {name : String} (seen : headKind ts = .variable name) :
    Follows n variableStatement variableStatement (Any Sentence) ts := by
  refine .mono (.bind (F := Either (Then (Spells [.assign]) (Then (Any Expression)
    (Spells [.semicolon]))) (Then (Any Arguments) (Spells [.semicolon]))) (follows_named seen)
      fun _ us _ => .look ?_) ?_
  · split
    · rename_i assigned
      exact .mono (.skip assigned (by simp) (.bind follows_expression fun _ _ _ =>
        .bind_pure (follows_expect (by simp)))) fun _ _ => .inl
    · exact follows_callStatement.mono fun _ _ => .inr
    · exact .throw
  · rintro ts rest ⟨us, first, ⟨vs, assigned, ws, ⟨e, value⟩, last⟩ | ⟨vs, ⟨es, passed⟩, last⟩⟩
    · exact ⟨_, .assign (Spells.cons first assigned) value last⟩
    · exact ⟨_, .sigilCall first passed last⟩

section Statements

variable {x y : Parser Statement}

theorem follows_blockWith (short : Shortens x) (h : ∀ ts, Follows n x y (Any Sentence) ts) :
    Follows n (blockWith x) (blockWith y) (Any Block) ts :=
  .mono (.bind (follows_expect (by simp)) fun _ _ _ =>
    .bind (follows_many short fun _ _ => h _) fun _ _ _ =>
      .bind_pure (follows_expect (by simp)))
    fun _ _ ⟨_, first, _, ⟨_, inner⟩, last⟩ => ⟨_, .mk first inner last⟩

theorem follows_ifStatementWith (short : Shortens x)
    (h : ∀ ts, Follows n x y (Any Sentence) ts) (seen : headKind ts = .keyword .whenTrue) :
    Follows (n + 1) (ifStatementWith x) (ifStatementWith y) (Any Sentence) ts := by
  have blocks : ∀ ts, Follows n (blockWith x) (blockWith y) (Any Block) ts :=
    fun _ => follows_blockWith short h
  refine .mono (.skip seen (by simp) (.bind follows_parenthesized fun _ _ _ =>
    .bind (F := Either Eq (Then (Spells [.keyword .otherwise]) (Any Block))) (blocks _)
      fun _ _ _ => .look ?_)) ?_
  · split
    · rename_i seen
      exact .mono (.skip seen (by simp) (.bind_pure ((blocks _).weaken (Nat.sub_le _ _))))
        fun _ _ => .inr
    · exact Follows.pure.mono fun _ _ => .inl
  · rintro ts rest ⟨us, first, vs, ⟨ws, left, xs, ⟨c, inner⟩, right⟩, ys, ⟨body, block⟩, others⟩
    rcases others with same | ⟨zs, second, otherwise, block'⟩
    · exact ⟨_, .ifThen (Spells.cons first left) inner right (same ▸ block)⟩
    · exact ⟨_, .ifElse (Spells.cons first left) inner right block second block'⟩

theorem follows_statementWith (n : Nat) (x y : Parser Statement) (sound : Sound x Sentence)
    (h : ∀ ts, Follows n x y (Any Sentence) ts) (ts : List Token) :
    Follows (n + 1) (statementWith x) (statementWith y) (Any Sentence) ts := by
  refine .look ?_
  split
  · rename_i seen
    exact .mono (.skip seen (by simp) (.bind follows_expression fun _ _ _ =>
      .bind_pure (follows_expectAll (by simp))))
      fun _ _ ⟨_, first, _, ⟨_, value⟩, last⟩ => ⟨_, .echo first value last⟩
  · rename_i seen
    exact follows_ifStatementWith sound.shortens h seen
  · rename_i seen
    exact .mono (.skip seen (by simp) (.bind follows_parenthesized fun _ _ _ =>
      .bind_pure (follows_blockWith sound.shortens h)))
      fun _ _ ⟨_, first, _, ⟨_, left, _, ⟨_, inner⟩, right⟩, _, block⟩ =>
        ⟨_, .loop (Spells.cons first left) inner right block⟩
  · rename_i seen
    exact follows_variableStatement seen
  · rename_i seen
    exact .mono (.skip seen (by simp) follows_callStatement)
      fun _ _ ⟨_, first, _, ⟨_, passed⟩, last⟩ => ⟨_, .call first passed last⟩
  · exact .throw

end Statements

theorem follows_statement : Follows n statement statement (Any Sentence) ts :=
  follows_nested statementWith_sound follows_statementWith

theorem follows_statements : Follows n statements statements (Any (Repeated Sentence)) ts :=
  follows_many statement_sound.shortens fun _ _ => follows_statement

/-! ## Bodies -/

theorem follows_variableDeclaration {name : String} (seen : headKind ts = .variable name) :
    Follows n variableDeclaration variableDeclaration
      (Then (Spells [.variable name]) (Then (Any Initializer) (Spells [.semicolon]))) ts := by
  refine .bind (follows_named seen) fun _ us _ => .look ?_
  dsimp only
  split
  · rename_i assigned
    refine .mono (.skip assigned (by simp) (.bind follows_expression.map fun _ _ _ =>
      .bind_pure (follows_expect (by simp)))) ?_
    rintro ts rest ⟨vs, first, ws, ⟨e, value⟩, last⟩
    exact ⟨ws, ⟨_, .some first value⟩, last⟩
  · refine .mono (.bind .pure fun _ _ _ => .bind_pure (follows_expect (by simp))) ?_
    rintro ts rest ⟨vs, rfl, last⟩
    exact ⟨_, ⟨_, .none⟩, last⟩

section Bodies

variable {function? : Option (Parser Declaration)} {F : Reading Declaration}
  {declared : List String}

/-- What a body goes on with when it has declared some variables. -/
def Remaining (F : Reading Declaration) (declared : List String) : Extent := fun ts rest =>
  Closes (headKind rest) →
    ∃ ds us ss, Declarations F declared ds ts us ∧ Repeated Sentence ss us rest

/-- Statements that could be declarations are. -/
theorem remaining_of_statements (hf : ReadsFunctions function? F) {rest : List Token}
    (h : Any (Repeated Sentence) ts rest) : Remaining F declared ts rest := by
  intro closes
  obtain ⟨ss, statements⟩ := h
  induction statements generalizing declared with
  | @none ts =>
    refine ⟨[], ts, [], .none fun d us hd => ?_, .none⟩
    rcases hf.declares_head hd with ⟨head, -⟩ | ⟨y, head, -⟩ <;> simp [Closes, head] at closes
  | @more s ss ts us rest first others ih =>
    by_cases declares : ∃ d vs, Declares F declared d ts vs
    · obtain ⟨d, vs, hd⟩ := declares
      rcases hf.declares_head hd with ⟨head, -⟩ | ⟨y, head, fresh, plain⟩
      · simpa [head, startsStatement] using sentence_head first
      · obtain ⟨d, hd⟩ := (sentence_variable first head fresh).resolve_left plain
        obtain ⟨ds, ws, ss, further, statements⟩ := ih closes
        exact ⟨d :: ds, ws, ss, .more hd further, statements⟩
    · exact ⟨[], ts, s :: ss, .none fun d vs hd => declares ⟨d, vs, hd⟩, .more first others⟩

theorem possible_remaining (hf : ReadsFunctions function? F) : Possible (Remaining F declared) :=
  Possible.mono (E := Any (Repeated Sentence)) fun _ _ => remaining_of_statements hf

/-- The statements of a body that has its declarations. -/
def closing (ds : List Declaration) : Parser Body := do
  let ss ← statements
  pure ⟨ds, ss⟩

/-- A body that has some declarations already, and the variables that they declare. -/
def bodyFrom (function? : Option (Parser Declaration)) (i : List String × List Declaration)
    (n : Nat) : Parser Body := do
  let ds ← declarationsUpTo function? n i.1
  closing (i.2 ++ ds)

/-- How a body goes on at a variable that has `next` behind it. -/
def bodyAt (function? : Option (Parser Declaration)) (i : List String × List Declaration)
    (n : Nat) (name : String) (next : Token.Kind) : Parser Body :=
  if name ∈ i.1 ∨ next = .leftParen then
    closing i.2
  else do
    let d ← variableDeclaration
    bodyFrom function? (name :: i.1, i.2 ++ [d]) n

theorem bodyFrom_zero (i : List String × List Declaration) :
    bodyFrom function? i 0 = closing i.2 := by
  rw [bodyFrom, declarationsUpTo, pure_bind, List.append_nil]

theorem bodyFrom_succ (i : List String × List Declaration) (n : Nat) :
    bodyFrom function? i (n + 1) = (do
      match ← current, function? with
      | .keyword .function, some function =>
        let d ← function
        bodyFrom function? (i.1, i.2 ++ [d]) n
      | .variable name, _ => bodyAt function? i n name (← following)
      | _, _ => closing i.2) := by
  rw [bodyFrom, declarationsUpTo, bind_assoc]
  refine bind_congr fun k => ?_
  split
  · simp only [bodyFrom, bind_assoc, pure_bind, List.append_assoc, List.singleton_append]
  · rw [bind_assoc]
    refine bind_congr fun next => ?_
    unfold bodyAt
    split
    · rw [pure_bind, List.append_nil]
    · simp only [bodyFrom, bind_assoc, pure_bind, List.append_assoc, List.singleton_append]
  · simp only [pure_bind, List.append_nil, *]

/-! A look behind a variable does no harm: of the variable itself only its name is seen. -/

section Forgets

variable {t u : Token} {us : List Token} {name : String}

theorem variableName_forgets (seen : t.kind = .variable name) (same : u.kind = t.kind) :
    variableName (u :: us) = variableName (t :: us) := by
  rw [variableName_complete ⟨t, us, rfl, seen, rfl⟩]
  exact variableName_complete ⟨u, us, rfl, same.trans seen, rfl⟩

theorem statement_variable (seen : t.kind = .variable name) :
    statement (t :: us) = variableStatement (t :: us) := by
  have head : headKind (t :: us) = .variable name := seen
  change (current >>= _) (t :: us) = _
  rw [bind_apply, current_of head]

theorem statements_variable (seen : t.kind = .variable name) :
    statements (t :: us) = (do
      let s ← variableStatement
      let ss ← manyUpTo startsStatement statement us.length
      pure (s :: ss)) (t :: us) := by
  have starts : startsStatement t.kind = true := by
    rw [seen]
    rfl
  have rounds : statements (t :: us)
      = manyUpTo startsStatement statement (us.length + 1) (t :: us) := rfl
  rw [rounds, manyUpTo, bind_apply, current_of rfl]
  dsimp only [headKind]
  rw [if_pos starts, bind_apply, bind_apply, statement_variable seen]

theorem statements_forget (seen : t.kind = .variable name) (same : u.kind = t.kind) :
    statements (u :: us) = statements (t :: us) := by
  rw [statements_variable seen, statements_variable (same.trans seen), variableStatement,
    bind_assoc, bind_apply, bind_apply, variableName_forgets seen same]

theorem bodyAt_forgets (seen : t.kind = .variable name) (same : u.kind = t.kind)
    (i : List String × List Declaration) (n : Nat) (next : Token.Kind) :
    bodyAt function? i n name next (u :: us) = bodyAt function? i n name next (t :: us) := by
  unfold bodyAt
  split
  · rw [closing, bind_apply, bind_apply, statements_forget seen same]
  · rw [variableDeclaration, bind_assoc, bind_apply, bind_apply, variableName_forgets seen same]

end Forgets

theorem follows_closing (hf : ReadsFunctions function? F) (ds : List Declaration) :
    Follows n (closing ds) (closing ds) (Remaining F declared) ts :=
  follows_statements.bind_pure.mono fun _ _ => remaining_of_statements hf

theorem remaining_of_function (hf : ReadsFunctions function? F) {rest : List Token}
    (h : Then (Any F) (Remaining F declared) ts rest) : Remaining F declared ts rest := by
  intro closes
  obtain ⟨us, ⟨d, first⟩, others⟩ := h
  obtain ⟨ds, vs, ss, further, statements⟩ := others closes
  rw [← hf.same _ _ _ first declared] at further
  exact ⟨d :: ds, vs, ss, .more (.function first) further, statements⟩

theorem remaining_of_variable {name : String} (fresh : name ∉ declared) {rest : List Token}
    (h : Then (Then (Spells [.variable name]) (Then (Any Initializer) (Spells [.semicolon])))
      (Remaining F (name :: declared)) ts rest) : Remaining F declared ts rest := by
  intro closes
  obtain ⟨us, ⟨vs, first, ws, ⟨e, initialized⟩, last⟩, others⟩ := h
  obtain ⟨ds, xs, ss, further, statements⟩ := others closes
  have plain : headKind vs ≠ .leftParen := by
    cases initialized with
    | none => simp [Spells.headKind last]
    | some equals _ => simp [Spells.headKind equals]
  exact ⟨_ :: ds, xs, ss, .more (.variable fresh first plain initialized last) further, statements⟩

theorem follows_bodyAt (hf : ReadsFunctions function? F) {i : List String × List Declaration}
    {N M : Nat} {name : String} (seen : headKind ts = .variable name)
    (further : ∀ i ts, Follows (n - 1) (bodyFrom function? i N) (bodyFrom function? i M)
      (Remaining F i.1) ts) (next : Token.Kind) :
    Follows n (bodyAt function? i N name next) (bodyAt function? i M name next) (Remaining F i.1)
      ts := by
  have possible : Possible (Remaining F (name :: i.1)) := possible_remaining hf
  unfold bodyAt
  split
  · exact follows_closing hf i.2
  · rename_i goes
    refine .mono (.bind_within (follows_variableDeclaration seen) fun d rest ran =>
      (further (name :: i.1, i.2 ++ [d]) rest).weaken ?_) fun _ _ =>
        remaining_of_variable (not_or.mp goes).1
    have less := (variableDeclaration_sound ran).2
    omega

theorem follows_bodyWith (hf : ReadsFunctions function? F)
    (h : ∀ f, function? = some f → ∀ ts, headKind ts = .keyword .function →
      Follows n f f (Any F) ts) :
    Follows n (bodyWith function?) (bodyWith function?) (Remaining F []) ts := by
  have whole : bodyWith function? = fun us => bodyFrom function? ([], []) us.length us := rfl
  have possible : ∀ declared, Possible (Remaining F declared) := fun _ => possible_remaining hf
  rw [whole]
  refine follows_measured (f := bodyFrom function? ([], [])) (g := bodyFrom function? ([], []))
    fun m N M hm hN hM => ?_
  refine follows_upTo (n := n) (f := bodyFrom function?) (g := bodyFrom function?)
    (E := fun i => Remaining F i.1) (fun i ts => ?_) ?_ hm hN hM ([], []) ts
  · rw [bodyFrom_zero]
    exact (follows_closing (n := 0) hf i.2).toViable
  · intro m N M hm further i ts
    rw [bodyFrom_succ, bodyFrom_succ]
    refine .look ?_
    split
    · rename_i f seen
      refine .mono (.bind_within ((h f rfl ts seen).weaken hm) fun d rest ran =>
        (further (i.1, i.2 ++ [d]) rest).weaken ?_) fun _ _ => remaining_of_function hf
      have less := (hf.sound f rfl _ _ _ seen ran).2
      omega
    · rename_i name seen
      cases ts with
      | nil => cases seen
      | cons t us =>
        refine .lookAhead (follows_bodyAt hf seen further _) (fun u same => ?_)
          fun u same => bodyAt_forgets seen same i N _
        have seen : headKind (u :: us) = .variable name := same.trans seen
        exact (follows_bodyAt hf seen further _).toViable
    · exact follows_closing hf i.2

end Bodies

theorem follows_identifier :
    Follows n identifier identifier (Any fun f => Spells [.identifier f]) ts := by
  refine .look ?_
  split
  · rename_i seen
    exact .mono (.skip seen (by simp) .pure) fun _ _ ⟨_, first, same⟩ => ⟨_, same ▸ first⟩
  · exact .throw

theorem follows_variableName :
    Follows n variableName variableName (Any fun x => Spells [.variable x]) ts := by
  refine .look ?_
  split
  · rename_i seen
    exact .mono (.skip seen (by simp) .pure) fun _ _ ⟨_, first, same⟩ => ⟨_, same ▸ first⟩
  · exact .throw

theorem follows_parameters : Follows n parameters parameters (Any Parameters) ts := by
  refine .look ?_
  split
  · exact (follows_commaSeparated variableName_sound.shortens
      fun _ => follows_variableName).mono fun _ _ ⟨ps, h⟩ => ⟨ps, .some h⟩
  · exact Follows.pure.mono fun _ _ same => ⟨[], same ▸ .none⟩

theorem follows_functionDeclaration (seen : headKind ts = .keyword .function) :
    Follows n functionDeclaration functionDeclaration (Any Function) ts := by
  have possible : Possible (Remaining noFunction []) := possible_remaining readsFunctions_none
  refine .mono (.skip seen (by simp) (.bind follows_identifier fun _ _ _ =>
    .bind (follows_expect (by simp)) fun _ _ _ => .bind follows_parameters fun _ _ _ =>
      .bind (follows_expectAll (by simp)) fun _ _ _ =>
        .bind (follows_bodyWith readsFunctions_none (by simp)) fun _ _ _ =>
          .bind_pure (follows_expect (by simp)))) ?_
  rintro ts rest ⟨us, first, vs, ⟨f, name⟩, ws, paren, xs, ⟨ps, passed⟩, ys, middle, zs, body, last⟩
  obtain ⟨ds, us', ss, declarations, statements⟩ := body (.inr (Spells.headKind last))
  exact ⟨_, .mk (Spells.cons first (Spells.cons name paren)) passed middle
    (.mk declarations statements) last⟩

/-! ## Programs -/

theorem follows_program : Follows n program program
    (Then (Spells [.openTag]) (Then (Remaining Function []) (Spells [.closeTag]))) ts := by
  have possible : Possible (Remaining Function []) := possible_remaining readsFunctions_some
  refine .bind (follows_expect (by simp)) fun _ _ _ => .bind (follows_bodyWith readsFunctions_some
    ?_) fun _ _ _ => .mono (.bind (E := Spells [.closeTag]) (F := Eq) (follows_expect (by simp))
      fun _ _ _ => .look ?_) fun _ _ ⟨_, last, same⟩ => same ▸ last
  · rintro f ⟨⟩ ts seen
    exact follows_functionDeclaration seen
  · split
    · exact .pure
    · exact .throw

/-- The end of the source completes a program. -/
theorem derives_of_whole {passed : List Token}
    (h : Whole (Then (Spells [.openTag]) (Then (Remaining Function []) (Spells [.closeTag])))
      passed) : ∃ p, Derives (passed ++ [tokenOf .endOfSource]) p := by
  obtain ⟨us, first, vs, body, last⟩ := h [tokenOf .endOfSource]
  obtain ⟨ds, ws, ss, declarations, statements⟩ := body (.inl (Spells.headKind last))
  exact ⟨⟨ds, ss⟩, us, vs, first, .mk declarations statements,
    Spells.cons last ⟨_, _, rfl, rfl, rfl⟩⟩

/-- The parser fails at the same token whatever follows it, and something else could stand there
instead. -/
theorem program_error {e : Expectation} {t : Token} {after : List Token}
    (h : program ts = .error e (t :: after)) : ∃ before, ts = before ++ t :: after ∧
      (∀ more, program (before ++ t :: more) = .error e (t :: more)) ∧
      ∃ more p, Derives (before ++ more) p := by
  obtain ⟨before, more, whole, part⟩ := (follows_program (n := 0)).error e _ h
  refine ⟨before, whole, fun more => ?_, ?_⟩
  · exact follows_program.agrees (v := .error e) (Nat.lt_succ_self _) whole h more
  · obtain ⟨p, derives⟩ := derives_of_whole part
    rw [List.append_assoc] at derives
    exact ⟨_, p, derives⟩

/-- A parser does not step over the end of the source. -/
theorem program_error_before_end (ended : Token.Ended ts) {e : Expectation} {rest : List Token}
    (h : program ts = .error e rest) : ∃ t after, rest = t :: after := by
  obtain ⟨passed, whole, proper⟩ := (@steps_program ts).passes
  rw [left, h] at whole
  cases rest with
  | cons t after => exact ⟨t, after, rfl⟩
  | nil =>
    obtain ⟨before, last, split, kind, -⟩ := ended
    have passes : last.kind.isProper = true :=
      proper last (by rw [← List.append_nil passed, ← whole, split]; simp)
    rw [kind] at passes
    cases passes

end Parser

/-- Where an error is reported. -/
def ParseError.location : ParseError → Location
  | .unrecognized u => u.location
  | .unexpected _ _ l => l

theorem ParseError.location_ofExpectation (source : List Char) (t : Token) (after : List Token)
    (e : Expectation) :
    (ParseError.ofExpectation source (t :: after) e).location = t.span.location source := by
  unfold ParseError.ofExpectation
  dsimp only
  split <;> rfl

/-- An error is reported at a token such that the tokens before it begin some program, but together
with it they begin none. -/
theorem parse_error_earliest {source : String} {err : ParseError}
    (h : Program.parse source = .error err) : ∃ before t after e,
      Token.scan source = before ++ t :: after ∧
      Parser.program (Token.scan source) = .error e (t :: after) ∧
      err.location = t.span.location source.toList ∧
      (∀ more p rest, Parser.program (before ++ t :: more) ≠ .ok p rest) ∧
      ∃ more p rest, Parser.program (before ++ more) = .ok p rest := by
  unfold Program.parse Program.ofTokens at h
  cases ran : Parser.program (Token.scan source) with
  | ok p rest => simp [ran] at h
  | error e rest =>
    rw [ran] at h
    obtain ⟨t, after, rfl⟩ := Parser.program_error_before_end (Token.ended_scan source) ran
    obtain ⟨before, whole, fails, more, p, derives⟩ := Parser.program_error ran
    obtain ⟨rest, accepted⟩ := Parser.program_complete derives
    refine ⟨before, t, after, e, whole, rfl, ?_, fun more p rest found => ?_,
      more, p, rest, accepted⟩
    · rw [← Except.error.inj h]
      exact ParseError.location_ofExpectation source.toList t after e
    · rw [fails more] at found
      cases found

/-- The second parenthesis is not closed. -/
def openGroup : String := "<?php $a = 1;\n while (($a) > 0 \x7b $a = $a - 1; \x7d ?>"

theorem parse_error_earliest_openGroup :
    Program.parse openGroup = .error (.unexpected (.kind .rightParen) .leftBrace ⟨2, 18⟩) ∧
    ∃ before t after e,
      Token.scan openGroup = before ++ t :: after ∧
      Parser.program (Token.scan openGroup) = .error e (t :: after) ∧
      ⟨2, 18⟩ = t.span.location openGroup.toList ∧
      (∀ more p rest, Parser.program (before ++ t :: more) ≠ .ok p rest) ∧
      ∃ more p rest, Parser.program (before ++ more) = .ok p rest := by
  have failed : Program.parse openGroup
      = .error (.unexpected (.kind .rightParen) .leftBrace ⟨2, 18⟩) := by
    have checked : (match Program.parse openGroup with
        | .ok _ => none
        | .error err => some err)
          = some (.unexpected (.kind .rightParen) .leftBrace ⟨2, 18⟩) := by decide +kernel
    split at checked
    · cases checked
    · rename_i found
      rw [found, Option.some.inj checked]
  exact ⟨failed, parse_error_earliest failed⟩

end FlatStack
