import FlatStack.Proofs.ParserSoundness

/-!
# What can be derived is what the parser takes

One token decides each step of the parser. So if a part can be derived at the
front of some tokens, and the token behind it cannot continue the part, then
the parser takes this part and no other.
-/

set_option autoImplicit false

namespace FlatStack.Parser

open Grammar Stateful

variable {α : Type} {x : Parser α} {D : Reading α} {F : Token.Kind → Prop} {n m : Nat}
  {ts us rest : List Token} {a : α} {as : List α} {k : Token.Kind} {ks : List Token.Kind}

/-- Of fewer than `n` tokens the parser takes what reads as `D` and stops at a
token of a kind in `F`. -/
def Complete (n : Nat) (x : Parser α) (D : Reading α) (F : Token.Kind → Prop) : Prop :=
  ∀ ts a rest, ts.length < n → D a ts rest → F (headKind rest) → x ts = .ok a rest

/-- A parser that succeeds takes something. -/
def Shortens (x : Parser α) : Prop := ∀ ts a rest, x ts = .ok a rest → rest.length < ts.length

theorem Sound.shortens (h : Sound x D) : Shortens x := fun ts a rest hx => (h ts a rest hx).2

/-! ## Tokens -/

theorem current_of (h : headKind ts = k) : current ts = .ok k ts := current_ok.mpr ⟨h, rfl⟩

theorem pure_of : (pure a : Parser α) ts = .ok a ts := rfl

theorem Spells.headKind (h : Spells (k :: ks) ts rest) : Parser.headKind ts = k := by
  obtain ⟨t, us, rfl, hk, _⟩ := h
  exact hk

theorem Spells.length (h : Spells ks ts rest) : rest.length + ks.length = ts.length := by
  induction ks generalizing ts with
  | nil => exact congrArg List.length h.symm
  | cons k ks ih =>
    obtain ⟨t, us, rfl, _, h⟩ := h
    have := ih h
    simp only [List.length_cons]
    omega

theorem Spells.shorter (h : Spells [k] ts rest) : rest.length < ts.length := by
  have := Spells.length h
  rw [List.length_singleton] at this
  omega

theorem Spells.split (h : Spells (k :: ks) ts rest) :
    ∃ us, Spells [k] ts us ∧ Spells ks us rest := by
  obtain ⟨t, us, rfl, hk, h⟩ := h
  exact ⟨us, ⟨t, us, rfl, hk, rfl⟩, h⟩

theorem Spells.advance (h : Spells [k] ts rest) : Parser.advance ts = .ok () rest := by
  obtain ⟨t, us, rfl, _, rfl⟩ := h
  rfl

theorem expect_complete (h : Spells [k] ts rest) : expect k ts = .ok () rest := by
  refine ok_bind (current_of (Spells.headKind h)) ?_
  rw [if_pos rfl]
  exact Spells.advance h

theorem expectAll_complete (h : Spells ks ts rest) : expectAll ks ts = .ok () rest := by
  induction ks generalizing ts with
  | nil => exact pure_ok.mpr ⟨rfl, h⟩
  | cons k ks ih =>
    obtain ⟨us, first, others⟩ := Spells.split h
    exact ok_bind (expect_complete first) (ih others)

theorem identifier_complete {f : String} (h : Spells [.identifier f] ts rest) :
    identifier ts = .ok f rest :=
  ok_bind (current_of (Spells.headKind h)) (ok_bind (Spells.advance h) pure_of)

theorem variableName_complete {y : String} (h : Spells [.variable y] ts rest) :
    variableName ts = .ok y rest :=
  ok_bind (current_of (Spells.headKind h)) (ok_bind (Spells.advance h) pure_of)

/-! ## Parsers from parsers -/

theorem unfold_complete {step : Parser α → Parser α} (sound : ∀ x, Sound x D → Sound (step x) D)
    (h : ∀ n x, Sound x D → Complete n x D F → Complete (n + 1) (step x) D F) (n : Nat) :
    Complete n (Parser.unfold step n) D F := by
  induction n with
  | zero => exact fun ts a rest less => absurd less (Nat.not_lt_zero _)
  | succ n ih => exact h n _ (unfold_sound sound n) ih

theorem nested_complete {step : Parser α → Parser α} (sound : ∀ x, Sound x D → Sound (step x) D)
    (h : ∀ n x, Sound x D → Complete n x D F → Complete (n + 1) (step x) D F)
    (hd : D a ts rest) (stop : F (headKind rest)) : nested step ts = .ok a rest :=
  unfold_complete sound h (ts.length + 1) ts a rest (Nat.lt_succ_self _) hd stop

section Chains

variable {operator? : Token.Kind → Option BinaryOp} {x : Parser Expr} {D : Reading Expr}
  {left e : Expr}

/-- Behind an operand stands an operator, or what stands behind the whole chain. -/
theorem Chain.follow (h : Chain operator? D left e ts rest)
    (hop : ∀ k op, operator? k = some op → F k) (follow : F (headKind rest)) :
    F (headKind ts) := by
  cases h with
  | last => exact follow
  | more hk _ _ => exact hop _ _ hk

theorem chainUpTo_complete (short : Shortens x) (h : Complete n x D F)
    (hop : ∀ k op, operator? k = some op → F k) (hc : Chain operator? D left e ts rest)
    (stop : operator? (headKind rest) = none) (follow : F (headKind rest)) (bound : ts.length ≤ n)
    (enough : ts.length ≤ m) : chainUpTo operator? x m left ts = .ok e rest := by
  induction hc generalizing m with
  | last =>
    cases m with
    | zero => rfl
    | succ m =>
      refine ok_bind (current_of rfl) ?_
      simp only [stop]
      rfl
  | more hk hr others ih =>
    rw [List.length_cons] at bound enough
    obtain ⟨m, rfl⟩ := Nat.exists_eq_add_one_of_ne_zero (show m ≠ 0 by omega)
    have first := h _ _ _ (by omega) hr (Chain.follow others hop follow)
    have less := short _ _ _ first
    refine ok_bind (current_of rfl) ?_
    simp only [headKind, hk]
    exact ok_bind rfl (ok_bind first (ih stop follow (by omega) (by omega)))

theorem chain_complete (short : Shortens x) (h : Complete n x D F)
    (hop : ∀ k op, operator? k = some op → F k) (hc : Chain operator? D left e ts rest)
    (stop : operator? (headKind rest) = none) (follow : F (headKind rest))
    (bound : ts.length ≤ n) : chain operator? x left ts = .ok e rest :=
  chainUpTo_complete short h hop hc stop follow bound le_rfl

end Chains

section Many

variable {starts : Token.Kind → Bool}

theorem Repeated.follow (h : Repeated D as ts rest)
    (hstarts : ∀ a ts us, D a ts us → starts (headKind ts) = true)
    (hF : ∀ k, starts k = true → F k) (follow : F (headKind rest)) : F (headKind ts) := by
  cases h with
  | none => exact follow
  | more first _ => exact hF _ (hstarts _ _ _ first)

theorem manyUpTo_complete (short : Shortens x) (h : Complete n x D F)
    (hstarts : ∀ a ts us, D a ts us → starts (headKind ts) = true)
    (hF : ∀ k, starts k = true → F k) (hr : Repeated D as ts rest)
    (stop : starts (headKind rest) = false) (follow : F (headKind rest)) (bound : ts.length < n)
    (enough : ts.length ≤ m) : manyUpTo starts x m ts = .ok as rest := by
  induction hr generalizing m with
  | none =>
    cases m with
    | zero => rfl
    | succ m =>
      refine ok_bind (current_of rfl) ?_
      simp only [stop]
      rfl
  | more hd others ih =>
    have first := h _ _ _ bound hd (Repeated.follow others hstarts hF follow)
    have less := short _ _ _ first
    obtain ⟨m, rfl⟩ := Nat.exists_eq_add_one_of_ne_zero (show m ≠ 0 by omega)
    refine ok_bind (current_of rfl) ?_
    rw [if_pos (hstarts _ _ _ hd)]
    exact ok_bind first (ok_bind (ih stop follow (by omega) (by omega)) pure_of)

theorem many_complete (short : Shortens x) (h : Complete n x D F)
    (hstarts : ∀ a ts us, D a ts us → starts (headKind ts) = true)
    (hF : ∀ k, starts k = true → F k) (hr : Repeated D as ts rest)
    (stop : starts (headKind rest) = false) (follow : F (headKind rest)) (bound : ts.length < n) :
    many starts x ts = .ok as rest :=
  manyUpTo_complete short h hstarts hF hr stop follow bound le_rfl

/-- An item behind a comma. -/
def Further (D : Reading α) : Reading α := fun a ts rest =>
  ∃ us, Spells [.comma] ts us ∧ D a us rest

theorem Separated.split (h : Separated D as ts rest) :
    ∃ a bs us, as = a :: bs ∧ D a ts us ∧ Repeated (Further D) bs us rest := by
  induction h with
  | one first => exact ⟨_, [], _, rfl, first, .none⟩
  | more first comma _ ih =>
    obtain ⟨b, bs, us, rfl, second, others⟩ := ih
    exact ⟨_, b :: bs, _, rfl, first, .more ⟨_, comma, second⟩ others⟩

theorem Shortens.behind (short : Shortens x) : Shortens (do advance; x) := by
  intro ts a rest hx
  obtain ⟨_, us, ha, hx⟩ := bind_ok.mp hx
  rw [advance_ok] at ha
  subst ha
  have := short _ _ _ hx
  rw [List.length_tail] at this
  omega

theorem commaSeparated_complete (short : Shortens x) (h : Complete n x D F) (hF : F .comma)
    (hs : Separated D as ts rest) (stop : headKind rest ≠ .comma) (follow : F (headKind rest))
    (bound : ts.length < n) : commaSeparated x ts = .ok as rest := by
  obtain ⟨a, bs, us, rfl, first, others⟩ := Separated.split hs
  have further : Complete n (do advance; x) (Further D) F := by
    rintro ts b rest less ⟨us, comma, hd⟩ follow
    have := Spells.shorter comma
    exact ok_bind (Spells.advance comma) (h _ _ _ (by omega) hd follow)
  have commas : ∀ b ts us, Further D b ts us → (headKind ts == .comma) = true := by
    rintro b ts us ⟨_, comma, _⟩
    exact beq_iff_eq.mpr (Spells.headKind comma)
  have after : ∀ k : Token.Kind, (k == .comma) = true → F k := by
    intro k hk
    rwa [beq_iff_eq.mp hk]
  have hx := h _ _ _ bound first (Repeated.follow others commas after follow)
  have less := short _ _ _ hx
  exact ok_bind hx (ok_bind (many_complete short.behind further commas after others
    (by simpa using stop) follow (by omega)) pure_of)

end Many

/-! ## Expressions -/

/-- The kinds that an expression can begin with. -/
def startsExpression : Token.Kind → Bool
  | .keyword .floatval | .minus => true
  | .variable _ | .number _ | .identifier _ | .leftParen => true
  | _ => false

/-- The kinds that end a term, if they stand behind it. -/
def EndsTerm (k : Token.Kind) : Prop := multiplicative? k = none

def EndsExpression (k : Token.Kind) : Prop := EndsTerm k ∧ additive? k = none

theorem endsTerm_of_additive {op : BinaryOp} (h : additive? k = some op) : EndsTerm k := by
  unfold additive? at h
  split at h <;> first | rfl | cases h

theorem factor_head {e : Expr} (h : Factor e ts rest) :
    startsExpression (headKind ts) = true ∧ headKind ts ≠ .minus ∧
      headKind ts ≠ .keyword .floatval := by
  cases h with
  | «variable» first | number first => simp [Spells.headKind first, startsExpression]
  | call first _ => simp [Spells.headKind first, startsExpression]
  | group first _ _ => simp [Spells.headKind first, startsExpression]

theorem term_head {e : Expr} (h : Term e ts rest) :
    startsExpression (headKind ts) = true ∧ headKind ts ≠ .keyword .floatval := by
  cases h with
  | plain first _ =>
    have := factor_head first
    exact ⟨this.1, this.2.2⟩
  | signed sign _ _ => simp [Spells.headKind sign, startsExpression]

theorem expression_head {e : Expr} (h : Expression e ts rest) :
    startsExpression (headKind ts) = true := by
  cases h with
  | input spelled => simp [Spells.headKind spelled, startsExpression]
  | sum first _ => exact (term_head first).1

theorem separated_head {es : List Expr} (h : Separated Expression es ts rest) :
    startsExpression (headKind ts) = true := by
  obtain ⟨a, bs, us, rfl, first, _⟩ := Separated.split h
  exact expression_head first

theorem ne_of_startsExpression (h : startsExpression (headKind ts) = true)
    (hk : startsExpression k = false) : headKind ts ≠ k := by
  rintro rfl
  rw [h] at hk
  cases hk

section Expressions

variable {x : Parser Expr}

theorem argumentsWith_complete (sound : Sound x Expression)
    (h : Complete n x Expression EndsExpression) :
    Complete (n + 1) (argumentsWith x) Arguments fun _ => True := by
  intro ts es rest bound ha _
  cases ha with
  | none spelled =>
    obtain ⟨us, first, last⟩ := Spells.split spelled
    refine ok_bind (expect_complete first) (ok_bind (current_of (Spells.headKind last)) ?_)
    rw [if_pos rfl]
    exact ok_bind pure_of (ok_bind (expect_complete last) pure_of)
  | some first separated last =>
    have less := Spells.shorter first
    have ends := Spells.headKind last
    have inner := commaSeparated_complete sound.shortens h ⟨rfl, rfl⟩ separated (by simp [ends])
      (by rw [ends]; exact ⟨rfl, rfl⟩) (by omega)
    refine ok_bind (expect_complete first) (ok_bind (current_of rfl) ?_)
    rw [if_neg (ne_of_startsExpression (separated_head separated) rfl)]
    exact ok_bind inner (ok_bind (expect_complete last) pure_of)

theorem factorWith_complete (sound : Sound x Expression)
    (h : Complete n x Expression EndsExpression) :
    Complete (n + 1) (factorWith x) Factor fun _ => True := by
  intro ts e rest bound hf _
  cases hf with
  | «variable» first =>
    exact ok_bind (current_of (Spells.headKind first)) (ok_bind (Spells.advance first) pure_of)
  | number first =>
    exact ok_bind (current_of (Spells.headKind first)) (ok_bind (Spells.advance first) pure_of)
  | call first others =>
    have less := Spells.shorter first
    exact ok_bind (current_of (Spells.headKind first)) (ok_bind (Spells.advance first)
      (ok_bind (argumentsWith_complete sound h _ _ _ (by omega) others trivial) pure_of))
  | group first inner last =>
    have less := Spells.shorter first
    have found := h _ _ _ (by omega) inner (by rw [Spells.headKind last]; exact ⟨rfl, rfl⟩)
    exact ok_bind (current_of (Spells.headKind first)) (ok_bind (Spells.advance first)
      (ok_bind found (ok_bind (expect_complete last) pure_of)))

theorem termWith_complete (sound : Sound x Expression)
    (h : Complete n x Expression EndsExpression) :
    Complete (n + 1) (termWith x) Term EndsTerm := by
  have factors := factorWith_complete sound h
  have short := (factorWith_sound sound).shortens
  intro ts e rest bound ht stop
  cases ht with
  | plain first chained =>
    have found := factors _ _ _ bound first trivial
    have less := short _ _ _ found
    refine ok_bind (ok_bind (current_of rfl) ?_) (chain_complete short factors
      (fun _ _ _ => trivial) chained stop trivial (by omega))
    rw [if_neg (factor_head first).2.1]
    exact found
  | signed sign first chained =>
    have less := Spells.shorter sign
    have found := factors _ _ _ (by omega) first trivial
    have less' := short _ _ _ found
    refine ok_bind (ok_bind (current_of (Spells.headKind sign)) ?_) (chain_complete short factors
      (fun _ _ _ => trivial) chained stop trivial (by omega))
    rw [if_pos rfl]
    exact ok_bind (Spells.advance sign) (ok_bind found pure_of)

theorem expressionWith_complete (n : Nat) (x : Parser Expr) (sound : Sound x Expression)
    (h : Complete n x Expression EndsExpression) :
    Complete (n + 1) (expressionWith x) Expression EndsExpression := by
  have terms := termWith_complete sound h
  have short := (termWith_sound sound).shortens
  intro ts e rest bound he stop
  cases he with
  | input spelled =>
    refine ok_bind (current_of (Spells.headKind spelled)) ?_
    rw [if_pos rfl]
    exact ok_bind (expectAll_complete spelled) pure_of
  | sum first chained =>
    have after := Chain.follow chained (fun _ _ => endsTerm_of_additive) stop.1
    have found := terms _ _ _ bound first after
    have less := short _ _ _ found
    refine ok_bind (current_of rfl) ?_
    rw [if_neg (term_head first).2]
    exact ok_bind found (chain_complete short terms (fun _ _ => endsTerm_of_additive) chained
      stop.2 stop.1 (by omega))

end Expressions

theorem expression_complete {e : Expr} (h : Expression e ts rest)
    (stop : EndsExpression (headKind rest)) : expression ts = .ok e rest :=
  nested_complete expressionWith_sound expressionWith_complete h stop

theorem arguments_complete {es : List Expr} (h : Arguments es ts rest) :
    arguments ts = .ok es rest :=
  argumentsWith_complete expression_sound (n := ts.length)
    (fun _ _ _ _ hd stop => expression_complete hd stop) _ _ _ (Nat.lt_succ_self _) h trivial

theorem factors_complete : Complete n factor Factor fun _ => True :=
  fun ts _ _ _ hd stop => factorWith_complete expression_sound (n := ts.length)
    (fun _ _ _ _ hd stop => expression_complete hd stop) _ _ _ (Nat.lt_succ_self _) hd stop

theorem terms_complete : Complete n term Term EndsTerm :=
  fun ts _ _ _ hd stop => termWith_complete expression_sound (n := ts.length)
    (fun _ _ _ _ hd stop => expression_complete hd stop) _ _ _ (Nat.lt_succ_self _) hd stop

/-! ## Conditions -/

def EndsNegation (k : Token.Kind) : Prop := EndsExpression k ∧ relational? k = none

def EndsConjunction (k : Token.Kind) : Prop := EndsNegation k ∧ andOperator? k = none

def EndsCondition (k : Token.Kind) : Prop := EndsConjunction k ∧ orOperator? k = none

theorem endsNegation_of_and {op : BinaryOp} (h : andOperator? k = some op) : EndsNegation k := by
  unfold andOperator? at h
  split at h
  · rename_i hk
    rw [hk]
    exact ⟨⟨rfl, rfl⟩, rfl⟩
  · cases h

theorem endsConjunction_of_or {op : BinaryOp} (h : orOperator? k = some op) :
    EndsConjunction k := by
  unfold orOperator? at h
  split at h
  · rename_i hk
    rw [hk]
    exact ⟨⟨⟨rfl, rfl⟩, rfl⟩, rfl⟩
  · cases h

theorem endsCondition_rightParen : EndsCondition .rightParen := ⟨⟨⟨⟨rfl, rfl⟩, rfl⟩, rfl⟩, rfl⟩

/-- Behind what is compared stands a relation, or what stands behind the comparison. -/
theorem Comparison.follow {left e : Expr} (h : Comparison left e ts rest)
    (stop : EndsExpression (headKind rest)) : EndsExpression (headKind ts) := by
  cases h with
  | none => exact stop
  | some first _ =>
    rw [Spells.headKind first]
    exact ⟨rfl, rfl⟩

theorem relation_complete {left e : Expr} (h : Comparison left e ts rest)
    (stop : EndsNegation (headKind rest)) : relation left ts = .ok e rest := by
  refine ok_bind (current_of rfl) ?_
  cases h with
  | none =>
    simp only [stop.2]
    rfl
  | some first second =>
    simp only [Spells.headKind first, relational?]
    exact ok_bind (Spells.advance first) (ok_bind (expression_complete second stop.1) pure_of)

section Conditions

variable {x : Parser Expr}

theorem conjunction_complete (sound : Sound x Negation) (h : Complete n x Negation EndsNegation) :
    Complete n (disjunctionWith.conjunction x) Conjunction EndsConjunction := by
  rintro ts e rest bound ⟨first, chained⟩ stop
  have after := Chain.follow chained (fun _ _ => endsNegation_of_and) stop.1
  have found := h _ _ _ bound first after
  have less := sound.shortens _ _ _ found
  exact ok_bind found (chain_complete sound.shortens h (fun _ _ => endsNegation_of_and) chained
    stop.2 stop.1 (by omega))

theorem disjunctionWith_complete (sound : Sound x Negation)
    (h : Complete n x Negation EndsNegation) :
    Complete n (disjunctionWith x) Condition EndsCondition := by
  have conjunctions := conjunction_complete sound h
  have short := (conjunction_sound sound).shortens
  rintro ts e rest bound ⟨first, chained⟩ stop
  have after := Chain.follow chained (fun _ _ => endsConjunction_of_or) stop.1
  have found := conjunctions _ _ _ bound first after
  have less := short _ _ _ found
  exact ok_bind found (chain_complete short conjunctions (fun _ _ => endsConjunction_of_or) chained
    stop.2 stop.1 (by omega))

theorem negationWith_complete (n : Nat) (x : Parser Expr) (sound : Sound x Negation)
    (h : Complete n x Negation EndsNegation) :
    Complete (n + 1) (negationWith x) Negation EndsNegation := by
  intro ts e rest bound hn stop
  cases hn with
  | not first second =>
    have less := Spells.shorter first
    exact ok_bind (current_of (Spells.headKind first)) (ok_bind (Spells.advance first)
      (ok_bind (h _ _ _ (by omega) second stop) pure_of))
  | group first inner last factors terms compared =>
    have less := Spells.shorter first
    have end₁ := Comparison.follow compared stop.1
    have end₂ := Chain.follow terms (fun _ _ => endsTerm_of_additive) end₁.1
    have found := disjunctionWith_complete sound h _ _ _ (by omega) inner
      (by rw [Spells.headKind last]; exact endsCondition_rightParen)
    have product := chain_complete factor_sound.shortens factors_complete (fun _ _ _ => trivial)
      factors end₂ trivial le_rfl
    have sum := chain_complete term_sound.shortens terms_complete
      (fun _ _ => endsTerm_of_additive) terms end₁.2 end₁.1 le_rfl
    exact ok_bind (current_of (Spells.headKind first)) (ok_bind (Spells.advance first)
      (ok_bind found (ok_bind (expect_complete last) (ok_bind product (ok_bind sum
        (relation_complete compared stop))))))
  | plain unparenthesized first compared =>
    have found := expression_complete first (Comparison.follow compared stop.1)
    have begins := expression_head first
    obtain ⟨k, hk⟩ : ∃ k, headKind ts = k := ⟨_, rfl⟩
    rw [hk] at begins unparenthesized
    refine ok_bind (current_of hk) ?_
    split
    · cases begins
    · exact absurd rfl unparenthesized
    · exact ok_bind found (relation_complete compared stop)

end Conditions

theorem condition_complete {e : Expr} (h : Condition e ts rest)
    (stop : EndsCondition (headKind rest)) : condition ts = .ok e rest :=
  disjunctionWith_complete (n := ts.length + 1) negation_sound
    (fun _ _ _ _ hd stop => nested_complete negationWith_sound negationWith_complete hd stop)
    _ _ _ (Nat.lt_succ_self _) h stop

/-! ## Statements -/

theorem parenthesized_complete {c : Expr} {vs ws : List Token} (first : Spells [.leftParen] ts us)
    (inner : Condition c us vs) (last : Spells [.rightParen] vs ws) :
    parenthesized ts = .ok c ws :=
  ok_bind (expect_complete first) (ok_bind (condition_complete inner
    (by rw [Spells.headKind last]; exact endsCondition_rightParen))
    (ok_bind (expect_complete last) pure_of))

/-- An `else` would go on with the statement before it. -/
def EndsStatement (k : Token.Kind) : Prop := k ≠ .keyword .otherwise

theorem endsStatement_of_starts (h : startsStatement k = true) : EndsStatement k := by
  rintro rfl
  cases h

theorem sentence_head {s : Statement} (h : Sentence s ts rest) :
    startsStatement (headKind ts) = true := by
  cases h with
  | echo first _ _ | assign first _ _ | call first _ _ | sigilCall first _ _
  | ifThen first _ _ _ | loop first _ _ _ | ifElse first _ _ _ _ _ =>
    rw [Spells.headKind first]
    rfl

theorem arguments_head {es : List Expr} (h : Arguments es ts rest) : headKind ts = .leftParen := by
  cases h with
  | none spelled => exact Spells.headKind spelled
  | some first _ _ => exact Spells.headKind first

theorem callStatement_complete {f : String} {es : List Expr} (passed : Arguments es ts us)
    (last : Spells [.semicolon] us rest) : callStatement f ts = .ok (.call f es) rest :=
  ok_bind (arguments_complete passed) (ok_bind (expect_complete last) pure_of)

section Statements

variable {x : Parser Statement}

theorem blockWith_complete (sound : Sound x Sentence) (h : Complete n x Sentence EndsStatement) :
    Complete (n + 1) (blockWith x) Block fun _ => True := by
  rintro ts ss rest bound ⟨first, inner, last⟩ _
  have less := Spells.shorter first
  have ends := Spells.headKind last
  have found := many_complete sound.shortens h (fun _ _ _ => sentence_head)
    (fun _ => endsStatement_of_starts) inner (by rw [ends]; rfl)
    (by rw [ends]; simp [EndsStatement])
    (by omega)
  exact ok_bind (expect_complete first) (ok_bind found (ok_bind (expect_complete last) pure_of))

theorem statementWith_complete (n : Nat) (x : Parser Statement) (sound : Sound x Sentence)
    (h : Complete n x Sentence EndsStatement) :
    Complete (n + 1) (statementWith x) Sentence EndsStatement := by
  have blocks := blockWith_complete sound h
  have short := (blockWith_sound sound).shortens
  intro ts s rest bound hs stop
  cases hs with
  | echo first value last =>
    have found := expression_complete value (by rw [Spells.headKind last]; exact ⟨rfl, rfl⟩)
    exact ok_bind (current_of (Spells.headKind first)) (ok_bind (Spells.advance first)
      (ok_bind found (ok_bind (expectAll_complete last) pure_of)))
  | ifThen first inner last body =>
    obtain ⟨vs, keyword, paren⟩ := Spells.split first
    have hc := parenthesized_complete paren inner last
    have less := (parenthesized_sound hc).2
    have less' := Spells.shorter keyword
    have hb := blocks _ _ _ (by omega) body trivial
    refine ok_bind (current_of (Spells.headKind keyword)) (ok_bind (Spells.advance keyword)
      (ok_bind hc (ok_bind hb (ok_bind (current_of rfl) ?_))))
    rw [if_neg stop]
    exact pure_of
  | ifElse first inner last body other otherwise =>
    obtain ⟨vs, keyword, paren⟩ := Spells.split first
    have hc := parenthesized_complete paren inner last
    have less := (parenthesized_sound hc).2
    have less₁ := Spells.shorter keyword
    have hb := blocks _ _ _ (by omega) body trivial
    have less₂ := short _ _ _ hb
    have less₃ := Spells.shorter other
    have ho := blocks _ _ _ (by omega) otherwise trivial
    refine ok_bind (current_of (Spells.headKind keyword)) (ok_bind (Spells.advance keyword)
      (ok_bind hc (ok_bind hb (ok_bind (current_of (Spells.headKind other)) ?_))))
    rw [if_pos rfl]
    exact ok_bind (Spells.advance other) (ok_bind ho pure_of)
  | loop first inner last body =>
    obtain ⟨vs, keyword, paren⟩ := Spells.split first
    have hc := parenthesized_complete paren inner last
    have less := (parenthesized_sound hc).2
    have less' := Spells.shorter keyword
    have hb := blocks _ _ _ (by omega) body trivial
    exact ok_bind (current_of (Spells.headKind keyword)) (ok_bind (Spells.advance keyword)
      (ok_bind hc (ok_bind hb pure_of)))
  | assign first value last =>
    obtain ⟨vs, name, equals⟩ := Spells.split first
    have found := expression_complete value (by rw [Spells.headKind last]; exact ⟨rfl, rfl⟩)
    refine ok_bind (current_of (Spells.headKind name)) (ok_bind (variableName_complete name) ?_)
    exact ok_bind (current_of (Spells.headKind equals)) (ok_bind (Spells.advance equals)
      (ok_bind found (ok_bind (expect_complete last) pure_of)))
  | call first passed last =>
    exact ok_bind (current_of (Spells.headKind first)) (ok_bind (Spells.advance first)
      (callStatement_complete passed last))
  | sigilCall first passed last =>
    refine ok_bind (current_of (Spells.headKind first)) (ok_bind (variableName_complete first) ?_)
    exact ok_bind (current_of (arguments_head passed)) (callStatement_complete passed last)

end Statements

theorem statement_complete {s : Statement} (h : Sentence s ts rest)
    (stop : EndsStatement (headKind rest)) : statement ts = .ok s rest :=
  nested_complete statementWith_sound statementWith_complete h stop

theorem statements_complete {ss : List Statement} (h : Repeated Sentence ss ts rest)
    (stop : startsStatement (headKind rest) = false) (follow : EndsStatement (headKind rest)) :
    statements ts = .ok ss rest :=
  many_complete statement_sound.shortens (n := ts.length + 1)
    (fun _ _ _ _ hd stop => statement_complete hd stop) (fun _ _ _ => sentence_head)
    (fun _ => endsStatement_of_starts) h stop follow (Nat.lt_succ_self _)

end FlatStack.Parser
