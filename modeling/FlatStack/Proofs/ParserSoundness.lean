import FlatStack.Proofs.Derivation
import FlatStack.Proofs.Stateful

/-!
# What the parser takes can be derived

For each parser of the grammar: when it succeeds, the part it yields stands at
the front of its tokens, and it has taken at least one of them.
-/

set_option autoImplicit false

namespace FlatStack.Parser

open Grammar Stateful

variable {α : Type} {x : Parser α} {D : Reading α} {ts us rest : List Token} {a : α}
  {k : Token.Kind}

/-- What the parser takes reads as `D`, and it takes something. -/
def Sound (x : Parser α) (D : Reading α) : Prop :=
  ∀ ts a rest, x ts = .ok a rest → D a ts rest ∧ rest.length < ts.length

/-! ## Tokens -/

theorem current_ok {k : Token.Kind} : current ts = .ok k rest ↔ headKind ts = k ∧ ts = rest := by
  unfold current
  simp

theorem advance_ok {u : Unit} : advance ts = .ok u rest ↔ ts.tail = rest := by
  unfold advance
  simp

/-- There is a token if its kind is not the end of the source. -/
theorem spells_head (h : headKind ts = k) (hk : k ≠ .endOfSource) :
    Spells [k] ts ts.tail ∧ ts.tail.length < ts.length := by
  cases ts with
  | nil => exact absurd h.symm hk
  | cons t ts => exact ⟨⟨t, ts, rfl, h, rfl⟩, Nat.lt_succ_self _⟩

/-- Where an operator is found the source has not ended. -/
theorem operator_ne_end {operator? : Token.Kind → Option BinaryOp} {op : BinaryOp}
    {k : Token.Kind} (hend : operator? .endOfSource = none) (found : operator? k = some op) :
    k ≠ .endOfSource := by
  rintro rfl
  rw [hend] at found
  cases found

theorem Spells.cons {ks : List Token.Kind} (h : Spells [k] ts us) (h' : Spells ks us rest) :
    Spells (k :: ks) ts rest := by
  obtain ⟨t, vs, rfl, hk, rfl⟩ := h
  exact ⟨t, vs, rfl, hk, h'⟩

theorem expect_sound (hk : k ≠ .endOfSource) : Sound (expect k) fun _ => Spells [k] := by
  intro ts u rest h
  rw [expect, bind_ok] at h
  obtain ⟨k', us, hc, h⟩ := h
  obtain ⟨hk', rfl⟩ := current_ok.mp hc
  by_cases same : k' = k
  · rw [if_pos same, advance_ok] at h
    subst h
    exact spells_head (hk'.trans same) hk
  · rw [if_neg same] at h
    exact absurd h throw_ok

theorem expectAll_sound {ks : List Token.Kind} (hks : ∀ k ∈ ks, k ≠ .endOfSource) {u : Unit}
    (h : expectAll ks ts = .ok u rest) :
    Spells ks ts rest ∧ rest.length + ks.length ≤ ts.length := by
  induction ks generalizing ts with
  | nil =>
    obtain ⟨_, rfl⟩ := pure_ok.mp h
    exact ⟨rfl, le_rfl⟩
  | cons k ks ih =>
    rw [expectAll, bind_ok] at h
    obtain ⟨_, us, hk, h⟩ := h
    obtain ⟨first, less⟩ := expect_sound (hks k List.mem_cons_self) _ _ _ hk
    obtain ⟨others, least⟩ := ih (fun k' hk' => hks k' (List.mem_cons_of_mem _ hk')) h
    refine ⟨Spells.cons first others, ?_⟩
    rw [List.length_cons]
    omega

theorem identifier_sound : Sound identifier fun f => Spells [.identifier f] := by
  intro ts f rest h
  rw [identifier, bind_ok] at h
  obtain ⟨k, us, hc, h⟩ := h
  obtain ⟨hk, rfl⟩ := current_ok.mp hc
  split at h
  · obtain ⟨_, vs, ha, h⟩ := bind_ok.mp h
    obtain ⟨rfl, rfl⟩ := pure_ok.mp h
    rw [advance_ok] at ha
    subst ha
    exact spells_head hk (by simp)
  · exact absurd h throw_ok

theorem variableName_sound : Sound variableName fun x => Spells [.variable x] := by
  intro ts f rest h
  rw [variableName, bind_ok] at h
  obtain ⟨k, us, hc, h⟩ := h
  obtain ⟨hk, rfl⟩ := current_ok.mp hc
  split at h
  · obtain ⟨_, vs, ha, h⟩ := bind_ok.mp h
    obtain ⟨rfl, rfl⟩ := pure_ok.mp h
    rw [advance_ok] at ha
    subst ha
    exact spells_head hk (by simp)
  · exact absurd h throw_ok

/-! ## Parsers from parsers -/

theorem unfold_sound {step : Parser α → Parser α} (h : ∀ x, Sound x D → Sound (step x) D)
    (n : Nat) : Sound (Parser.unfold step n) D := by
  induction n with
  | zero =>
    intro ts a rest h
    exact absurd h throw_ok
  | succ n ih => exact h _ ih

theorem nested_sound {step : Parser α → Parser α} (h : ∀ x, Sound x D → Sound (step x) D) :
    Sound (nested step) D :=
  fun ts => unfold_sound h (ts.length + 1) ts

theorem chainUpTo_sound {operator? : Token.Kind → Option BinaryOp} {operand : Parser Expr}
    {D : Reading Expr} (h : Sound operand D) (hend : operator? .endOfSource = none) {n : Nat}
    {left e : Expr} (hc : chainUpTo operator? operand n left ts = .ok e rest) :
    Chain operator? D left e ts rest ∧ rest.length ≤ ts.length := by
  induction n generalizing left ts with
  | zero =>
    obtain ⟨rfl, rfl⟩ := pure_ok.mp hc
    exact ⟨.last, le_rfl⟩
  | succ n ih =>
    rw [chainUpTo, bind_ok] at hc
    obtain ⟨k, us, hk, hc⟩ := hc
    obtain ⟨rfl, rfl⟩ := current_ok.mp hk
    cases hop : operator? (headKind ts) with
    | none =>
      simp only [hop] at hc
      obtain ⟨rfl, rfl⟩ := pure_ok.mp hc
      exact ⟨.last, le_rfl⟩
    | some op =>
      simp only [hop] at hc
      obtain ⟨_, us, ha, hafter⟩ := bind_ok.mp hc
      obtain ⟨right, vs, hr, hchain⟩ := bind_ok.mp hafter
      rw [advance_ok] at ha
      cases ts with
      | nil => simp [headKind, hend] at hop
      | cons t ts =>
        subst ha
        obtain ⟨first, less⟩ := h _ _ _ hr
        obtain ⟨others, least⟩ := ih hchain
        refine ⟨.more hop first others, ?_⟩
        rw [List.tail_cons] at less
        rw [List.length_cons]
        omega

theorem chain_sound {operator? : Token.Kind → Option BinaryOp} {operand : Parser Expr}
    {D : Reading Expr} (h : Sound operand D) (hend : operator? .endOfSource = none)
    {left e : Expr} (hc : chain operator? operand left ts = .ok e rest) :
    Chain operator? D left e ts rest ∧ rest.length ≤ ts.length :=
  chainUpTo_sound h hend hc

theorem manyUpTo_sound {starts : Token.Kind → Bool} (h : Sound x D) {n : Nat} {as : List α}
    (hm : manyUpTo starts x n ts = .ok as rest) :
    Repeated D as ts rest ∧ rest.length ≤ ts.length := by
  induction n generalizing as ts with
  | zero =>
    obtain ⟨rfl, rfl⟩ := pure_ok.mp hm
    exact ⟨.none, le_rfl⟩
  | succ n ih =>
    rw [manyUpTo, bind_ok] at hm
    obtain ⟨k, us, hk, hm⟩ := hm
    obtain ⟨rfl, rfl⟩ := current_ok.mp hk
    split at hm
    · obtain ⟨a, us, ha, hm⟩ := bind_ok.mp hm
      obtain ⟨as, vs, has, hm⟩ := bind_ok.mp hm
      obtain ⟨rfl, rfl⟩ := pure_ok.mp hm
      obtain ⟨first, less⟩ := h _ _ _ ha
      obtain ⟨others, least⟩ := ih has
      exact ⟨.more first others, by omega⟩
    · obtain ⟨rfl, rfl⟩ := pure_ok.mp hm
      exact ⟨.none, le_rfl⟩

theorem further_sound (h : Sound x D) {n : Nat} {as : List α}
    (hm : manyUpTo (· == .comma) (do advance; x) n us = .ok as rest) (first : D a ts us) :
    Separated D (a :: as) ts rest ∧ rest.length ≤ us.length := by
  induction n generalizing a as ts us with
  | zero =>
    obtain ⟨rfl, rfl⟩ := pure_ok.mp hm
    exact ⟨.one first, le_rfl⟩
  | succ n ih =>
    rw [manyUpTo, bind_ok] at hm
    obtain ⟨k, vs, hk, hm⟩ := hm
    obtain ⟨rfl, rfl⟩ := current_ok.mp hk
    split at hm
    · rename_i comma
      obtain ⟨b, vs, hb, hm⟩ := bind_ok.mp hm
      obtain ⟨bs, ws, hbs, hm⟩ := bind_ok.mp hm
      obtain ⟨rfl, rfl⟩ := pure_ok.mp hm
      obtain ⟨_, xs, ha, hb⟩ := bind_ok.mp hb
      rw [advance_ok] at ha
      subst ha
      obtain ⟨spelled, less⟩ := spells_head (beq_iff_eq.mp comma) (by simp)
      obtain ⟨second, less'⟩ := h _ _ _ hb
      obtain ⟨others, least⟩ := ih hbs second
      exact ⟨.more first spelled others, by omega⟩
    · obtain ⟨rfl, rfl⟩ := pure_ok.mp hm
      exact ⟨.one first, le_rfl⟩

theorem commaSeparated_sound (h : Sound x D) : Sound (commaSeparated x) (Separated D) := by
  intro ts as rest hs
  rw [commaSeparated, bind_ok] at hs
  obtain ⟨a, us, ha, hs⟩ := hs
  obtain ⟨as, vs, has, hs⟩ := bind_ok.mp hs
  obtain ⟨rfl, rfl⟩ := pure_ok.mp hs
  obtain ⟨first, less⟩ := h _ _ _ ha
  obtain ⟨others, least⟩ := further_sound h has first
  exact ⟨others, by omega⟩

/-! ## Expressions -/

theorem argumentsWith_sound {x : Parser Expr} (h : Sound x Expression) :
    Sound (argumentsWith x) Arguments := by
  intro ts es rest ha
  rw [argumentsWith, bind_ok] at ha
  obtain ⟨_, us, hopen, ha⟩ := ha
  obtain ⟨first, less⟩ := expect_sound (by simp) _ _ _ hopen
  obtain ⟨k, xs, hk, ha⟩ := bind_ok.mp ha
  obtain ⟨rfl, rfl⟩ := current_ok.mp hk
  split at ha
  all_goals
    obtain ⟨as, vs, has, ha⟩ := bind_ok.mp ha
    obtain ⟨_, ws, hclose, ha⟩ := bind_ok.mp ha
    obtain ⟨rfl, rfl⟩ := pure_ok.mp ha
    obtain ⟨last, less'⟩ := expect_sound (by simp) _ _ _ hclose
  · obtain ⟨rfl, rfl⟩ := pure_ok.mp has
    exact ⟨.none (Spells.cons first last), by omega⟩
  · obtain ⟨separated, less''⟩ := commaSeparated_sound h _ _ _ has
    exact ⟨.some first separated last, by omega⟩

theorem factorWith_sound {x : Parser Expr} (h : Sound x Expression) :
    Sound (factorWith x) Factor := by
  intro ts e rest hf
  rw [factorWith, bind_ok] at hf
  obtain ⟨k, us, hc, hf⟩ := hf
  obtain ⟨hk, rfl⟩ := current_ok.mp hc
  split at hf
  · obtain ⟨_, us, ha, hf⟩ := bind_ok.mp hf
    obtain ⟨rfl, rfl⟩ := pure_ok.mp hf
    rw [advance_ok] at ha
    subst ha
    obtain ⟨first, less⟩ := spells_head hk (by simp)
    exact ⟨.variable first, less⟩
  · obtain ⟨_, us, ha, hf⟩ := bind_ok.mp hf
    obtain ⟨rfl, rfl⟩ := pure_ok.mp hf
    rw [advance_ok] at ha
    subst ha
    obtain ⟨first, less⟩ := spells_head hk (by simp)
    exact ⟨.number first, less⟩
  · obtain ⟨_, us, ha, hf⟩ := bind_ok.mp hf
    obtain ⟨as, vs, has, hf⟩ := bind_ok.mp hf
    obtain ⟨rfl, rfl⟩ := pure_ok.mp hf
    rw [advance_ok] at ha
    subst ha
    obtain ⟨first, less⟩ := spells_head hk (by simp)
    obtain ⟨others, less'⟩ := argumentsWith_sound h _ _ _ has
    exact ⟨.call first others, by omega⟩
  · obtain ⟨_, us, ha, hf⟩ := bind_ok.mp hf
    obtain ⟨e, vs, he, hf⟩ := bind_ok.mp hf
    obtain ⟨_, ws, hclose, hf⟩ := bind_ok.mp hf
    obtain ⟨rfl, rfl⟩ := pure_ok.mp hf
    rw [advance_ok] at ha
    subst ha
    obtain ⟨first, less⟩ := spells_head hk (by simp)
    obtain ⟨inner, less'⟩ := h _ _ _ he
    obtain ⟨last, less''⟩ := expect_sound (by simp) _ _ _ hclose
    exact ⟨.group first inner last, by omega⟩
  · exact absurd hf throw_ok

theorem termWith_sound {x : Parser Expr} (h : Sound x Expression) :
    Sound (termWith x) Term := by
  intro ts e rest ht
  rw [termWith, bind_ok] at ht
  obtain ⟨f, us, hf, ht⟩ := ht
  obtain ⟨chained, least⟩ := chain_sound (factorWith_sound h) rfl ht
  rw [signedFactorWith, bind_ok] at hf
  obtain ⟨k, vs, hk, hf⟩ := hf
  obtain ⟨rfl, rfl⟩ := current_ok.mp hk
  split at hf
  · rename_i minus
    obtain ⟨_, vs, ha, hf⟩ := bind_ok.mp hf
    obtain ⟨f, ws, hf', hf⟩ := bind_ok.mp hf
    obtain ⟨rfl, rfl⟩ := pure_ok.mp hf
    rw [advance_ok] at ha
    subst ha
    obtain ⟨sign, less⟩ := spells_head minus (by simp)
    obtain ⟨first, less'⟩ := factorWith_sound h _ _ _ hf'
    exact ⟨.signed sign first chained, by omega⟩
  · obtain ⟨first, less⟩ := factorWith_sound h _ _ _ hf
    exact ⟨.plain first chained, by omega⟩

theorem expressionWith_sound (x : Parser Expr) (h : Sound x Expression) :
    Sound (expressionWith x) Expression := by
  intro ts e rest he
  rw [expressionWith, bind_ok] at he
  obtain ⟨k, us, hk, he⟩ := he
  obtain ⟨rfl, rfl⟩ := current_ok.mp hk
  split at he
  · obtain ⟨_, us, ha, he⟩ := bind_ok.mp he
    obtain ⟨rfl, rfl⟩ := pure_ok.mp he
    obtain ⟨spelled, least⟩ := expectAll_sound (by simp) ha
    refine ⟨.input spelled, ?_⟩
    simp only [List.length_cons] at least
    omega
  · obtain ⟨t, us, ht, he⟩ := bind_ok.mp he
    obtain ⟨first, less⟩ := termWith_sound h _ _ _ ht
    obtain ⟨chained, least⟩ := chain_sound (termWith_sound h) rfl he
    exact ⟨.sum first chained, by omega⟩

theorem expression_sound : Sound expression Expression := nested_sound expressionWith_sound

theorem factor_sound : Sound factor Factor := factorWith_sound expression_sound

theorem term_sound : Sound term Term := termWith_sound expression_sound

theorem arguments_sound : Sound arguments Arguments := argumentsWith_sound expression_sound

/-! ## Conditions -/

theorem relation_sound {left e : Expr} (hr : relation left ts = .ok e rest) :
    Comparison left e ts rest ∧ rest.length ≤ ts.length := by
  rw [relation, bind_ok] at hr
  obtain ⟨k, us, hc, hr⟩ := hr
  obtain ⟨hk, rfl⟩ := current_ok.mp hc
  cases hop : relational? k with
  | none =>
    simp only [hop] at hr
    obtain ⟨rfl, rfl⟩ := pure_ok.mp hr
    exact ⟨.none, le_rfl⟩
  | some op =>
    simp only [hop] at hr
    obtain ⟨_, us, ha, hafter⟩ := bind_ok.mp hr
    obtain ⟨right, vs, he, hlast⟩ := bind_ok.mp hafter
    obtain ⟨rfl, rfl⟩ := pure_ok.mp hlast
    rw [advance_ok] at ha
    subst ha
    obtain ⟨r, rfl, rfl⟩ : ∃ r, k = .relation r ∧ op = .compare r := by
      unfold relational? at hop
      split at hop
      · exact ⟨_, rfl, (Option.some.inj hop).symm⟩
      · cases hop
    obtain ⟨first, less⟩ := spells_head hk (by simp)
    obtain ⟨second, less'⟩ := expression_sound _ _ _ he
    exact ⟨.some first second, by omega⟩

theorem conjunction_sound {x : Parser Expr} (h : Sound x Negation) :
    Sound (disjunctionWith.conjunction x) Conjunction := by
  intro ts e rest hc
  rw [disjunctionWith.conjunction, bind_ok] at hc
  obtain ⟨e, us, he, hc⟩ := hc
  obtain ⟨first, less⟩ := h _ _ _ he
  obtain ⟨chained, least⟩ := chain_sound h rfl hc
  exact ⟨.mk first chained, by omega⟩

theorem disjunctionWith_sound {x : Parser Expr} (h : Sound x Negation) :
    Sound (disjunctionWith x) Condition := by
  intro ts e rest hc
  rw [disjunctionWith, bind_ok] at hc
  obtain ⟨e, us, he, hc⟩ := hc
  obtain ⟨first, less⟩ := conjunction_sound h _ _ _ he
  obtain ⟨chained, least⟩ := chain_sound (conjunction_sound h) rfl hc
  exact ⟨.mk first chained, by omega⟩

theorem negationWith_sound (x : Parser Expr) (h : Sound x Negation) :
    Sound (negationWith x) Negation := by
  intro ts e rest hn
  rw [negationWith, bind_ok] at hn
  obtain ⟨k, us, hc, hn⟩ := hn
  obtain ⟨hk, rfl⟩ := current_ok.mp hc
  split at hn
  · obtain ⟨_, us, ha, hn⟩ := bind_ok.mp hn
    obtain ⟨e, vs, he, hn⟩ := bind_ok.mp hn
    obtain ⟨rfl, rfl⟩ := pure_ok.mp hn
    rw [advance_ok] at ha
    subst ha
    obtain ⟨first, less⟩ := spells_head hk (by simp)
    obtain ⟨second, less'⟩ := h _ _ _ he
    exact ⟨.not first second, by omega⟩
  · obtain ⟨_, us, ha, hn⟩ := bind_ok.mp hn
    obtain ⟨c, vs, hc, hn⟩ := bind_ok.mp hn
    obtain ⟨_, ws, hclose, hn⟩ := bind_ok.mp hn
    obtain ⟨product, xs, hp, hn⟩ := bind_ok.mp hn
    obtain ⟨sum, ys, hs, hr⟩ := bind_ok.mp hn
    rw [advance_ok] at ha
    subst ha
    obtain ⟨first, less⟩ := spells_head hk (by simp)
    obtain ⟨inner, less₁⟩ := disjunctionWith_sound h _ _ _ hc
    obtain ⟨last, less₂⟩ := expect_sound (by simp) _ _ _ hclose
    obtain ⟨factors, least₁⟩ := chain_sound factor_sound rfl hp
    obtain ⟨terms, least₂⟩ := chain_sound term_sound rfl hs
    obtain ⟨compared, least₃⟩ := relation_sound hr
    exact ⟨.group first inner last factors terms compared, by omega⟩
  · rename_i unparenthesized
    obtain ⟨left, us, hl, hn⟩ := bind_ok.mp hn
    obtain ⟨first, less⟩ := expression_sound _ _ _ hl
    obtain ⟨compared, least⟩ := relation_sound hn
    exact ⟨.plain (fun paren => unparenthesized (hk.symm.trans paren)) first compared, by omega⟩

theorem negation_sound : Sound negation Negation := nested_sound negationWith_sound

theorem condition_sound : Sound condition Condition := disjunctionWith_sound negation_sound

/-! ## Statements -/

theorem parenthesized_sound {e : Expr} (h : parenthesized ts = .ok e rest) :
    (∃ us vs, Spells [.leftParen] ts us ∧ Condition e us vs ∧ Spells [.rightParen] vs rest) ∧
      rest.length < ts.length := by
  rw [parenthesized, bind_ok] at h
  obtain ⟨_, us, hopen, h⟩ := h
  obtain ⟨c, vs, hc, h⟩ := bind_ok.mp h
  obtain ⟨_, ws, hclose, h⟩ := bind_ok.mp h
  obtain ⟨rfl, rfl⟩ := pure_ok.mp h
  obtain ⟨first, less⟩ := expect_sound (by simp) _ _ _ hopen
  obtain ⟨inner, less'⟩ := condition_sound _ _ _ hc
  obtain ⟨last, less''⟩ := expect_sound (by simp) _ _ _ hclose
  exact ⟨⟨us, vs, first, inner, last⟩, by omega⟩

theorem blockWith_sound {x : Parser Statement} (h : Sound x Sentence) :
    Sound (blockWith x) Block := by
  intro ts ss rest hb
  rw [blockWith, bind_ok] at hb
  obtain ⟨_, us, hopen, hb⟩ := hb
  obtain ⟨ss, vs, hss, hb⟩ := bind_ok.mp hb
  obtain ⟨_, ws, hclose, hb⟩ := bind_ok.mp hb
  obtain ⟨rfl, rfl⟩ := pure_ok.mp hb
  obtain ⟨first, less⟩ := expect_sound (by simp) _ _ _ hopen
  obtain ⟨inner, least⟩ := manyUpTo_sound h hss
  obtain ⟨last, less'⟩ := expect_sound (by simp) _ _ _ hclose
  exact ⟨.mk first inner last, by omega⟩

theorem echoStatement_sound {s : Statement} (hk : headKind ts = .keyword .echo)
    (h : echoStatement ts = .ok s rest) : Sentence s ts rest ∧ rest.length < ts.length := by
  obtain ⟨first, less⟩ := spells_head hk (by simp)
  rw [echoStatement, bind_ok] at h
  obtain ⟨_, us, ha, h⟩ := h
  obtain ⟨e, vs, he, h⟩ := bind_ok.mp h
  obtain ⟨_, ws, hend, h⟩ := bind_ok.mp h
  obtain ⟨rfl, rfl⟩ := pure_ok.mp h
  rw [advance_ok] at ha
  subst ha
  obtain ⟨value, less'⟩ := expression_sound _ _ _ he
  obtain ⟨last, least⟩ := expectAll_sound (by simp) hend
  refine ⟨.echo first value last, ?_⟩
  omega

theorem ifStatementWith_sound {x : Parser Statement} (hx : Sound x Sentence) {s : Statement}
    (hk : headKind ts = .keyword .whenTrue) (h : ifStatementWith x ts = .ok s rest) :
    Sentence s ts rest ∧ rest.length < ts.length := by
  obtain ⟨first, less⟩ := spells_head hk (by simp)
  rw [ifStatementWith, bind_ok] at h
  obtain ⟨_, us, ha, h⟩ := h
  obtain ⟨c, vs, hc, h⟩ := bind_ok.mp h
  obtain ⟨body, ws, hb, h⟩ := bind_ok.mp h
  obtain ⟨k, xs, hk', h⟩ := bind_ok.mp h
  rw [advance_ok] at ha
  subst ha
  obtain ⟨rfl, rfl⟩ := current_ok.mp hk'
  obtain ⟨⟨_, _, left, condition, right⟩, less₁⟩ := parenthesized_sound hc
  obtain ⟨block, less₂⟩ := blockWith_sound hx _ _ _ hb
  split at h
  · rename_i otherwise
    obtain ⟨_, xs, ha, h⟩ := bind_ok.mp h
    obtain ⟨other, ys, ho, h⟩ := bind_ok.mp h
    obtain ⟨rfl, rfl⟩ := pure_ok.mp h
    rw [advance_ok] at ha
    subst ha
    obtain ⟨second, less₃⟩ := spells_head otherwise (by simp)
    obtain ⟨block', less₄⟩ := blockWith_sound hx _ _ _ ho
    exact ⟨.ifElse (Spells.cons first left) condition right block second block', by omega⟩
  · obtain ⟨rfl, rfl⟩ := pure_ok.mp h
    exact ⟨.ifThen (Spells.cons first left) condition right block, by omega⟩

theorem loopStatementWith_sound {x : Parser Statement} (hx : Sound x Sentence) {s : Statement}
    (hk : headKind ts = .keyword .loop) (h : loopStatementWith x ts = .ok s rest) :
    Sentence s ts rest ∧ rest.length < ts.length := by
  obtain ⟨first, less⟩ := spells_head hk (by simp)
  rw [loopStatementWith, bind_ok] at h
  obtain ⟨_, us, ha, h⟩ := h
  obtain ⟨c, vs, hc, h⟩ := bind_ok.mp h
  obtain ⟨body, ws, hb, h⟩ := bind_ok.mp h
  obtain ⟨rfl, rfl⟩ := pure_ok.mp h
  rw [advance_ok] at ha
  subst ha
  obtain ⟨⟨_, _, left, condition, right⟩, less₁⟩ := parenthesized_sound hc
  obtain ⟨block, less₂⟩ := blockWith_sound hx _ _ _ hb
  exact ⟨.loop (Spells.cons first left) condition right block, by omega⟩

theorem callStatement_sound {f : String} {s : Statement} (h : callStatement f ts = .ok s rest) :
    (∃ es us, s = .call f es ∧ Arguments es ts us ∧ Spells [.semicolon] us rest) ∧
      rest.length < ts.length := by
  rw [callStatement, bind_ok] at h
  obtain ⟨es, us, he, h⟩ := h
  obtain ⟨_, vs, hend, h⟩ := bind_ok.mp h
  obtain ⟨rfl, rfl⟩ := pure_ok.mp h
  obtain ⟨passed, less⟩ := arguments_sound _ _ _ he
  obtain ⟨last, less'⟩ := expect_sound (by simp) _ _ _ hend
  exact ⟨⟨es, us, rfl, passed, last⟩, by omega⟩

theorem variableStatement_sound : Sound variableStatement Sentence := by
  intro ts s rest h
  rw [variableStatement, bind_ok] at h
  obtain ⟨x, us, hx, h⟩ := h
  obtain ⟨first, less⟩ := variableName_sound _ _ _ hx
  obtain ⟨k, vs, hc, h⟩ := bind_ok.mp h
  obtain ⟨hk, rfl⟩ := current_ok.mp hc
  split at h
  · obtain ⟨_, vs, ha, h⟩ := bind_ok.mp h
    obtain ⟨e, ws, he, h⟩ := bind_ok.mp h
    obtain ⟨_, xs, hend, h⟩ := bind_ok.mp h
    obtain ⟨rfl, rfl⟩ := pure_ok.mp h
    rw [advance_ok] at ha
    subst ha
    obtain ⟨second, less₁⟩ := spells_head hk (by simp)
    obtain ⟨value, less₂⟩ := expression_sound _ _ _ he
    obtain ⟨last, less₃⟩ := expect_sound (by simp) _ _ _ hend
    exact ⟨.assign (Spells.cons first second) value last, by omega⟩
  · obtain ⟨⟨es, vs, rfl, passed, last⟩, less'⟩ := callStatement_sound h
    exact ⟨.sigilCall first passed last, by omega⟩
  · exact absurd h throw_ok

theorem statementWith_sound (x : Parser Statement) (hx : Sound x Sentence) :
    Sound (statementWith x) Sentence := by
  intro ts s rest h
  rw [statementWith, bind_ok] at h
  obtain ⟨k, us, hc, h⟩ := h
  obtain ⟨hk, rfl⟩ := current_ok.mp hc
  split at h
  · exact echoStatement_sound hk h
  · exact ifStatementWith_sound hx hk h
  · exact loopStatementWith_sound hx hk h
  · exact variableStatement_sound _ _ _ h
  · obtain ⟨_, us, ha, h⟩ := bind_ok.mp h
    rw [advance_ok] at ha
    subst ha
    obtain ⟨first, less⟩ := spells_head hk (by simp)
    obtain ⟨⟨es, vs, rfl, passed, last⟩, less'⟩ := callStatement_sound h
    exact ⟨.call first passed last, by omega⟩
  · exact absurd h throw_ok

theorem statement_sound : Sound statement Sentence := nested_sound statementWith_sound

/-! ## Bodies -/

theorem map_ok {β : Type} {f : α → β} {b : β} :
    (f <$> x) ts = .ok b rest ↔ ∃ a, x ts = .ok a rest ∧ f a = b := by
  change (x >>= fun a => pure (f a)) ts = .ok b rest ↔ _
  simp only [bind_ok, pure_ok]
  constructor
  · rintro ⟨a, _, hx, hf, rfl⟩
    exact ⟨a, hx, hf⟩
  · rintro ⟨a, hx, hf⟩
    exact ⟨a, rest, hx, hf, rfl⟩

theorem variableDeclaration_sound {d : Declaration} (h : variableDeclaration ts = .ok d rest) :
    (∃ x e us vs, d = .variable x e ∧ Spells [.variable x] ts us ∧ Initializer e us vs ∧
      Spells [.semicolon] vs rest) ∧ rest.length < ts.length := by
  rw [variableDeclaration, bind_ok] at h
  obtain ⟨x, us, hx, h⟩ := h
  obtain ⟨k, vs, hc, h⟩ := bind_ok.mp h
  obtain ⟨hk, rfl⟩ := current_ok.mp hc
  obtain ⟨first, less⟩ := variableName_sound _ _ _ hx
  split at h
  · rename_i assigned
    obtain ⟨_, ws, ha, h⟩ := bind_ok.mp h
    obtain ⟨e, vs, he, h⟩ := bind_ok.mp h
    obtain ⟨_, xs, hend, h⟩ := bind_ok.mp h
    obtain ⟨rfl, rfl⟩ := pure_ok.mp h
    obtain ⟨value, hv, rfl⟩ := map_ok.mp he
    rw [advance_ok] at ha
    subst ha
    obtain ⟨second, less₁⟩ := spells_head (hk.trans assigned) (by simp)
    obtain ⟨derived, less₂⟩ := expression_sound _ _ _ hv
    obtain ⟨last, less₃⟩ := expect_sound (by simp) _ _ _ hend
    exact ⟨⟨x, _, us, _, rfl, first, .some second derived, last⟩, by omega⟩
  · obtain ⟨e, vs, he, h⟩ := bind_ok.mp h
    obtain ⟨_, xs, hend, h⟩ := bind_ok.mp h
    obtain ⟨rfl, rfl⟩ := pure_ok.mp h
    obtain ⟨rfl, rfl⟩ := pure_ok.mp he
    obtain ⟨last, less₁⟩ := expect_sound (by simp) _ _ _ hend
    exact ⟨⟨x, _, us, _, rfl, first, .none, last⟩, by omega⟩

/-- What a body reads its functions with, if it may have any. -/
structure ReadsFunctions (function? : Option (Parser Declaration)) (F : Reading Declaration) :
    Prop where
  sound : ∀ f, function? = some f → ∀ ts d rest, headKind ts = .keyword .function →
    f ts = .ok d rest → F d ts rest ∧ rest.length < ts.length
  absent : function? = none → ∀ d ts rest, ¬ F d ts rest
  head : ∀ d ts rest, F d ts rest → headKind ts = .keyword .function
  same : ∀ d ts rest, F d ts rest → ∀ declared, declaredBy d declared = declared

theorem readsFunctions_none : ReadsFunctions none noFunction where
  sound := by simp
  absent _ _ _ _ h := h
  head _ _ _ h := h.elim
  same _ _ _ h := h.elim

section Declarations

variable {function? : Option (Parser Declaration)} {F : Reading Declaration}
  {declared : List String}

/-- What a declaration begins with. -/
theorem ReadsFunctions.declares_head (h : ReadsFunctions function? F) {d : Declaration}
    (hd : Declares F declared d ts rest) :
    headKind ts = .keyword .function ∧ function? ≠ none ∨
      ∃ y, headKind ts = .variable y ∧ y ∉ declared ∧ headKind ts.tail ≠ .leftParen := by
  cases hd with
  | «variable» fresh first plain =>
    obtain ⟨t, us, rfl, hk, rfl⟩ := first
    exact .inr ⟨_, hk, fresh, plain⟩
  | function hf => exact .inl ⟨h.head _ _ _ hf, fun none => h.absent none _ _ _ hf⟩

/-- The declarations end where no further one can be derived. -/
theorem declarationsUpTo_sound (hf : ReadsFunctions function? F) {n : Nat}
    {ds : List Declaration} (enough : ts.length ≤ n)
    (h : declarationsUpTo function? n declared ts = .ok ds rest) :
    Declarations F declared ds ts rest ∧ rest.length ≤ ts.length := by
  induction n generalizing ts declared ds with
  | zero =>
    obtain ⟨rfl, rfl⟩ := pure_ok.mp h
    obtain rfl := List.eq_nil_of_length_eq_zero (Nat.le_zero.mp enough)
    refine ⟨.none ?_, le_rfl⟩
    intro d us hd
    rcases hf.declares_head hd with ⟨hk, _⟩ | ⟨y, hk, _⟩ <;> simp [headKind] at hk
  | succ n ih =>
    rw [declarationsUpTo, bind_ok] at h
    obtain ⟨k, us, hc, h⟩ := h
    obtain ⟨hk, rfl⟩ := current_ok.mp hc
    split at h
    · obtain ⟨d, us, hd, h⟩ := bind_ok.mp h
      obtain ⟨ds, vs, hds, h⟩ := bind_ok.mp h
      obtain ⟨rfl, rfl⟩ := pure_ok.mp h
      obtain ⟨first, less⟩ := hf.sound _ rfl _ _ _ hk hd
      obtain ⟨others, least⟩ := ih (by omega) hds
      rw [← hf.same _ _ _ first declared] at others
      exact ⟨.more (.function first) others, by omega⟩
    · rename_i y
      obtain ⟨k', us, hc', h⟩ := bind_ok.mp h
      obtain ⟨rfl, rfl⟩ : headKind ts.tail = k' ∧ ts = us := by simpa [following] using hc'
      split at h
      · rename_i ended
        obtain ⟨rfl, rfl⟩ := pure_ok.mp h
        refine ⟨.none ?_, le_rfl⟩
        intro d us hd
        rcases hf.declares_head hd with ⟨hk', _⟩ | ⟨z, hk', fresh, plain⟩
        · cases hk.symm.trans hk'
        · cases hk.symm.trans hk'
          exact ended.elim fresh plain
      · rename_i goes
        obtain ⟨fresh, plain⟩ := not_or.mp goes
        obtain ⟨d, us, hd, h⟩ := bind_ok.mp h
        obtain ⟨ds, vs, hds, h⟩ := bind_ok.mp h
        obtain ⟨rfl, rfl⟩ := pure_ok.mp h
        obtain ⟨⟨x, e, us', vs', rfl, first, initialized, last⟩, less⟩ :=
          variableDeclaration_sound hd
        obtain ⟨t, ts, rfl, hx, rfl⟩ := first
        obtain rfl : x = y := by simpa using hx.symm.trans hk
        obtain ⟨others, least⟩ := ih (by omega) hds
        exact ⟨.more (.variable fresh ⟨t, _, rfl, hx, rfl⟩ plain initialized last) others, by omega⟩
    · rename_i notVariable notFunction
      obtain ⟨rfl, rfl⟩ := pure_ok.mp h
      refine ⟨.none ?_, le_rfl⟩
      intro d us hd
      rcases hf.declares_head hd with ⟨hk', some⟩ | ⟨z, hk', _⟩
      · obtain ⟨f, rfl⟩ := Option.ne_none_iff_exists'.mp some
        exact notFunction f (hk.symm.trans hk') rfl
      · exact notVariable z (hk.symm.trans hk')

theorem bodyWith_sound (hf : ReadsFunctions function? F) {b : Body}
    (h : bodyWith function? ts = .ok b rest) :
    IsBody F b ts rest ∧ rest.length ≤ ts.length := by
  rw [bodyWith, bind_ok] at h
  obtain ⟨ds, us, hds, h⟩ := h
  obtain ⟨ss, vs, hss, h⟩ := bind_ok.mp h
  obtain ⟨rfl, rfl⟩ := pure_ok.mp h
  obtain ⟨declarations, least⟩ := declarationsUpTo_sound hf le_rfl hds
  obtain ⟨statements, least'⟩ := manyUpTo_sound statement_sound hss
  exact ⟨.mk declarations statements, by omega⟩

end Declarations

theorem parameters_sound {ps : List String} (h : parameters ts = .ok ps rest) :
    Parameters ps ts rest ∧ rest.length ≤ ts.length := by
  rw [parameters, bind_ok] at h
  obtain ⟨k, us, hc, h⟩ := h
  obtain ⟨hk, rfl⟩ := current_ok.mp hc
  split at h
  · obtain ⟨separated, less⟩ := commaSeparated_sound variableName_sound _ _ _ h
    exact ⟨.some separated, by omega⟩
  · obtain ⟨rfl, rfl⟩ := pure_ok.mp h
    exact ⟨.none, le_rfl⟩

theorem functionDeclaration_sound {d : Declaration} (hk : headKind ts = .keyword .function)
    (h : functionDeclaration ts = .ok d rest) : Function d ts rest ∧ rest.length < ts.length := by
  obtain ⟨first, less⟩ := spells_head hk (by simp)
  rw [functionDeclaration, bind_ok] at h
  obtain ⟨_, us, ha, h⟩ := h
  obtain ⟨name, vs, hname, h⟩ := bind_ok.mp h
  obtain ⟨_, ws, hopen, h⟩ := bind_ok.mp h
  obtain ⟨ps, xs, hps, h⟩ := bind_ok.mp h
  obtain ⟨_, ys, hmid, h⟩ := bind_ok.mp h
  obtain ⟨b, zs, hb, h⟩ := bind_ok.mp h
  obtain ⟨_, _, hend, h⟩ := bind_ok.mp h
  obtain ⟨rfl, rfl⟩ := pure_ok.mp h
  rw [advance_ok] at ha
  subst ha
  obtain ⟨second, less₁⟩ := identifier_sound _ _ _ hname
  obtain ⟨third, less₂⟩ := expect_sound (by simp) _ _ _ hopen
  obtain ⟨passed, least₁⟩ := parameters_sound hps
  obtain ⟨middle, least₂⟩ := expectAll_sound (by simp) hmid
  obtain ⟨body, least₃⟩ := bodyWith_sound readsFunctions_none hb
  obtain ⟨last, less₃⟩ := expect_sound (by simp) _ _ _ hend
  exact ⟨.mk (Spells.cons first (Spells.cons second third)) passed middle body last, by omega⟩

theorem readsFunctions_some : ReadsFunctions (some functionDeclaration) Function where
  sound := by
    intro f hf ts d rest hk h
    rw [← Option.some.inj hf] at h
    exact functionDeclaration_sound hk h
  absent := by simp
  head := by
    rintro d ts rest ⟨⟨t, us, rfl, hk, _⟩⟩
    exact hk
  same := by
    rintro d ts rest ⟨⟩ declared
    rfl

end FlatStack.Parser
