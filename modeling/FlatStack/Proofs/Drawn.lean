import FlatStack.Proofs.ParserCompleteness

/-!
# What programs are made of

The names and numbers in a derived part come from its tokens. So a property
that the constructors keep holds of all that is derived from tokens with the
property. The constructors that the grammar uses are listed once, and each
part of the grammar is taken through them once.
-/

set_option autoImplicit false

namespace FlatStack.Grammar

open FlatStack.Parser (multiplicative? additive? dropSigil headKind)

variable {α : Type} {K : Token.Kind → Prop} {E C : Expr → Prop} {S : Statement → Prop}
  {P : α → Prop} {R : Reading α} {n : Nat} {ts us rest : List Token} {ks : List Token.Kind}
  {k : Token.Kind} {a : α} {as : List α}

def AllKinds (K : Token.Kind → Prop) (ts : List Token) : Prop := ∀ t ∈ ts, K t.kind

theorem AllKinds.suffix (all : AllKinds K ts) (h : us <:+ ts) : AllKinds K us :=
  fun t ht => all t (h.subset ht)

/-- What every lexeme has, all tokens of a source have. -/
theorem allKinds_scanFrom (ended : K .endOfSource) (lexemes : ∀ c cs, K (Token.lexeme c cs).1)
    (offset : Nat) (cs : List Char) : AllKinds K (Token.scanFrom offset cs) := by
  fun_induction Token.scanFrom offset cs with
  | case1 => simpa [AllKinds] using ended
  | case2 _ _ _ _ c rest _ kind _ hlex _ ih =>
    have hkind : kind = (Token.lexeme c rest).1 := by rw [hlex]
    refine List.forall_mem_cons.mpr ⟨?_, ih⟩
    rw [hkind]
    exact lexemes c rest

/-- Of fewer than `n` tokens with the property `K` only what has the property `P` is derived. -/
def Draws (n : Nat) (K : Token.Kind → Prop) (R : Reading α) (P : α → Prop) : Prop :=
  ∀ ⦃a ts rest⦄, ts.length < n → R a ts rest → AllKinds K ts → P a ∧ rest <:+ ts

/-! ## Sequences -/

theorem spells_draws (h : Spells ks ts rest) (all : AllKinds K ts) :
    (∀ k ∈ ks, K k) ∧ rest <:+ ts := by
  induction ks generalizing ts with
  | nil =>
    cases h
    exact ⟨by simp, List.suffix_rfl⟩
  | cons k ks ih =>
    obtain ⟨t, us, rfl, rfl, h⟩ := h
    obtain ⟨kinds, suffix⟩ := ih h (all.suffix (List.suffix_cons t us))
    exact ⟨List.forall_mem_cons.mpr ⟨all t List.mem_cons_self, kinds⟩,
      suffix.trans (List.suffix_cons t us)⟩

theorem chain_draws {operator? : Token.Kind → Option BinaryOp} {Operand : Reading Expr}
    (h : Draws n K Operand E)
    (closed : ∀ {k op l r}, operator? k = some op → C l → E r → C (.binary op l r))
    {left whole : Expr} (c : Chain operator? Operand left whole ts rest) :
    C left → ts.length < n → AllKinds K ts → C whole ∧ rest <:+ ts := by
  induction c with
  | last => exact fun first _ _ => ⟨first, List.suffix_rfl⟩
  | @more _ _ _ _ t ts _ _ hop operand _ ih =>
    intro first short all
    have inner : ts.length < n := (Nat.lt_succ_self _).trans short
    have behind := List.suffix_cons t ts
    obtain ⟨second, after⟩ := h inner operand (all.suffix behind)
    obtain ⟨result, last⟩ := ih (closed hop first second) (after.length_le.trans_lt inner)
      (all.suffix (after.trans behind))
    exact ⟨result, last.trans (after.trans behind)⟩

theorem separated_draws (h : Draws n K R P) (c : Separated R as ts rest) :
    ts.length < n → AllKinds K ts → (∀ a ∈ as, P a) ∧ rest <:+ ts := by
  induction c with
  | one item =>
    intro short all
    obtain ⟨first, after⟩ := h short item all
    exact ⟨by simpa using first, after⟩
  | more item comma _ ih =>
    intro short all
    obtain ⟨first, after⟩ := h short item all
    obtain ⟨-, behind⟩ := spells_draws comma (all.suffix after)
    have behind := behind.trans after
    obtain ⟨others, last⟩ := ih (behind.length_le.trans_lt short) (all.suffix behind)
    exact ⟨List.forall_mem_cons.mpr ⟨first, others⟩, last.trans behind⟩

theorem repeated_draws (h : Draws n K R P) (c : Repeated R as ts rest) :
    ts.length < n → AllKinds K ts → (∀ a ∈ as, P a) ∧ rest <:+ ts := by
  induction c with
  | none => exact fun _ _ => ⟨by simp, List.suffix_rfl⟩
  | more item _ ih =>
    intro short all
    obtain ⟨first, after⟩ := h short item all
    obtain ⟨others, last⟩ := ih (after.length_le.trans_lt short) (all.suffix after)
    exact ⟨List.forall_mem_cons.mpr ⟨first, others⟩, last.trans after⟩

/-! ## Parts of programs -/

/-- Properties of expressions, conditions and statements that hold of all that the grammar builds
from tokens with the property `K`. -/
structure Closed (K : Token.Kind → Prop) (E C : Expr → Prop) (S : Statement → Prop) : Prop where
  var : ∀ {x}, K (.variable x) → E (.var x)
  number : ∀ {n}, K (.number n) → E (.number n)
  call : ∀ {f es}, K (.identifier f) → (∀ e ∈ es, E e) → E (.call f es)
  read : E .read
  neg : ∀ {e}, E e → E (.unary .neg e)
  product : ∀ {k op l r}, multiplicative? k = some op → E l → E r → E (.binary op l r)
  sum : ∀ {k op l r}, additive? k = some op → E l → E r → E (.binary op l r)
  plain : ∀ {e}, E e → C e
  compare : ∀ {c l r}, C l → E r → C (.binary (.compare c) l r)
  not : ∀ {e}, C e → C (.unary .not e)
  both : ∀ {l r}, C l → C r → C (.binary .and l r)
  either : ∀ {l r}, C l → C r → C (.binary .or l r)
  /-- What stands in parentheses in a condition may be an operand of arithmetic. -/
  groupProduct : ∀ {k op l r}, multiplicative? k = some op → C l → E r → C (.binary op l r)
  groupSum : ∀ {k op l r}, additive? k = some op → C l → E r → C (.binary op l r)
  echo : ∀ {e}, E e → S (.echo e)
  assign : ∀ {x e}, K (.variable x) → E e → S (.assign x e)
  ifThen : ∀ {c ss}, C c → (∀ s ∈ ss, S s) → S (.ifThen c ss)
  ifElse : ∀ {c ss os}, C c → (∀ s ∈ ss, S s) → (∀ s ∈ os, S s) → S (.ifElse c ss os)
  loop : ∀ {c ss}, C c → (∀ s ∈ ss, S s) → S (.loop c ss)
  routine : ∀ {f es}, K (.identifier f) → (∀ e ∈ es, E e) → S (.call f es)
  sigil : ∀ {x es}, K (.variable x) → (∀ e ∈ es, E e) → S (.call (dropSigil x) es)

section Parts

variable (closed : Closed K E C S)

include closed

/-- One more token for each of the four kinds of expressions. -/
theorem expressions_draw (n : Nat) : Draws n K Factor E ∧ Draws n K Arguments (∀ e ∈ ·, E e)
    ∧ Draws n K Term E ∧ Draws n K Expression E := by
  induction n with
  | zero => exact ⟨fun h => by omega, fun h => by omega, fun h => by omega, fun h => by omega⟩
  | succ n ih =>
    obtain ⟨-, arguments, -, expression⟩ := ih
    have factors : Draws (n + 1) K Factor E := by
      intro e ts rest short h all
      cases h with
      | «variable» h =>
        obtain ⟨kinds, behind⟩ := spells_draws h all
        exact ⟨closed.var (kinds _ List.mem_cons_self), behind⟩
      | number h =>
        obtain ⟨kinds, behind⟩ := spells_draws h all
        exact ⟨closed.number (kinds _ List.mem_cons_self), behind⟩
      | call name h =>
        obtain ⟨kinds, behind⟩ := spells_draws name all
        have shorter := Parser.Spells.shorter name
        obtain ⟨items, last⟩ := arguments (by omega) h (all.suffix behind)
        exact ⟨closed.call (kinds _ List.mem_cons_self) items, last.trans behind⟩
      | group first h last =>
        obtain ⟨-, behind⟩ := spells_draws first all
        have shorter := Parser.Spells.shorter first
        obtain ⟨inner, after⟩ := expression (by omega) h (all.suffix behind)
        obtain ⟨-, last⟩ := spells_draws last (all.suffix (after.trans behind))
        exact ⟨inner, last.trans (after.trans behind)⟩
    have argumentLists : Draws (n + 1) K Arguments (∀ e ∈ ·, E e) := by
      intro es ts rest short h all
      cases h with
      | none h => exact ⟨by simp, (spells_draws h all).2⟩
      | some first h last =>
        obtain ⟨-, behind⟩ := spells_draws first all
        have shorter := Parser.Spells.shorter first
        obtain ⟨items, after⟩ := separated_draws expression h (by omega) (all.suffix behind)
        obtain ⟨-, last⟩ := spells_draws last (all.suffix (after.trans behind))
        exact ⟨items, last.trans (after.trans behind)⟩
    have terms : Draws (n + 1) K Term E := by
      intro e ts rest short h all
      cases h with
      | plain first h =>
        obtain ⟨factor, behind⟩ := factors short first all
        obtain ⟨term, last⟩ := chain_draws factors closed.product h factor
          (behind.length_le.trans_lt short) (all.suffix behind)
        exact ⟨term, last.trans behind⟩
      | signed sign first h =>
        obtain ⟨-, behind⟩ := spells_draws sign all
        obtain ⟨factor, after⟩ := factors (behind.length_le.trans_lt short) first
          (all.suffix behind)
        have behind := after.trans behind
        obtain ⟨term, last⟩ := chain_draws factors closed.product h (closed.neg factor)
          (behind.length_le.trans_lt short) (all.suffix behind)
        exact ⟨term, last.trans behind⟩
    refine ⟨factors, argumentLists, terms, ?_⟩
    intro e ts rest short h all
    cases h with
    | input h => exact ⟨closed.read, (spells_draws h all).2⟩
    | sum first h =>
      obtain ⟨term, behind⟩ := terms short first all
      obtain ⟨sum, last⟩ := chain_draws terms closed.sum h term
        (behind.length_le.trans_lt short) (all.suffix behind)
      exact ⟨sum, last.trans behind⟩

theorem factor_draws (n : Nat) : Draws n K Factor E := (expressions_draw closed n).1

theorem arguments_draw (n : Nat) : Draws n K Arguments (∀ e ∈ ·, E e) :=
  (expressions_draw closed n).2.1

theorem term_draws (n : Nat) : Draws n K Term E := (expressions_draw closed n).2.2.1

theorem expression_draws (n : Nat) : Draws n K Expression E := (expressions_draw closed n).2.2.2

theorem comparison_draws {left e : Expr} (h : Comparison left e ts rest) (first : C left)
    (all : AllKinds K ts) : C e ∧ rest <:+ ts := by
  cases h with
  | none => exact ⟨first, List.suffix_rfl⟩
  | some relation h =>
    obtain ⟨-, behind⟩ := spells_draws relation all
    obtain ⟨second, last⟩ := expression_draws closed _ (Nat.lt_succ_self _) h (all.suffix behind)
    exact ⟨closed.compare first second, last.trans behind⟩

theorem andOperator_closed {k : Token.Kind} {op : BinaryOp} {l r : Expr}
    (h : andOperator? k = some op) (hl : C l) (hr : C r) : C (.binary op l r) := by
  unfold andOperator? at h
  split at h
  · cases h
    exact closed.both hl hr
  · cases h

theorem orOperator_closed {k : Token.Kind} {op : BinaryOp} {l r : Expr}
    (h : orOperator? k = some op) (hl : C l) (hr : C r) : C (.binary op l r) := by
  unfold orOperator? at h
  split at h
  · cases h
    exact closed.either hl hr
  · cases h

theorem conditions_draw (n : Nat) :
    Draws n K Negation C ∧ Draws n K Conjunction C ∧ Draws n K Condition C := by
  induction n with
  | zero => exact ⟨fun h => by omega, fun h => by omega, fun h => by omega⟩
  | succ n ih =>
    obtain ⟨negation, -, condition⟩ := ih
    have negations : Draws (n + 1) K Negation C := by
      intro e ts rest short h all
      cases h with
      | not bang h =>
        obtain ⟨-, behind⟩ := spells_draws bang all
        have shorter := Parser.Spells.shorter bang
        obtain ⟨inner, last⟩ := negation (by omega) h (all.suffix behind)
        exact ⟨closed.not inner, last.trans behind⟩
      | group first inner last products sums comparison =>
        obtain ⟨-, behind⟩ := spells_draws first all
        have shorter := Parser.Spells.shorter first
        obtain ⟨c, after⟩ := condition (by omega) inner (all.suffix behind)
        have behind := after.trans behind
        obtain ⟨-, after⟩ := spells_draws last (all.suffix behind)
        have behind := after.trans behind
        obtain ⟨product, after⟩ := chain_draws (factor_draws closed _) closed.groupProduct products
          c (Nat.lt_succ_self _) (all.suffix behind)
        have behind := after.trans behind
        obtain ⟨sum, after⟩ := chain_draws (term_draws closed _) closed.groupSum sums
          product (Nat.lt_succ_self _) (all.suffix behind)
        have behind := after.trans behind
        obtain ⟨result, after⟩ := comparison_draws closed comparison sum (all.suffix behind)
        exact ⟨result, after.trans behind⟩
      | plain _ first comparison =>
        obtain ⟨left, behind⟩ := expression_draws closed _ short first all
        obtain ⟨result, after⟩ := comparison_draws closed comparison (closed.plain left)
          (all.suffix behind)
        exact ⟨result, after.trans behind⟩
    have conjunctions : Draws (n + 1) K Conjunction C := by
      intro e ts rest short h all
      cases h with
      | mk first h =>
        obtain ⟨negation, behind⟩ := negations short first all
        obtain ⟨result, last⟩ := chain_draws negations (andOperator_closed closed) h negation
          (behind.length_le.trans_lt short) (all.suffix behind)
        exact ⟨result, last.trans behind⟩
    refine ⟨negations, conjunctions, ?_⟩
    intro e ts rest short h all
    cases h with
    | mk first h =>
      obtain ⟨conjunction, behind⟩ := conjunctions short first all
      obtain ⟨result, last⟩ := chain_draws conjunctions (orOperator_closed closed) h conjunction
        (behind.length_le.trans_lt short) (all.suffix behind)
      exact ⟨result, last.trans behind⟩

theorem condition_draws (n : Nat) : Draws n K Condition C := (conditions_draw closed n).2.2

/-- A condition behind some tokens and before a closing parenthesis. -/
theorem guard_draws {c : Expr} {vs ws : List Token} (first : Spells ks ts us)
    (h : Condition c us vs) (last : Spells [.rightParen] vs ws) (all : AllKinds K ts) :
    C c ∧ ws <:+ ts ∧ ws.length < ts.length := by
  obtain ⟨-, behind⟩ := spells_draws first all
  obtain ⟨inner, after⟩ := condition_draws closed _ (Nat.lt_succ_self _) h (all.suffix behind)
  have before := after.trans behind
  obtain ⟨-, after⟩ := spells_draws last (all.suffix before)
  exact ⟨inner, after.trans before, (Parser.Spells.shorter last).trans_le before.length_le⟩

theorem statements_draw (n : Nat) : Draws n K Sentence S ∧ Draws n K Block (∀ s ∈ ·, S s) := by
  induction n with
  | zero => exact ⟨fun h => by omega, fun h => by omega⟩
  | succ n ih =>
    obtain ⟨sentence, block⟩ := ih
    constructor
    · intro s ts rest short h all
      cases h with
      | echo first h last =>
        obtain ⟨-, behind⟩ := spells_draws first all
        obtain ⟨value, after⟩ := expression_draws closed _ (Nat.lt_succ_self _) h
          (all.suffix behind)
        have behind := after.trans behind
        exact ⟨closed.echo value, (spells_draws last (all.suffix behind)).2.trans behind⟩
      | ifThen first h last body =>
        obtain ⟨guard, behind, shorter⟩ := guard_draws closed first h last all
        obtain ⟨inner, after⟩ := block (by omega) body (all.suffix behind)
        exact ⟨closed.ifThen guard inner, after.trans behind⟩
      | ifElse first h last body between otherwise =>
        obtain ⟨guard, behind, shorter⟩ := guard_draws closed first h last all
        obtain ⟨inner, after⟩ := block (by omega) body (all.suffix behind)
        have behind := after.trans behind
        have inside := after.length_le
        obtain ⟨-, after⟩ := spells_draws between (all.suffix behind)
        have behind := after.trans behind
        have outside := after.length_le
        obtain ⟨other, after⟩ := block (by omega) otherwise (all.suffix behind)
        exact ⟨closed.ifElse guard inner other, after.trans behind⟩
      | loop first h last body =>
        obtain ⟨guard, behind, shorter⟩ := guard_draws closed first h last all
        obtain ⟨inner, after⟩ := block (by omega) body (all.suffix behind)
        exact ⟨closed.loop guard inner, after.trans behind⟩
      | assign first h last =>
        obtain ⟨kinds, behind⟩ := spells_draws first all
        obtain ⟨value, after⟩ := expression_draws closed _ (Nat.lt_succ_self _) h
          (all.suffix behind)
        have behind := after.trans behind
        exact ⟨closed.assign (kinds _ List.mem_cons_self) value,
          (spells_draws last (all.suffix behind)).2.trans behind⟩
      | call first h last =>
        obtain ⟨kinds, behind⟩ := spells_draws first all
        obtain ⟨items, after⟩ := arguments_draw closed _ (Nat.lt_succ_self _) h (all.suffix behind)
        have behind := after.trans behind
        exact ⟨closed.routine (kinds _ List.mem_cons_self) items,
          (spells_draws last (all.suffix behind)).2.trans behind⟩
      | sigilCall first h last =>
        obtain ⟨kinds, behind⟩ := spells_draws first all
        obtain ⟨items, after⟩ := arguments_draw closed _ (Nat.lt_succ_self _) h (all.suffix behind)
        have behind := after.trans behind
        exact ⟨closed.sigil (kinds _ List.mem_cons_self) items,
          (spells_draws last (all.suffix behind)).2.trans behind⟩
    · intro ss ts rest short h all
      cases h with
      | mk first h last =>
        obtain ⟨-, behind⟩ := spells_draws first all
        have shorter := Parser.Spells.shorter first
        obtain ⟨inner, after⟩ := repeated_draws sentence h (by omega) (all.suffix behind)
        have behind := after.trans behind
        exact ⟨inner, (spells_draws last (all.suffix behind)).2.trans behind⟩

theorem sentence_draws (n : Nat) : Draws n K Sentence S := (statements_draw closed n).1

end Parts

/-! ## Bodies -/

/-- A variable whose name and initializer have the properties. -/
def DrawnVariable (K : Token.Kind → Prop) (E : Expr → Prop) : Declaration → Prop
  | .variable x e => K (.variable x) ∧ ∀ v ∈ e, E v
  | .function .. => False

def DrawnBody (V : Declaration → Prop) (S : Statement → Prop) (b : Body) : Prop :=
  (∀ d ∈ b.declarations, V d) ∧ ∀ s ∈ b.statements, S s

/-- A declaration whose parts have the properties, without functions inside a function. -/
def Drawn (K : Token.Kind → Prop) (E : Expr → Prop) (S : Statement → Prop) : Declaration → Prop
  | .variable x e => DrawnVariable K E (.variable x e)
  | .function f ps ds ss => K (.identifier f) ∧ (∀ x ∈ ps, K (.variable x))
      ∧ DrawnBody (DrawnVariable K E) S ⟨ds, ss⟩

theorem parameters_draw {ps : List String} (h : Parameters ps ts rest) (all : AllKinds K ts) :
    (∀ x ∈ ps, K (.variable x)) ∧ rest <:+ ts := by
  have names (n : Nat) : Draws n K (fun x => Spells [.variable x]) (fun x => K (.variable x)) := by
    intro x ts rest _ h all
    obtain ⟨kinds, behind⟩ := spells_draws h all
    exact ⟨kinds _ List.mem_cons_self, behind⟩
  cases h with
  | none => exact ⟨by simp, List.suffix_rfl⟩
  | some h => exact separated_draws (names _) h (Nat.lt_succ_self _) all

section Bodies

variable {V : Declaration → Prop} {Inner : Reading Declaration} (closed : Closed K E C S)

include closed

theorem declares_draws (vars : ∀ x e, DrawnVariable K E (.variable x e) → V (.variable x e))
    (functions : Draws n K Inner V) (declared : List String) :
    Draws n K (Declares Inner declared) V := by
  intro d ts rest short h all
  cases h with
  | function h => exact functions short h all
  | «variable» _ name _ init last =>
    obtain ⟨kinds, behind⟩ := spells_draws name all
    cases init with
    | none =>
      refine ⟨vars _ _ ⟨kinds _ List.mem_cons_self, by simp⟩, ?_⟩
      exact (spells_draws last (all.suffix behind)).2.trans behind
    | some assign h =>
      obtain ⟨-, after⟩ := spells_draws assign (all.suffix behind)
      have behind := after.trans behind
      obtain ⟨value, after⟩ := expression_draws closed _ (Nat.lt_succ_self _) h
        (all.suffix behind)
      have behind := after.trans behind
      refine ⟨vars _ _ ⟨kinds _ List.mem_cons_self, by simpa using value⟩, ?_⟩
      exact (spells_draws last (all.suffix behind)).2.trans behind

theorem declarations_draw (vars : ∀ x e, DrawnVariable K E (.variable x e) → V (.variable x e))
    (functions : Draws n K Inner V) {declared : List String} {ds : List Declaration}
    (h : Declarations Inner declared ds ts rest) :
    ts.length < n → AllKinds K ts → (∀ d ∈ ds, V d) ∧ rest <:+ ts := by
  induction h with
  | none => exact fun _ _ => ⟨by simp, List.suffix_rfl⟩
  | more first _ ih =>
    intro short all
    obtain ⟨one, after⟩ := declares_draws closed vars functions _ short first all
    obtain ⟨others, last⟩ := ih (after.length_le.trans_lt short) (all.suffix after)
    exact ⟨List.forall_mem_cons.mpr ⟨one, others⟩, last.trans after⟩

theorem body_draws (vars : ∀ x e, DrawnVariable K E (.variable x e) → V (.variable x e))
    (functions : Draws n K Inner V) : Draws n K (IsBody Inner) (DrawnBody V S) := by
  intro b ts rest short h all
  cases h with
  | mk declarations statements =>
    obtain ⟨ds, behind⟩ := declarations_draw closed vars functions declarations short all
    obtain ⟨ss, after⟩ := repeated_draws (sentence_draws closed n) statements
      (behind.length_le.trans_lt short) (all.suffix behind)
    exact ⟨⟨ds, ss⟩, after.trans behind⟩

theorem function_draws (n : Nat) : Draws n K Function (Drawn K E S) := by
  intro d ts rest short h all
  cases h with
  | mk first parameters second body last =>
    obtain ⟨kinds, behind⟩ := spells_draws first all
    obtain ⟨ps, after⟩ := parameters_draw parameters (all.suffix behind)
    have behind := after.trans behind
    obtain ⟨-, after⟩ := spells_draws second (all.suffix behind)
    have behind := after.trans behind
    have inner : Draws n K (IsBody noFunction) (DrawnBody (DrawnVariable K E) S) :=
      body_draws closed (fun _ _ h => h) fun _ _ _ _ none => none.elim
    obtain ⟨drawn, after⟩ := inner (behind.length_le.trans_lt short) body (all.suffix behind)
    have behind := after.trans behind
    obtain ⟨-, after⟩ := spells_draws last (all.suffix behind)
    exact ⟨⟨kinds _ (by simp), ps, drawn⟩, after.trans behind⟩

/-- All that a program is made of comes from its tokens. -/
theorem derives_draws {p : Program} (h : Derives ts p) (all : AllKinds K ts) :
    DrawnBody (Drawn K E S) S p := by
  obtain ⟨us, vs, opened, body, -⟩ := h
  obtain ⟨-, behind⟩ := spells_draws opened all
  have whole : Draws (us.length + 1) K (IsBody Function) (DrawnBody (Drawn K E S) S) :=
    body_draws closed (fun _ _ h => h) (function_draws closed _)
  exact (whole (Nat.lt_succ_self _) body (all.suffix behind)).1

end Bodies

end FlatStack.Grammar
