import FlatStack.Program.Grammar

/-!
# Derivations

The grammar as relations. Each says of a part of a program that it stands at
the front of some tokens, and what tokens follow it. Nothing is said of how a
part is found, and the alternatives of a part are not ordered.
-/

set_option autoImplicit false

namespace FlatStack.Grammar

open FlatStack.Parser (headKind multiplicative? additive? dropSigil)

/-- A part stands at the front of the first tokens and is followed by the others. -/
abbrev Reading (α : Type) := α → List Token → List Token → Prop

/-- Tokens of the given kinds. -/
def Spells : List Token.Kind → List Token → List Token → Prop
  | [], ts, rest => ts = rest
  | k :: ks, ts, rest => ∃ t us, ts = t :: us ∧ t.kind = k ∧ Spells ks us rest

/-- Operators with an operand after each, applied to `left` from the left. -/
inductive Chain (operator? : Token.Kind → Option BinaryOp) (Operand : Reading Expr) :
    Expr → Expr → List Token → List Token → Prop
  | last {e : Expr} {ts : List Token} : Chain operator? Operand e e ts ts
  | more {left right whole : Expr} {op : BinaryOp} {t : Token} {ts us rest : List Token} :
    operator? t.kind = some op → Operand right ts us →
      Chain operator? Operand (.binary op left right) whole us rest →
        Chain operator? Operand left whole (t :: ts) rest

/-- Items with a comma between each two. -/
inductive Separated {α : Type} (Item : Reading α) : List α → List Token → List Token → Prop
  | one {a : α} {ts rest : List Token} : Item a ts rest → Separated Item [a] ts rest
  | more {a : α} {as : List α} {ts us vs rest : List Token} :
    Item a ts us → Spells [.comma] us vs → Separated Item as vs rest →
      Separated Item (a :: as) ts rest

inductive Repeated {α : Type} (Item : Reading α) : List α → List Token → List Token → Prop
  | none {ts : List Token} : Repeated Item [] ts ts
  | more {a : α} {as : List α} {ts us rest : List Token} :
    Item a ts us → Repeated Item as us rest → Repeated Item (a :: as) ts rest

/-! ## Expressions -/

mutual

inductive Factor : Expr → List Token → List Token → Prop
  | «variable» {x : String} {ts rest : List Token} :
    Spells [.variable x] ts rest → Factor (.var x) ts rest
  | number {n : Float} {ts rest : List Token} :
    Spells [.number n] ts rest → Factor (.number n) ts rest
  | call {f : String} {es : List Expr} {ts us rest : List Token} :
    Spells [.identifier f] ts us → Arguments es us rest → Factor (.call f es) ts rest
  | group {e : Expr} {ts us vs rest : List Token} :
    Spells [.leftParen] ts us → Expression e us vs → Spells [.rightParen] vs rest →
      Factor e ts rest

inductive Arguments : List Expr → List Token → List Token → Prop
  | none {ts rest : List Token} : Spells [.leftParen, .rightParen] ts rest → Arguments [] ts rest
  | some {es : List Expr} {ts us vs rest : List Token} :
    Spells [.leftParen] ts us → Separated Expression es us vs → Spells [.rightParen] vs rest →
      Arguments es ts rest

/-- A sign belongs to the first factor alone. -/
inductive Term : Expr → List Token → List Token → Prop
  | plain {f e : Expr} {ts us rest : List Token} :
    Factor f ts us → Chain multiplicative? Factor f e us rest → Term e ts rest
  | signed {f e : Expr} {ts us vs rest : List Token} :
    Spells [.minus] ts us → Factor f us vs →
      Chain multiplicative? Factor (.unary .neg f) e vs rest → Term e ts rest

inductive Expression : Expr → List Token → List Token → Prop
  | input {ts rest : List Token} :
    Spells [.keyword .floatval, .leftParen, .keyword .readline, .leftParen, .rightParen,
      .rightParen] ts rest → Expression .read ts rest
  | sum {t e : Expr} {ts us rest : List Token} :
    Term t ts us → Chain additive? Term t e us rest → Expression e ts rest

end

/-! ## Conditions -/

/-- At most one comparison with what stands on its left. -/
inductive Comparison : Expr → Expr → List Token → List Token → Prop
  | none {e : Expr} {ts : List Token} : Comparison e e ts ts
  | some {left right : Expr} {r : Relation} {ts us rest : List Token} :
    Spells [.relation r] ts us → Expression right us rest →
      Comparison left (.binary (.compare r) left right) ts rest

def andOperator? (k : Token.Kind) : Option BinaryOp := if k = .andAnd then some .and else none

def orOperator? (k : Token.Kind) : Option BinaryOp := if k = .orOr then some .or else none

mutual

inductive Negation : Expr → List Token → List Token → Prop
  | not {e : Expr} {ts us rest : List Token} :
    Spells [.bang] ts us → Negation e us rest → Negation (.unary .not e) ts rest
  /-- What stands in parentheses may be the first operand of arithmetic. -/
  | group {c product sum e : Expr} {ts us vs ws xs ys rest : List Token} :
    Spells [.leftParen] ts us → Condition c us vs → Spells [.rightParen] vs ws →
      Chain multiplicative? Factor c product ws xs → Chain additive? Term product sum xs ys →
        Comparison sum e ys rest → Negation e ts rest
  | plain {left e : Expr} {ts us rest : List Token} :
    headKind ts ≠ .leftParen → Expression left ts us → Comparison left e us rest →
      Negation e ts rest

inductive Conjunction : Expr → List Token → List Token → Prop
  | mk {first e : Expr} {ts us rest : List Token} :
    Negation first ts us → Chain andOperator? Negation first e us rest → Conjunction e ts rest

inductive Condition : Expr → List Token → List Token → Prop
  | mk {first e : Expr} {ts us rest : List Token} :
    Conjunction first ts us → Chain orOperator? Conjunction first e us rest →
      Condition e ts rest

end

/-! ## Statements -/

mutual

inductive Sentence : Statement → List Token → List Token → Prop
  | echo {e : Expr} {ts us vs rest : List Token} :
    Spells [.keyword .echo] ts us → Expression e us vs →
      Spells [.dot, .keyword .endOfLine, .semicolon] vs rest → Sentence (.echo e) ts rest
  | ifThen {c : Expr} {body : List Statement} {ts us vs ws rest : List Token} :
    Spells [.keyword .whenTrue, .leftParen] ts us → Condition c us vs →
      Spells [.rightParen] vs ws → Block body ws rest → Sentence (.ifThen c body) ts rest
  | ifElse {c : Expr} {body otherwise : List Statement} {ts us vs ws xs ys rest : List Token} :
    Spells [.keyword .whenTrue, .leftParen] ts us → Condition c us vs →
      Spells [.rightParen] vs ws → Block body ws xs → Spells [.keyword .otherwise] xs ys →
        Block otherwise ys rest → Sentence (.ifElse c body otherwise) ts rest
  | loop {c : Expr} {body : List Statement} {ts us vs ws rest : List Token} :
    Spells [.keyword .loop, .leftParen] ts us → Condition c us vs →
      Spells [.rightParen] vs ws → Block body ws rest → Sentence (.loop c body) ts rest
  | assign {x : String} {e : Expr} {ts us vs rest : List Token} :
    Spells [.variable x, .assign] ts us → Expression e us vs → Spells [.semicolon] vs rest →
      Sentence (.assign x e) ts rest
  | call {f : String} {es : List Expr} {ts us vs rest : List Token} :
    Spells [.identifier f] ts us → Arguments es us vs → Spells [.semicolon] vs rest →
      Sentence (.call f es) ts rest
  | sigilCall {x : String} {es : List Expr} {ts us vs rest : List Token} :
    Spells [.variable x] ts us → Arguments es us vs → Spells [.semicolon] vs rest →
      Sentence (.call (dropSigil x) es) ts rest

inductive Block : List Statement → List Token → List Token → Prop
  | mk {ss : List Statement} {ts us vs rest : List Token} :
    Spells [.leftBrace] ts us → Repeated Sentence ss us vs → Spells [.rightBrace] vs rest →
      Block ss ts rest

end

/-! ## Bodies -/

inductive Initializer : Option Expr → List Token → List Token → Prop
  | none {ts : List Token} : Initializer none ts ts
  | some {e : Expr} {ts us rest : List Token} :
    Spells [.assign] ts us → Expression e us rest → Initializer (some e) ts rest

/-- A declaration in a body that has declared some variables already. Which
functions may be declared there is given. -/
inductive Declares (Function : Reading Declaration) (declared : List String) :
    Declaration → List Token → List Token → Prop
  | «variable» {x : String} {e : Option Expr} {ts us vs rest : List Token} :
    x ∉ declared → Spells [.variable x] ts us → headKind us ≠ .leftParen →
      Initializer e us vs → Spells [.semicolon] vs rest →
        Declares Function declared (.variable x e) ts rest
  | function {d : Declaration} {ts rest : List Token} :
    Function d ts rest → Declares Function declared d ts rest

/-- The variables that are declared after a declaration. -/
def declaredBy : Declaration → List String → List String
  | .variable x _, declared => x :: declared
  | .function .., declared => declared

/-- Declarations for as long as there is one. -/
inductive Declarations (Function : Reading Declaration) :
    List String → List Declaration → List Token → List Token → Prop
  | none {declared : List String} {ts : List Token} :
    (∀ d rest, ¬ Declares Function declared d ts rest) →
      Declarations Function declared [] ts ts
  | more {declared : List String} {d : Declaration} {ds : List Declaration}
    {ts us rest : List Token} :
    Declares Function declared d ts us → Declarations Function (declaredBy d declared) ds us rest →
      Declarations Function declared (d :: ds) ts rest

inductive IsBody (Function : Reading Declaration) : Body → List Token → List Token → Prop
  | mk {ds : List Declaration} {ss : List Statement} {ts us rest : List Token} :
    Declarations Function [] ds ts us → Repeated Sentence ss us rest →
      IsBody Function ⟨ds, ss⟩ ts rest

inductive Parameters : List String → List Token → List Token → Prop
  | none {ts : List Token} : Parameters [] ts ts
  | some {ps : List String} {ts rest : List Token} :
    Separated (fun p => Spells [.variable p]) ps ts rest → Parameters ps ts rest

/-- No functions, as inside of a function. -/
def noFunction : Reading Declaration := fun _ _ _ => False

inductive Function : Declaration → List Token → List Token → Prop
  | mk {f : String} {ps : List String} {b : Body} {ts us vs ws xs rest : List Token} :
    Spells [.keyword .function, .identifier f, .leftParen] ts us → Parameters ps us vs →
      Spells [.rightParen, .leftBrace] vs ws → IsBody noFunction b ws xs →
        Spells [.rightBrace] xs rest → Function (.function f ps b.declarations b.statements) ts rest

/-- All tokens together derive a program. -/
def Derives (ts : List Token) (p : Program) : Prop :=
  ∃ us vs, Spells [.openTag] ts us ∧ IsBody Function p us vs ∧
    Spells [.closeTag, .endOfSource] vs []

end FlatStack.Grammar
