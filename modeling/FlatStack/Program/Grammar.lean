import FlatStack.Program.Basic
import FlatStack.Token.Lexeme

/-!
# The grammar

A parser takes tokens from the front of a list. When it fails it says what it
expected, and the tokens that are left begin with the one it found instead.
Nothing is ever tried twice, so a failure keeps the tokens left at that point.

```
program   = '<?php' body '?>' end
body      = {function | variable} {statement}
function  = 'function' name '(' [$p {',' $p}] ')' '{' body '}'
variable  = $v ['=' expr] ';'
statement = 'echo' expr '.' PHP_EOL ';'
          | 'if' '(' cond ')' block ['else' block]
          | 'while' '(' cond ')' block
          | $v '=' expr ';'
          | (name | $v) arguments ';'
block     = '{' {statement} '}'
cond      = and {'||' and}
and       = not {'&&' not}
not       = '!' not
          | '(' cond ')' {('*' | '/') factor} {('+' | '-') term} [relation expr]
          | expr [relation expr]
expr      = 'floatval' '(' 'readline' '(' ')' ')' | term {('+' | '-') term}
term      = ['-'] factor {('*' | '/') factor}
factor    = $v | number | name arguments | '(' expr ')'
arguments = '(' [expr {',' expr}] ')'
```

Functions are declared only at top level, and a variable counts as declared
where its name first opens a declaration of the body.

Each nested construct costs a token before it nests again. So a parser that
refers to itself is given by its unfoldings up to a depth, and the number of
tokens left is depth enough.
-/

set_option autoImplicit false

namespace FlatStack

/-- What a parser expected. -/
inductive Expectation where
  | kind (kind : Token.Kind)
  | identifier
  | variable
  | statement
  | assignmentOrCall
  | operand
  | endOfSource
  deriving DecidableEq, Repr

/-- What is said when `found` stands where something else was expected. -/
def Expectation.message (found : Token.Kind) : Expectation → String
  | .kind k => "expected " ++ k.describe ++ ", found " ++ found.describe
  | .identifier => "expected identifier, found " ++ found.describe
  | .variable => "expected variable, found " ++ found.describe
  | .statement =>
    "expected statement (echo, if, while or $var), found " ++ found.describe
  | .assignmentOrCall => "expected '=' or '(' after variable, found " ++ found.describe
  | .operand => "expected variable, number, function call or '(', found " ++ found.describe
  | .endOfSource => "unexpected " ++ found.describe ++ " after '?>'"

abbrev Parser := EStateM Expectation (List Token)

namespace Parser

/-- The kind of the first token; past the last one the source has ended. -/
def headKind : List Token → Token.Kind
  | [] => .endOfSource
  | t :: _ => t.kind

def current : Parser Token.Kind := fun ts => .ok (headKind ts) ts

/-- The kind of the token after the current one. -/
def following : Parser Token.Kind := fun ts => .ok (headKind ts.tail) ts

def advance : Parser Unit := fun ts => .ok () ts.tail

def expect (k : Token.Kind) : Parser Unit := do
  if (← current) = k then advance else throw (.kind k)

def expectAll : List Token.Kind → Parser Unit
  | [] => pure ()
  | k :: ks => do
    expect k
    expectAll ks

def identifier : Parser String := do
  match ← current with
  | .identifier name =>
    advance
    pure name
  | _ => throw .identifier

def variableName : Parser String := do
  match ← current with
  | .variable name =>
    advance
    pure name
  | _ => throw .variable

/-- Unfolds a parser that refers to itself `depth` times. -/
def unfold {α : Type} (step : Parser α → Parser α) : Nat → Parser α
  | 0 => throw .operand
  | depth + 1 => fun ts => step (unfold step depth) ts

/-- A parser that refers to itself only behind a token of its own. -/
def nested {α : Type} (step : Parser α → Parser α) : Parser α := fun ts =>
  unfold step (ts.length + 1) ts

def chainUpTo (operator? : Token.Kind → Option BinaryOp) (operand : Parser Expr) :
    Nat → Expr → Parser Expr
  | 0, left => pure left
  | n + 1, left => do
    match operator? (← current) with
    | none => pure left
    | some op =>
      advance
      let right ← operand
      chainUpTo operator? operand n (.binary op left right)

/-- Operators with an operand after each, applied from the left. -/
def chain (operator? : Token.Kind → Option BinaryOp) (operand : Parser Expr) (left : Expr) :
    Parser Expr := fun ts =>
  chainUpTo operator? operand ts.length left ts

def manyUpTo {α : Type} (starts : Token.Kind → Bool) (item : Parser α) : Nat → Parser (List α)
  | 0 => pure []
  | n + 1 => do
    if starts (← current) then
      let first ← item
      let others ← manyUpTo starts item n
      pure (first :: others)
    else
      pure []

/-- Items for as long as the current token starts one. -/
def many {α : Type} (starts : Token.Kind → Bool) (item : Parser α) : Parser (List α) := fun ts =>
  manyUpTo starts item ts.length ts

/-- Further items, each after a comma. -/
def commaSeparated {α : Type} (item : Parser α) : Parser (List α) := do
  let first ← item
  let others ← many (· == .comma) (do advance; item)
  pure (first :: others)

/-! ## Expressions -/

def additive? : Token.Kind → Option BinaryOp
  | .plus => some .add
  | .minus => some .sub
  | _ => none

def multiplicative? : Token.Kind → Option BinaryOp
  | .star => some .mul
  | .slash => some .div
  | _ => none

def relational? : Token.Kind → Option BinaryOp
  | .relation r => some (.compare r)
  | _ => none

def argumentsWith (expression : Parser Expr) : Parser (List Expr) := do
  expect .leftParen
  let arguments ←
    if (← current) = .rightParen then pure [] else commaSeparated expression
  expect .rightParen
  pure arguments

def factorWith (expression : Parser Expr) : Parser Expr := do
  match ← current with
  | .variable name =>
    advance
    pure (.var name)
  | .number n =>
    advance
    pure (.number n)
  | .identifier callee =>
    advance
    let arguments ← argumentsWith expression
    pure (.call callee arguments)
  | .leftParen =>
    advance
    let e ← expression
    expect .rightParen
    pure e
  | _ => throw .operand

/-- A sign belongs to the first factor alone. -/
def signedFactorWith (expression : Parser Expr) : Parser Expr := do
  if (← current) = .minus then
    advance
    let e ← factorWith expression
    pure (.unary .neg e)
  else
    factorWith expression

def termWith (expression : Parser Expr) : Parser Expr := do
  let first ← signedFactorWith expression
  chain multiplicative? (factorWith expression) first

def expressionWith (expression : Parser Expr) : Parser Expr := do
  if (← current) = .keyword .floatval then
    expectAll [.keyword .floatval, .leftParen, .keyword .readline, .leftParen, .rightParen,
      .rightParen]
    pure .read
  else
    let first ← termWith expression
    chain additive? (termWith expression) first

def expression : Parser Expr := nested expressionWith

def factor : Parser Expr := factorWith expression

def term : Parser Expr := termWith expression

def arguments : Parser (List Expr) := argumentsWith expression

/-! ## Conditions -/

/-- At most one comparison, whose right side is an expression. -/
def relation (left : Expr) : Parser Expr := do
  match relational? (← current) with
  | none => pure left
  | some op =>
    advance
    let right ← expression
    pure (.binary op left right)

def disjunctionWith (negation : Parser Expr) : Parser Expr := do
  let first ← conjunction
  chain (fun k => if k = .orOr then some .or else none) conjunction first
where
  conjunction : Parser Expr := do
    let first ← negation
    chain (fun k => if k = .andAnd then some .and else none) negation first

/-- A condition in parentheses may turn out to be the first operand of
arithmetic and then of a comparison. -/
def negationWith (negation : Parser Expr) : Parser Expr := do
  match ← current with
  | .bang =>
    advance
    let e ← negation
    pure (.unary .not e)
  | .leftParen =>
    advance
    let inner ← disjunctionWith negation
    expect .rightParen
    let product ← chain multiplicative? factor inner
    let sum ← chain additive? term product
    relation sum
  | _ =>
    let left ← expression
    relation left

def negation : Parser Expr := nested negationWith

def condition : Parser Expr := disjunctionWith negation

def parenthesized : Parser Expr := do
  expect .leftParen
  let e ← condition
  expect .rightParen
  pure e

/-! ## Statements -/

def startsStatement : Token.Kind → Bool
  | .keyword .echo | .keyword .whenTrue | .keyword .loop => true
  | .variable _ | .identifier _ => true
  | _ => false

def blockWith (statement : Parser Statement) : Parser (List Statement) := do
  expect .leftBrace
  let body ← many startsStatement statement
  expect .rightBrace
  pure body

/-- A name without its dollar sign. -/
def dropSigil (name : String) : String :=
  match name.toList with
  | '$' :: cs => String.ofList cs
  | _ => name

def echoStatement : Parser Statement := do
  advance
  let value ← expression
  expectAll [.dot, .keyword .endOfLine, .semicolon]
  pure (.echo value)

def ifStatementWith (statement : Parser Statement) : Parser Statement := do
  advance
  let condition ← parenthesized
  let body ← blockWith statement
  if (← current) = .keyword .otherwise then
    advance
    let otherwise ← blockWith statement
    pure (.ifElse condition body otherwise)
  else
    pure (.ifThen condition body)

def loopStatementWith (statement : Parser Statement) : Parser Statement := do
  advance
  let condition ← parenthesized
  let body ← blockWith statement
  pure (.loop condition body)

def callStatement (callee : String) : Parser Statement := do
  let arguments ← arguments
  expect .semicolon
  pure (.call callee arguments)

/-- An assignment, or a call that is written with a dollar sign. -/
def variableStatement : Parser Statement := do
  let name ← variableName
  match ← current with
  | .assign =>
    advance
    let value ← expression
    expect .semicolon
    pure (.assign name value)
  | .leftParen => callStatement (dropSigil name)
  | _ => throw .assignmentOrCall

def statementWith (statement : Parser Statement) : Parser Statement := do
  match ← current with
  | .keyword .echo => echoStatement
  | .keyword .whenTrue => ifStatementWith statement
  | .keyword .loop => loopStatementWith statement
  | .variable _ => variableStatement
  | .identifier callee =>
    advance
    callStatement callee
  | _ => throw .statement

def statement : Parser Statement := nested statementWith

def statements : Parser (List Statement) := many startsStatement statement

/-! ## Bodies -/

def variableDeclaration : Parser Declaration := do
  let name ← variableName
  let initializer ←
    if (← current) = .assign then
      advance
      some <$> expression
    else
      pure none
  expect .semicolon
  pure (.variable name initializer)

def declarationsUpTo (function? : Option (Parser Declaration)) :
    Nat → List String → Parser (List Declaration)
  | 0, _ => pure []
  | n + 1, declared => do
    match ← current, function? with
    | .keyword .function, some function =>
      let first ← function
      let others ← declarationsUpTo function? n declared
      pure (first :: others)
    | .variable name, _ =>
      if name ∈ declared ∨ (← following) = .leftParen then
        pure []
      else
        let first ← variableDeclaration
        let others ← declarationsUpTo function? n (name :: declared)
        pure (first :: others)
    | _, _ => pure []

/-- The declarations at the start of a body. They end before a variable that
the body has declared already and before a call. -/
def declarations (function? : Option (Parser Declaration)) : Parser (List Declaration) := fun ts =>
  declarationsUpTo function? ts.length [] ts

def bodyWith (function? : Option (Parser Declaration)) : Parser Body := do
  let declarations ← declarations function?
  let statements ← statements
  pure ⟨declarations, statements⟩

def parameters : Parser (List String) := do
  match ← current with
  | .variable _ => commaSeparated variableName
  | _ => pure []

def functionDeclaration : Parser Declaration := do
  advance
  let name ← identifier
  expect .leftParen
  let parameters ← parameters
  expectAll [.rightParen, .leftBrace]
  let body ← bodyWith none
  expect .rightBrace
  pure (.function name parameters body.declarations body.statements)

def program : Parser Program := do
  expect .openTag
  let body ← bodyWith (some functionDeclaration)
  expect .closeTag
  if (← current) = .endOfSource then pure body else throw .endOfSource

end Parser

/-- Why a source text is no program: an unknown character, or a token that
does not fit. -/
inductive ParseError where
  | unrecognized (character : Token.Unrecognized)
  | unexpected (expectation : Expectation) (found : Token.Kind) (location : Location)
  deriving DecidableEq, Repr

namespace ParseError

/-- The error of a parser that failed with `rest` left. An unknown character
is reported as such, whatever was expected in its place. -/
def ofExpectation (source : List Char) (rest : List Token) (e : Expectation) : ParseError :=
  let location := match rest with
    | [] => Location.after source
    | t :: _ => t.span.location source
  match Parser.headKind rest with
  | .invalid c => .unrecognized ⟨c, location⟩
  | found => .unexpected e found location

end ParseError

namespace Program

/-- Reads a program from tokens of `source`. -/
def ofTokens (source : List Char) (tokens : List Token) : Except ParseError Program :=
  match Parser.program tokens with
  | .ok p _ => .ok p
  | .error e rest => .error (ParseError.ofExpectation source rest e)

/-- Reads a program from a source text. An unknown character is an error only
where the parser comes to it. -/
def parse (source : String) : Except ParseError Program :=
  ofTokens source.toList (Token.scan source)

end Program

end FlatStack
