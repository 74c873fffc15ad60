import FlatStack.Code.Basic
import FlatStack.Program.Basic
import FlatStack.Scope.Basic

/-!
# Code of expressions and statements

The code of a part is known once its first address `base` is. Jump targets
follow from the lengths of the parts, so nothing is patched afterwards.

| part | code |
|---|---|
| `f($a, $b)` | `pushReturn after`, a `pushParameter` for each argument, `call entry` |
| `if (c) { s }` | code of `c`, `jumpIfZero after`, code of `s` |
| `if (c) { s } else { t }` | code of `c`, `jumpIfZero` to `t`, code of `s`, `jump after`, code of `t` |
| `while (c) { s }` | code of `c`, `jumpIfZero after`, code of `s`, `jump` to `c` |

When emission stops at an error, the code emitted so far is kept with it. The
jumps that were waiting for their target then lead to address zero.
-/

set_option autoImplicit false

namespace FlatStack

inductive EmissionError where
  /-- Arguments are passed by slot, so each must be a variable. -/
  | nonVariableArgument (function : String)
  | unresolvedVariable (name : String)
  deriving DecidableEq, Repr

def EmissionError.message : EmissionError → String
  | .nonVariableArgument function =>
    "call requires simple variable arguments (in call to '" ++ function ++ "')"
  | .unresolvedVariable name => "no address for variable '" ++ name ++ "'"

/-- An emission that stopped, with the code emitted until then. -/
structure Abandoned where
  cause : EmissionError
  code : List Instruction
  deriving DecidableEq, Repr

def Abandoned.behind (before : List Instruction) (a : Abandoned) : Abandoned :=
  { a with code := before ++ a.code }

abbrev Emission := Except Abandoned (List Instruction)

namespace Emission

def stop {α : Type} (cause : EmissionError) : Except Abandoned α := .error ⟨cause, []⟩

/-- An emission that goes on behind the code `before`. -/
def behind {α : Type} (before : List Instruction) (e : Except Abandoned α) : Except Abandoned α :=
  e.mapError (Abandoned.behind before)

end Emission

/-- Where the code of functions begins, the latest function first. -/
abbrev Entries := List (String × Nat)

def Entries.find? (entries : Entries) (name : String) : Option Nat := entries.lookup name

/-- What the code of a statement depends on besides its address. -/
structure Context where
  scope : Scope
  /-- The number of variables at top level. -/
  globals : Nat
  entries : Entries

namespace Context

open Emission

def slot (c : Context) (name : String) : Except Abandoned Nat :=
  match c.scope.slot? c.globals name with
  | some slot => .ok slot
  | none => stop (.unresolvedVariable name)

/-- The entry of a function. A call of a function that has none leads to
address zero. -/
def entry (c : Context) (name : String) : Nat := (c.entries.find? name).getD 0

def parameterCode (c : Context) (callee : String) : List Expr → Emission
  | [] => pure []
  | .var name :: arguments => do
    let first := Instruction.withNat .pushParameter (← c.slot name)
    let others ← behind [first] (c.parameterCode callee arguments)
    pure (first :: others)
  | _ :: _ => stop (.nonVariableArgument callee)

def callCode (c : Context) (base : Nat) (callee : String) (arguments : List Expr) : Emission := do
  let parameters ← behind [.withNat .pushReturn 0] (c.parameterCode callee arguments)
  let after := base + parameters.length + 2
  pure (.withNat .pushReturn after :: parameters ++ [.withNat .call (c.entry callee)])

/-- Leaves one value on the stack, which is zero for a call. -/
def exprCode (c : Context) (base : Nat) : Expr → Emission
  | .number n => pure [.withNumber .const n]
  | .var name => do pure [.withNat .load (← c.slot name)]
  | .read => pure [.bare .read]
  | .unary op e => do
    let operand ← c.exprCode base e
    pure (operand ++ [.bare (.unary op)])
  | .binary op l r => do
    let left ← c.exprCode base l
    let right ← behind left (c.exprCode (base + left.length) r)
    pure (left ++ right ++ [.bare (.binary op)])
  | .call callee arguments => do
    let call ← c.callCode base callee arguments
    pure (call ++ [.withNat .const 0])

/-- A number that is read into a variable is asked for by the variable's name. -/
def valueCode (c : Context) (base : Nat) (name : String) : Expr → Emission
  | .read => pure [(Instruction.bare .read).commented name]
  | e => c.exprCode base e

def assignmentCode (c : Context) (base : Nat) (name : String) (e : Expr) : Emission := do
  let value ← c.valueCode base name e
  let slot ← behind value (c.slot name)
  pure (value ++ [.withNat .store slot])

mutual

def statementCode (c : Context) (base : Nat) : Statement → Emission
  | .echo e => do
    let value ← c.exprCode base e
    pure (value ++ [.bare .print])
  | .assign name e => c.assignmentCode base name e
  | .ifThen e body => do
    let condition ← c.exprCode base e
    let start := base + condition.length + 1
    let inner ← behind (condition ++ [.withNat .jumpIfZero 0]) (c.statementsCode start body)
    pure (condition ++ .withNat .jumpIfZero (start + inner.length) :: inner)
  | .ifElse e body otherwise => do
    let condition ← c.exprCode base e
    let start := base + condition.length + 1
    let inner ← behind (condition ++ [.withNat .jumpIfZero 0]) (c.statementsCode start body)
    let second := start + inner.length + 1
    let branch := condition ++ .withNat .jumpIfZero second :: inner
    let other ← behind (branch ++ [.withNat .jump 0]) (c.statementsCode second otherwise)
    pure (branch ++ .withNat .jump (second + other.length) :: other)
  | .loop e body => do
    let condition ← c.exprCode base e
    let start := base + condition.length + 1
    let inner ← behind (condition ++ [.withNat .jumpIfZero 0]) (c.statementsCode start body)
    let after := start + inner.length + 1
    pure (condition ++ .withNat .jumpIfZero after :: inner ++ [.withNat .jump base])
  | .call callee arguments => c.callCode base callee arguments

def statementsCode (c : Context) (base : Nat) : List Statement → Emission
  | [] => pure []
  | s :: ss => do
    let first ← c.statementCode base s
    let others ← behind first (c.statementsCode (base + first.length) ss)
    pure (first ++ others)

end

/-- Slots begin as zero, and numbers closer to zero than this count as zero. -/
def zeroTolerance : Float := 1e-9

/-- Whether an initializer leaves the slot as it is. -/
def isZero : Expr → Bool
  | .number n => decide (n.abs < zeroTolerance)
  | _ => false

def initializersCode (c : Context) (base : Nat) : Variables → Emission
  | [] => pure []
  | (_, none) :: vars => c.initializersCode base vars
  | (name, some e) :: vars =>
    if isZero e then c.initializersCode base vars
    else do
      let first ← c.assignmentCode base name e
      let others ← behind first (c.initializersCode (base + first.length) vars)
      pure (first ++ others)

/-- What a body does once its slots exist and its functions are out of the way. -/
def actionCode (c : Context) (base : Nat) (vars : Variables)
    (statements : List Statement) : Emission := do
  let first ← c.initializersCode base vars
  let others ← behind first (c.statementsCode (base + first.length) statements)
  pure (first ++ others)

end Context

end FlatStack
