import FlatStack.Program.Basic
import FlatStack.Scope.Analysis

/-!
# The scope check

Every name must be declared once in its scope before it is used, and every
call must fit its callee. The check goes through the whole program and
reports all it finds, in the order of the source, but it does not look inside
a declaration that repeats a name or at the arguments of a call whose callee
is no function.
-/

set_option autoImplicit false

namespace FlatStack

inductive ScopeError where
  | duplicateVariable (name scope : String)
  | duplicateFunction (name : String)
  | duplicateSymbol (name scope : String)
  | nestedFunction (name : String)
  | undeclaredVariable (name : String)
  | functionAsVariable (name : String)
  | undeclaredFunction (name : String)
  | notFunction (name : String)
  | argumentCount (function : String) (expected found : Nat)
  deriving DecidableEq, Repr

namespace ScopeError

def message : ScopeError → String
  | .duplicateVariable name scope =>
    "variable '" ++ name ++ "' already declared in scope '" ++ scope ++ "'"
  | .duplicateFunction name => "function '" ++ name ++ "' already declared"
  | .duplicateSymbol name scope => "duplicate symbol '" ++ name ++ "' in scope '" ++ scope ++ "'"
  | .nestedFunction name => "function '" ++ name ++ "' must be declared at top level"
  | .undeclaredVariable name => "variable '" ++ name ++ "' not declared"
  | .functionAsVariable name => "'" ++ name ++ "' is a function, not a variable"
  | .undeclaredFunction name => "function '" ++ name ++ "' not declared"
  | .notFunction name => "'" ++ name ++ "' is not a function"
  | .argumentCount function expected found =>
    "function '" ++ function ++ "' expects " ++ toString expected ++ " argument(s), found "
      ++ toString found

/-- The report of a failed check. -/
def report (errors : List ScopeError) : String :=
  toString errors.length ++ " semantic error(s):"
    ++ String.join (errors.map fun e => "\n  " ++ e.message)

end ScopeError

namespace Scope

/-! ## Uses -/

def variableErrors (scope : Scope) (name : String) : List ScopeError :=
  match scope.lookup? name with
  | none => [.undeclaredVariable name]
  | some s => if s.meaning.isFunction then [.functionAsVariable name] else []

/-- The errors of a call with `found` arguments, whose own errors are `inner`. -/
def callErrors (scope : Scope) (callee : String) (found : Nat) (inner : List ScopeError) :
    List ScopeError :=
  match scope.lookup? callee with
  | none => [.undeclaredFunction callee]
  | some s =>
    match s.meaning with
    | .function parameters =>
      (if parameters.length = found then []
        else [.argumentCount callee parameters.length found]) ++ inner
    | _ => [.notFunction callee]

mutual

def exprErrors (scope : Scope) : Expr → List ScopeError
  | .number _ => []
  | .var name => variableErrors scope name
  | .read => []
  | .unary _ e => exprErrors scope e
  | .binary _ l r => exprErrors scope l ++ exprErrors scope r
  | .call callee arguments =>
    callErrors scope callee arguments.length (exprsErrors scope arguments)

def exprsErrors (scope : Scope) : List Expr → List ScopeError
  | [] => []
  | e :: es => exprErrors scope e ++ exprsErrors scope es

end

mutual

def statementErrors (scope : Scope) : Statement → List ScopeError
  | .echo e => exprErrors scope e
  | .assign name e => variableErrors scope name ++ exprErrors scope e
  | .ifThen c body => exprErrors scope c ++ statementsErrors scope body
  | .ifElse c body otherwise =>
    exprErrors scope c ++ statementsErrors scope body ++ statementsErrors scope otherwise
  | .loop c body => exprErrors scope c ++ statementsErrors scope body
  | .call callee arguments =>
    callErrors scope callee arguments.length (exprsErrors scope arguments)

def statementsErrors (scope : Scope) : List Statement → List ScopeError
  | [] => []
  | s :: ss => statementErrors scope s ++ statementsErrors scope ss

end

/-! ## Declarations -/

/-- Goes through declarations, each of which may extend what is known. -/
def declareAll {κ : Type} (declare : κ → Declaration → κ × List ScopeError) :
    κ → List Declaration → κ × List ScopeError
  | known, [] => (known, [])
  | known, d :: ds =>
    let (known, errors) := declare known d
    let (known, others) := declareAll declare known ds
    (known, errors ++ others)

/-- Declares a variable, which its own initializer sees already. -/
def declareVariable (scope : Scope) (name : String) (initializer : Option Expr) :
    Scope × List ScopeError :=
  if scope.table.has name then
    (scope, [.duplicateVariable name scope.table.name])
  else
    let (address, table) := scope.table.allocate
    let scope := { scope with
      table := table.register { name, meaning := .variable table.name address } }
    (scope, (initializer.map (exprErrors scope)).getD [])

/-- Declares parameters. A repeated one keeps its address unused. -/
def declareParameters : Table → List String → Table × List ScopeError
  | t, [] => (t, [])
  | t, name :: names =>
    let (address, allocated) := t.allocate
    let (t, errors) :=
      match allocated.register? { name, meaning := .parameter t.name address } with
      | some t => (t, [])
      | none => (allocated, [.duplicateSymbol name t.name])
    let (t, others) := declareParameters t names
    (t, errors ++ others)

def declareLocal (scope : Scope) : Declaration → Scope × List ScopeError
  | .variable name initializer => declareVariable scope name initializer
  | .function name .. => (scope, [.nestedFunction name])

/-- The table of a function and the errors in its body. -/
def functionTable (globals : Table) (name : String) (parameters : List String)
    (declarations : List Declaration) (statements : List Statement) :
    Table × List ScopeError :=
  let scope := (ofTable globals).inside name
  let (table, parameterErrors) := declareParameters scope.table parameters
  let (scope, declarationErrors) := declareAll declareLocal { scope with table } declarations
  (scope.table, parameterErrors ++ declarationErrors ++ statementsErrors scope statements)

/-- Declares a function, which its own body sees already. -/
def declareFunction (a : Analysis) (name : String) (parameters : List String)
    (declarations : List Declaration) (statements : List Statement) :
    Analysis × List ScopeError :=
  if a.globals.has name then
    (a, [.duplicateFunction name])
  else
    let globals := a.globals.register { name, meaning := .function parameters }
    let (table, errors) := functionTable globals name parameters declarations statements
    ({ globals := globals.setSlotCount name table.nextAddress
       functions := a.functions ++ [table] }, errors)

def declareGlobal (a : Analysis) : Declaration → Analysis × List ScopeError
  | .variable name initializer =>
    let (scope, errors) := declareVariable (ofTable a.globals) name initializer
    ({ a with globals := scope.table }, errors)
  | .function name parameters declarations statements =>
    declareFunction a name parameters declarations statements

end Scope

namespace Program

/-- The analysis of a program, or all errors found in it. -/
def analyze (p : Program) : Except (List ScopeError) Analysis :=
  let (a, declarationErrors) := Scope.declareAll Scope.declareGlobal {} p.declarations
  let errors := declarationErrors ++ Scope.statementsErrors (Scope.ofTable a.globals) p.statements
  if errors.isEmpty then .ok a else .error errors

end Program

end FlatStack
