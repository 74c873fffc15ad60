import FlatStack.Proofs.Routines

/-!
# Occurrences of names

Expressions and statements name variables and call functions. All of these
occurrences are listed from left to right, a call before what occurs in its
arguments. Those of a body come in the order of its code: functions, then
initializers, then statements.
-/

set_option autoImplicit false

namespace FlatStack

inductive Occurrence where
  | variable (name : String)
  | call (callee : String) (arguments : List Expr)

namespace Expr

mutual

def occurrences : Expr → List Occurrence
  | .number _ | .read => []
  | .var name => [.variable name]
  | .unary _ e => occurrences e
  | .binary _ l r => occurrences l ++ occurrences r
  | .call callee arguments => .call callee arguments :: occurrencesAll arguments

def occurrencesAll : List Expr → List Occurrence
  | [] => []
  | e :: es => occurrences e ++ occurrencesAll es

end

end Expr

namespace Statement

mutual

def occurrences : Statement → List Occurrence
  | .echo e => e.occurrences
  | .assign name e => .variable name :: e.occurrences
  | .ifThen c body | .loop c body => c.occurrences ++ occurrencesAll body
  | .ifElse c body otherwise => c.occurrences ++ occurrencesAll body ++ occurrencesAll otherwise
  | .call callee arguments => .call callee arguments :: Expr.occurrencesAll arguments

def occurrencesAll : List Statement → List Occurrence
  | [] => []
  | s :: ss => occurrences s ++ occurrencesAll ss

end

end Statement

namespace Variables

/-- The occurrences in initializers. -/
def occurrences (vars : Variables) : List Occurrence :=
  vars.flatMap fun v => (v.2.map Expr.occurrences).getD []

end Variables

namespace Declaration

mutual

/-- What occurs in a function. -/
def occurrences : Declaration → List Occurrence
  | .variable .. => []
  | .function _ _ declarations statements => occurrencesAll declarations
      ++ ((vars declarations).occurrences ++ Statement.occurrencesAll statements)

/-- What occurs in functions. -/
def occurrencesAll : List Declaration → List Occurrence
  | [] => []
  | d :: ds => occurrences d ++ occurrencesAll ds

end

end Declaration

namespace Body

def occurrences (p : Body) : List Occurrence :=
  Declaration.occurrencesAll p.declarations
    ++ (p.vars.occurrences ++ Statement.occurrencesAll p.statements)

end Body

end FlatStack
