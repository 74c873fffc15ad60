import FlatStack.Operator

/-!
# Programs

A program is a body of declarations and statements. The tree allows more than
the grammar does: functions inside functions, any expression as an argument
or a condition. What of that is meaningful is decided by later passes.
-/

set_option autoImplicit false

namespace FlatStack

inductive Expr where
  | number (value : Float)
  | var (name : String)
  /-- One number from the console. -/
  | read
  | unary (op : UnaryOp) (operand : Expr)
  | binary (op : BinaryOp) (left right : Expr)
  | call (callee : String) (arguments : List Expr)
  deriving Inhabited, Repr

inductive Statement where
  | echo (value : Expr)
  | assign (name : String) (value : Expr)
  | ifThen (condition : Expr) (body : List Statement)
  | ifElse (condition : Expr) (body otherwise : List Statement)
  | loop (condition : Expr) (body : List Statement)
  | call (callee : String) (arguments : List Expr)
  deriving Inhabited, Repr

inductive Declaration where
  | variable (name : String) (initializer : Option Expr)
  | function (name : String) (parameters : List String)
      (declarations : List Declaration) (statements : List Statement)
  deriving Inhabited, Repr

structure Body where
  declarations : List Declaration
  statements : List Statement
  deriving Inhabited, Repr

/-- The variables of a body in order, with their initializers. -/
abbrev Variables := List (String × Option Expr)

/-- The body between the two tags. -/
abbrev Program := Body

namespace Declaration

/-- The variables among declarations, with their initializers. -/
def vars : List Declaration → Variables
  | [] => []
  | .variable name initializer :: ds => (name, initializer) :: vars ds
  | .function .. :: ds => vars ds

/-- The names of the functions among declarations. -/
def functionNames : List Declaration → List String
  | [] => []
  | .variable .. :: ds => functionNames ds
  | .function name .. :: ds => name :: functionNames ds

end Declaration

namespace Body

def variableNames (b : Body) : List String := (Declaration.vars b.declarations).map (·.1)

def functionNames (b : Body) : List String := Declaration.functionNames b.declarations

end Body

end FlatStack
