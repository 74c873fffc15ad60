/-!
# Operators

Source programs and machine code share these operators. Truth values are
numbers: a comparison yields one or zero, the connectives take only an exact
one for true, and `not` subtracts from one.
-/

set_option autoImplicit false

namespace FlatStack

inductive UnaryOp where
  | neg
  | not
  deriving DecidableEq, Repr

inductive Relation where
  | eq
  | ne
  | ge
  | le
  | gt
  | lt
  deriving DecidableEq, Repr

inductive BinaryOp where
  | add
  | sub
  | mul
  | div
  | compare (relation : Relation)
  | and
  | or
  deriving DecidableEq, Repr

namespace UnaryOp

def symbol : UnaryOp → String
  | .neg => "-"
  | .not => "!"

def apply : UnaryOp → Float → Float
  | .neg, v => -v
  | .not, v => 1.0 - v

end UnaryOp

namespace Relation

def symbol : Relation → String
  | .eq => "=="
  | .ne => "!="
  | .ge => ">="
  | .le => "<="
  | .gt => ">"
  | .lt => "<"

def holds : Relation → Float → Float → Bool
  | .eq, a, b => a == b
  | .ne, a, b => a != b
  | .ge, a, b => decide (b ≤ a)
  | .le, a, b => decide (a ≤ b)
  | .gt, a, b => decide (b < a)
  | .lt, a, b => decide (a < b)

end Relation

/-- The number that stands for a truth value. -/
def ofTruth (b : Bool) : Float := if b then 1.0 else 0.0

/-- What the connectives take for true. -/
def isTrue (v : Float) : Bool := v == 1.0

namespace BinaryOp

def symbol : BinaryOp → String
  | .add => "+"
  | .sub => "-"
  | .mul => "*"
  | .div => "/"
  | .compare r => r.symbol
  | .and => "&&"
  | .or => "||"

/-- The value of `a op b`. Whether a division is allowed is for its user to
decide. -/
def apply : BinaryOp → Float → Float → Float
  | .add, a, b => a + b
  | .sub, a, b => a - b
  | .mul, a, b => a * b
  | .div, a, b => a / b
  | .compare r, a, b => ofTruth (r.holds a b)
  | .and, a, b => ofTruth (isTrue a && isTrue b)
  | .or, a, b => ofTruth (isTrue a || isTrue b)

end BinaryOp

end FlatStack
