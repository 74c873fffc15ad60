import FlatStack.Decimal.Notation
import FlatStack.Program.Basic

/-!
# Written expressions

Every binary operation has its parentheses, so the text shows the tree.
-/

set_option autoImplicit false

namespace FlatStack.Expr

mutual

def text : Expr → String
  | .number n => Decimal.plain n
  | .var name => name
  | .read => "floatval(readline())"
  | .unary op e => op.symbol ++ text e
  | .binary op l r => "(" ++ text l ++ " " ++ op.symbol ++ " " ++ text r ++ ")"
  | .call callee arguments => callee ++ "(" ++ ", ".intercalate (texts arguments) ++ ")"

def texts : List Expr → List String
  | [] => []
  | e :: es => text e :: texts es

end

end FlatStack.Expr
