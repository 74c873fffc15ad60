/-!
# The value of a binary64 number

A finite number is a sign, a significand below `2 ^ 53` and a power of two.
-/

set_option autoImplicit false

namespace FlatStack.Decimal

/-- `finite s m q` stands for `m * 2 ^ q`, negated when `s` holds. -/
inductive Binary64 where
  | nan
  | infinite (negative : Bool)
  | finite (negative : Bool) (significand : Nat) (exponent : Int)
  deriving DecidableEq, Repr

namespace Binary64

/-- The significand of the least normal number. -/
def hidden : Nat := Nat.pow 2 52

/-- The exponent shared by zero, the subnormal and the least normal numbers. -/
def leastExponent : Int := -1074

/-- Decodes a word. An exponent field of zero has no hidden bit, and one of
all ones holds the infinities and the numbers that are none. -/
def ofWord (word : Nat) : Binary64 :=
  let negative := decide (Nat.pow 2 63 ≤ word)
  let field : Nat := word / hidden % Nat.pow 2 11
  let fraction : Nat := word % hidden
  if field = 2047 then
    if fraction = 0 then .infinite negative else .nan
  else if field = 0 then
    .finite negative fraction leastExponent
  else
    .finite negative (hidden + fraction) ((field : Int) - 1075)

def ofFloat (x : Float) : Binary64 := ofWord x.toBits.toNat

/-- The integer `m * 2 ^ q`, if it is one. -/
def natural? (significand : Nat) : Int → Option Nat
  | .ofNat k => some (significand * Nat.pow 2 k)
  | .negSucc k =>
    let scale := Nat.pow 2 (k + 1)
    if significand % scale = 0 then some (significand / scale) else none

end Binary64

end FlatStack.Decimal
