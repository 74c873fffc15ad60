import FlatStack.Decimal.Shortest

/-!
# Written numbers

Three notations share their digits. The plain one never has an exponent. The
marked one shows by a point or an exponent that the number is binary64, and
turns to an exponent for very large and very small numbers. The operand one
writes integers in full, with every digit of their exact value.
-/

set_option autoImplicit false

namespace FlatStack.Decimal

def signed (negative : Bool) (text : String) : String :=
  if negative then "-" ++ text else text

def zeros (n : Nat) : String := String.ofList (List.replicate n '0')

/-- Positional notation: zeros fill the places up to the point on either side. -/
def Scaled.positional (s : Scaled) : String :=
  let digits := s.digits.repr.toList
  match s.exponent with
  | .ofNat k => s.digits.repr ++ zeros k
  | .negSucc k =>
    let places := k + 1
    if places < digits.length then
      let whole := digits.length - places
      String.ofList (digits.take whole) ++ "." ++ String.ofList (digits.drop whole)
    else
      "0." ++ zeros (places - digits.length) ++ s.digits.repr

/-- The exponent of the leading digit. -/
def Scaled.leading (s : Scaled) : Int :=
  s.exponent + s.digits.repr.length - 1

/-- Scientific notation: one digit, the others after a point, the exponent. -/
def Scaled.scientific (s : Scaled) : String :=
  let digits := s.digits.repr.toList
  let tail := digits.drop 1
  let fraction := if tail.isEmpty then "" else "." ++ String.ofList tail
  String.ofList (digits.take 1) ++ fraction ++ "e" ++ toString s.leading

/-- From here on the marked notation has an exponent. -/
def scientificFrom : Int := 16

/-- Below this exponent the marked notation has an exponent. -/
def positionalFrom : Int := -4

/-- The marked notation of a positive number. -/
def Scaled.marked (s : Scaled) : String :=
  if s.leading < positionalFrom || scientificFrom ≤ s.leading then s.scientific
  else if s.exponent < 0 then s.positional
  else s.positional ++ ".0"

/-- The shortest digits, in positional notation: `5`, `-0`, `0.0000001`. -/
def plain (x : Float) : String :=
  match Binary64.ofFloat x with
  | .nan => "NaN"
  | .infinite negative => signed negative "inf"
  | .finite negative 0 _ => signed negative "0"
  | .finite negative m q => signed negative (shortest m q).positional

/-- The shortest digits with a point or an exponent: `2.0`, `1e20`, `1.5e-7`. -/
def marked (x : Float) : String :=
  match Binary64.ofFloat x with
  | .nan => "NaN"
  | .infinite negative => signed negative "inf"
  | .finite negative 0 _ => signed negative "0.0"
  | .finite negative m q => signed negative (shortest m q).marked

/-- An integer in full, zero without a sign; any other number as in `plain`. -/
def operand (x : Float) : String :=
  match Binary64.ofFloat x with
  | .finite negative m q =>
    match Binary64.natural? m q with
    | some 0 => "0"
    | some n => signed negative n.repr
    | none => plain x
  | _ => plain x

end FlatStack.Decimal
