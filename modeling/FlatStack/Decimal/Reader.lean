/-!
# Reading a number

A numeral is an optional sign and then one of the words `inf`, `infinity` and
`nan` in any case, or digits with at most one point among or beside them and
an optional exponent. The nearest binary64 number is its value.
-/

set_option autoImplicit false

namespace FlatStack.Decimal

def digitValue (c : Char) : Nat := c.toNat - '0'.toNat

/-- The number written by `ds`, continuing `n`. -/
def numberFrom (n : Nat) (ds : List Char) : Nat :=
  ds.foldl (fun n d => 10 * n + digitValue d) n

/-- Larger decimal exponents than this lie beyond binary64 on either side. -/
def exponentBound : Nat := 400

/-- The nearest binary64 number to `n * 10 ^ e`, where `n` has at most `width`
digits. Exponents out of reach are settled without computing the power. -/
def nearest (n width : Nat) (e : Int) : Float :=
  if n = 0 then 0
  else if (exponentBound : Int) < e then 1.0 / 0.0
  else if e < -((exponentBound + width : Nat) : Int) then 0
  else Float.ofScientific n (decide (e < 0)) e.natAbs

/-- The exponent after the digits: nothing, or `e`, a sign and digits. -/
def readExponent? : List Char → Option Int
  | [] => some 0
  | c :: cs =>
    if c = 'e' ∨ c = 'E' then
      let (negative, ds) := match cs with
        | '-' :: ds => (true, ds)
        | '+' :: ds => (false, ds)
        | ds => (false, ds)
      if ds.isEmpty || !ds.all Char.isDigit then none
      else
        let n := numberFrom 0 ds
        some (if negative then -(n : Int) else n)
    else none

/-- Digits, a point with digits after it, an exponent. -/
def readDigits? (cs : List Char) : Option Float :=
  let (whole, rest) := cs.span Char.isDigit
  let (fraction, tail) := match rest with
    | '.' :: rest => rest.span Char.isDigit
    | _ => ([], rest)
  if whole.isEmpty && fraction.isEmpty then none
  else
    (readExponent? tail).map fun e =>
      nearest (numberFrom (numberFrom 0 whole) fraction) (whole.length + fraction.length)
        (e - fraction.length)

/-- A numeral without its sign. -/
def readUnsigned? (cs : List Char) : Option Float :=
  match String.ofList (cs.map Char.toLower) with
  | "inf" | "infinity" => some (1.0 / 0.0)
  | "nan" => some (0.0 / 0.0)
  | _ => readDigits? cs

/-- Reads a whole text as one numeral. -/
def read? : List Char → Option Float
  | '-' :: cs => (readUnsigned? cs).map (- ·)
  | '+' :: cs => readUnsigned? cs
  | cs => readUnsigned? cs

end FlatStack.Decimal
