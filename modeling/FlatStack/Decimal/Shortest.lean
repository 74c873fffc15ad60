import FlatStack.Decimal.Binary64

/-!
# The fewest digits that read back

A positive number `m * 2 ^ q` is the nearest binary64 number of every real in
an interval around it. Among the decimals in that interval the shortest ones
lie on the coarsest decimal grid that meets it. On that grid only the two
neighbours of the number matter, so each grid is decided by two comparisons
of natural numbers.
-/

set_option autoImplicit false

namespace FlatStack.Decimal

/-- `digits * 10 ^ exponent`. -/
structure Scaled where
  digits : Nat
  exponent : Int
  deriving DecidableEq, Repr

/-- The reals that round to `value / unit`: from `low / unit` to `high / unit`,
ends included when `closed` holds. -/
structure Interval where
  low : Nat
  value : Nat
  high : Nat
  unit : Nat
  closed : Bool

namespace Interval

/-- The interval of `m * 2 ^ q`. Its ends lie half way to the neighbours, and
the neighbour below a power of two is only half as far. A tie rounds to the
even significand. -/
def ofBinary (m : Nat) (q : Int) : Interval :=
  let below := if m = Binary64.hidden ∧ q ≠ Binary64.leastExponent then 1 else 2
  let up := Nat.pow 2 (q - 2).toNat
  { low := (4 * m - below) * up
    value := 4 * m * up
    high := (4 * m + 2) * up
    unit := Nat.pow 2 (2 - q).toNat
    closed := m % 2 = 0 }

/-- Whether `x / unit` lies in the interval. -/
def contains (i : Interval) (x : Nat) : Bool :=
  if i.closed then decide (i.low ≤ x ∧ x ≤ i.high) else decide (i.low < x ∧ x < i.high)

/-- The same interval counted in steps of `10 ^ k`: one step is one `unit`. -/
def inSteps (i : Interval) (k : Int) : Interval :=
  let fine := Nat.pow 10 (-k).toNat
  { i with
    low := i.low * fine
    value := i.value * fine
    high := i.high * fine
    unit := i.unit * Nat.pow 10 k.toNat }

/-- The multiple of `10 ^ k` in the interval that is nearest to the value, an
exact half going up. -/
def nearest? (i : Interval) (k : Int) : Option Nat :=
  let steps := i.inSteps k
  let a := steps.value / steps.unit
  let lower := steps.contains (a * steps.unit)
  let upper := steps.contains ((a + 1) * steps.unit)
  let lowerIsNearer := decide (2 * steps.value < (2 * a + 1) * steps.unit)
  if lower && (lowerIsNearer || !upper) then some a
  else if upper then some (a + 1)
  else none

/-- Whether the value is below `10 ^ e`. -/
def below (i : Interval) (e : Int) : Bool :=
  decide (i.value * Nat.pow 10 (-e).toNat < i.unit * Nat.pow 10 e.toNat)

end Interval

/-- The least `e` with `m * 2 ^ q < 10 ^ e`. The first guess, from the binary
logarithm, is at most two below it. -/
def magnitude (m : Nat) (q : Int) : Int :=
  let i := Interval.ofBinary m q
  let guess := Int.fdiv (((Nat.log2 m : Nat) + q) * 30103) 100000
  if i.below guess then guess
  else if i.below (guess + 1) then guess + 1
  else guess + 2

/-- Seventeen digits tell all binary64 numbers apart. -/
def mostDigits : Nat := 17

/-- The shortest decimal that reads back as `m * 2 ^ q`, the nearest one of
that length. Only the coarsest grid can yield a power of ten, which is then
written with a single digit. -/
def shortest (m : Nat) (q : Int) : Scaled :=
  let i := Interval.ofBinary m q
  let e := magnitude m q
  let grids := (List.range mostDigits).map fun d => e - (d + 1 : Nat)
  match grids.findSome? fun k => (i.nearest? k).map fun n => (⟨n, k⟩ : Scaled) with
  | some ⟨10, k⟩ => ⟨1, k + 1⟩
  | some s => s
  | none => ⟨m, q⟩

end FlatStack.Decimal
