/-!
# The shortest decimal that reads back

A double is written with as few digits as still identify it, and with the
nearest of the decimals that have so few digits.  Everything is computed with
natural numbers, so no step rounds.

The reals that round to `m * 2 ^ q` form an interval around it.  Its ends lie
half way to the neighbouring doubles, and belong to it exactly when `m` is even.
For `n = 1, 2, …` the decimals with `n` digits form a grid; a grid that meets
the interval also meets it in one of the two points next to `m * 2 ^ q`, so
only those two are tried.  Seventeen digits always suffice.

## Main definitions

* `Decimal.Interval`: a double with the reals that round to it.
* `Decimal.shortest`: the digits and the place of the point.
-/

namespace Conform.Decimal

/-- Which of two decimals is taken when the double lies half way between them. -/
inductive Tie where
  /-- The one with the even last digit. -/
  | toEven
  /-- The one farther from zero. -/
  | away
  deriving DecidableEq, Repr

/-- The digits `coefficient` with the last one at the place `10 ^ exponent`. -/
structure Digits where
  /-- All digits, read as one number. -/
  coefficient : Nat
  /-- The power of ten of the last digit. -/
  exponent : Int
  deriving DecidableEq, Repr

/-- The number of decimal digits; zero has none. -/
def digitCount (n : Nat) : Nat := if n = 0 then 0 else (Nat.toDigits 10 n).length

/-- A positive double and the ends of the reals that round to it, as numerators
over one denominator. -/
structure Interval where
  /-- The lower end. -/
  low : Nat
  /-- The double itself. -/
  value : Nat
  /-- The upper end. -/
  high : Nat
  /-- The common denominator. -/
  denominator : Nat
  /-- Whether the ends round to the double too. -/
  closed : Bool

/-- The exponent of the smallest doubles. -/
def leastExponent : Int := -1074

/-- The reals that round to `m * 2 ^ q`.  Below a power of two the doubles are
twice as dense, so there the lower end is twice as near. -/
def Interval.around (m : Nat) (q : Int) : Interval :=
  let below := if m = Nat.pow 2 52 ∧ leastExponent < q then 1 else 2
  let scale := if 0 ≤ q then Nat.pow 2 q.toNat else 1
  { low := (4 * m - below) * scale
    value := 4 * m * scale
    high := (4 * m + 2) * scale
    denominator := if 0 ≤ q then 4 else 4 * Nat.pow 2 (-q).toNat
    closed := m % 2 = 0 }

/-- Whether a point lies above the lower end, both over one denominator; the end
itself counts if the interval is closed. -/
def Interval.isAboveLow (interval : Interval) (point low : Nat) : Bool :=
  if interval.closed then low ≤ point else low < point

/-- Whether a point lies below the upper end, both over one denominator; the end
itself counts if the interval is closed. -/
def Interval.isBelowHigh (interval : Interval) (point high : Nat) : Bool :=
  if interval.closed then point ≤ high else point < high

/-- The place `k` of the leading digit: the value is at least `10 ^ (k - 1)` and
below `10 ^ k`. -/
def Interval.leadingPlace (interval : Interval) : Int :=
  let whole := interval.value / interval.denominator
  if whole = 0 then
    -- The value is at least `10 ^ (k - 1)` if its reciprocal, rounded up, is at most
    -- `10 ^ (1 - k)`, that is, if one less than it has at most `1 - k` digits.
    let reciprocal := (interval.denominator + interval.value - 1) / interval.value
    1 - digitCount (reciprocal - 1)
  else digitCount whole

/-- The decimal of `count` digits next to the value that rounds to it, the nearer
one if both neighbours do. -/
def Interval.onGrid? (interval : Interval) (tie : Tie) (place : Int) (count : Nat) :
    Option Digits :=
  let exponent := place - count
  -- All is scaled so that the value and its ends are whole, with `unit` as the grid's step.
  let shrink := if 0 ≤ exponent then 1 else Nat.pow 10 (-exponent).toNat
  let unit := interval.denominator * if 0 ≤ exponent then Nat.pow 10 exponent.toNat else 1
  let value := interval.value * shrink
  let lower := value / unit
  let rest := value % unit
  let lowerFits := interval.isAboveLow (lower * unit) (interval.low * shrink)
  let upperFits := interval.isBelowHigh ((lower + 1) * unit) (interval.high * shrink)
  let takeUpper :=
    match compare (2 * rest) unit with
    | .lt => false
    | .gt => true
    | .eq =>
      match tie with
      | .toEven => lower % 2 = 1
      | .away => true
  match lowerFits, upperFits with
  | false, false => none
  | true, false => some ⟨lower, exponent⟩
  | false, true => some ⟨lower + 1, exponent⟩
  | true, true => some ⟨if takeUpper then lower + 1 else lower, exponent⟩

/-- The first grid of at least `count` digits that has a decimal in the interval. -/
def Interval.firstGrid (interval : Interval) (tie : Tie) (place : Int) : Nat → Nat → Digits
  | 0, count => ⟨interval.value / interval.denominator, place - count⟩
  | more + 1, count =>
    (interval.onGrid? tie place count).getD (interval.firstGrid tie place more (count + 1))

/-- Moves zeros at the end of the coefficient into the exponent. -/
def Digits.trim (digits : Digits) : Digits :=
  if h : digits.coefficient ≠ 0 ∧ digits.coefficient % 10 = 0 then
    Digits.trim ⟨digits.coefficient / 10, digits.exponent + 1⟩
  else digits
termination_by digits.coefficient
decreasing_by exact Nat.div_lt_self (Nat.pos_of_ne_zero h.1) (by decide)

/-- The digits of the positive double `m * 2 ^ q`. -/
def shortest (tie : Tie) (m : Nat) (q : Int) : Digits :=
  let interval := Interval.around m q
  (interval.firstGrid tie interval.leadingPlace 17 1).trim

end Conform.Decimal
