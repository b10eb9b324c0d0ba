/-!
# Doubles and the integers they stand for

Numbers are IEEE 754 doubles.  Two questions about a double have answers in the
integers: which integer it is, when it has no fraction, and which integer is
left when the fraction is dropped.  Both are read off the sign, significand and
exponent of the double, so they are exact.

## Main definitions

* `Number.whole?`: the integer that a double equals.
* `Number.truncate?`: the integer part, towards zero.
* `Number.ofInt`: the double nearest to an integer.
* `Number.ofDecimal`: the double nearest to a decimal.
-/

namespace Conform.Number

/-- The integer `m * 2 ^ e`, when it is one. -/
def wholeMagnitude? (m : Nat) (e : Int) : Option Nat :=
  if 0 ≤ e then some (m * Nat.pow 2 e.toNat)
  else if m % Nat.pow 2 (-e).toNat = 0 then some (m / Nat.pow 2 (-e).toNat)
  else none

/-- The integer that a double equals; none for fractions, infinities and NaN. -/
def whole? (x : Float) : Option Int :=
  match x.toModel.unpack with
  | .zero _ => some 0
  | .finite sign m e _ => (wholeMagnitude? m e).map sign.apply
  | .infinity _ => none
  | .notANumber => none

/-- Integers of smaller magnitude are exactly the ones that doubles can tell
from both of their neighbours. -/
def safeLimit : Nat := Nat.pow 2 53

/-- The integer that a double equals, when it is below `safeLimit` in magnitude. -/
def safeWhole? (x : Float) : Option Int :=
  (whole? x).filter fun n => n.natAbs < safeLimit

/-- The integer part of a double, dropping the fraction; infinities and NaN have
none. -/
def truncate? (x : Float) : Option Int :=
  match x.toModel.unpack with
  | .zero _ => some 0
  | .finite sign m e _ =>
    some (sign.apply (if 0 ≤ e then m * Nat.pow 2 e.toNat else m / Nat.pow 2 (-e).toNat))
  | .infinity _ => none
  | .notANumber => none

/-- The double nearest to an integer, of two the one with the even significand. -/
def ofInt (n : Int) : Float := .ofModel (.ofInt n)

/-- The double nearest to `coefficient * 10 ^ exponent`, of two the one with the
even significand. -/
def ofDecimal (coefficient : Nat) (exponent : Int) : Float :=
  .ofModel (.ofScientific coefficient exponent)

/-- Not a number. -/
def nan : Float := .ofModel (.pack .notANumber)

/-- Positive infinity. -/
def infinity : Float := .ofModel (.pack (.infinity .positive))

end Conform.Number
