/-!
# Days of the proleptic Gregorian calendar

Dates are counted as days from 1970-01-01.  The count goes by years that begin
in March, so that the leap day comes last: four hundred of them have 146097 days,
a hundred of them 36524 and a day more at the end of the four hundred, four of
them 1461, and the months from March on have their lengths in a pattern that
repeats after 153 days.

## Main definitions

* `Date`: a year, a month and a day.
* `Date.toDays`, `Date.ofDays`: the count of days and back.
* `Date.ofParts?`: the date with the given parts, if the calendar has it.
-/

namespace Conform

/-- A day of the calendar; year zero comes before year one. -/
structure Date where
  year : Int
  month : Nat
  day : Nat
  deriving DecidableEq, Repr

namespace Date

/-- Every fourth year is a leap year, but of the full centuries only every fourth. -/
def isLeapYear (year : Int) : Bool := year % 4 = 0 ∧ (year % 100 ≠ 0 ∨ year % 400 = 0)

/-- The number of days in a month. -/
def daysInMonth (year : Int) (month : Nat) : Nat :=
  if month = 2 then if isLeapYear year then 29 else 28
  else if month = 4 ∨ month = 6 ∨ month = 9 ∨ month = 11 then 30
  else 31

/-- The first year that the calendar is kept for. -/
def firstYear : Int := -262143

/-- The last year that the calendar is kept for. -/
def lastYear : Int := 262142

/-- Whether a year, month and day are a date of the calendar. -/
def IsValid (date : Date) : Prop :=
  firstYear ≤ date.year ∧ date.year ≤ lastYear ∧ 1 ≤ date.month ∧ date.month ≤ 12 ∧
    1 ≤ date.day ∧ date.day ≤ daysInMonth date.year date.month

instance (date : Date) : Decidable date.IsValid := by unfold IsValid; infer_instance

/-- The date with the given parts, if the calendar has it. -/
def ofParts? (year : Int) (month day : Nat) : Option Date :=
  if IsValid ⟨year, month, day⟩ then some ⟨year, month, day⟩ else none

/-- The day 0000-03-01, counted from 1970-01-01. -/
def marchEpoch : Int := -719468

/-- The days in a full cycle of leap years. -/
def daysPerCycle : Int := 146097

/-- The days from the beginning of March to the beginning of the month that comes
`months` months later. -/
def daysBeforeMarchMonth (months : Nat) : Nat := (153 * months + 2) / 5

/-- The days from 1970-01-01. -/
def toDays (date : Date) : Int :=
  let year := if date.month ≤ 2 then date.year - 1 else date.year
  let yearOfCycle := (year % 400).toNat
  let marchMonth := (date.month + 9) % 12
  let dayOfYear := daysBeforeMarchMonth marchMonth + (date.day - 1)
  let dayOfCycle := yearOfCycle * 365 + yearOfCycle / 4 - yearOfCycle / 100 + dayOfYear
  year / 400 * daysPerCycle + dayOfCycle + marchEpoch

/-- The date that lies the given number of days after 1970-01-01. -/
def ofDays (days : Int) : Date :=
  let shifted := days - marchEpoch
  let dayOfCycle := (shifted % daysPerCycle).toNat
  -- The leap day of a whole cycle is a day more than its four centuries have, and that of
  -- four years a day more than their common years have: both belong to the last part.
  let century := min (dayOfCycle / 36524) 3
  let dayOfCentury := dayOfCycle - century * 36524
  let fourth := dayOfCentury / 1461
  let dayOfFourth := dayOfCentury % 1461
  let yearOfFourth := min (dayOfFourth / 365) 3
  let dayOfYear := dayOfFourth - yearOfFourth * 365
  let marchMonth := (5 * dayOfYear + 2) / 153
  let day := dayOfYear - daysBeforeMarchMonth marchMonth + 1
  let month := if marchMonth < 10 then marchMonth + 3 else marchMonth - 9
  let year : Int :=
    shifted / daysPerCycle * 400 + (century * 100 + fourth * 4 + yearOfFourth : Nat)
  ⟨if month ≤ 2 then year + 1 else year, month, day⟩

end Date

end Conform
