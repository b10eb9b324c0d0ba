import Conform.Calendar.Date

/-!
# Moments in time

A moment is a count of seconds from 1970-01-01T00:00:00 UTC, in days of 86400
seconds, and a fraction in nanoseconds.  A leap second is the end of a minute
whose fraction has run over into a second more.

## Main definitions

* `DateTime`: a moment.
* `DateTime.ofMillis?`: the moment of a count of milliseconds.
-/

namespace Conform

/-- A moment; a fraction of `10 ^ 9` nanoseconds and more marks a leap second. -/
structure DateTime where
  seconds : Int
  nanos : Nat
  deriving DecidableEq, Repr

namespace DateTime

/-- The seconds in a day. -/
def secondsPerDay : Int := 86400

/-- The nanoseconds in a second. -/
def nanosPerSecond : Nat := 1000000000

/-- The day that a moment lies in. -/
def date (moment : DateTime) : Date := Date.ofDays (moment.seconds / secondsPerDay)

/-- The seconds since the beginning of the day. -/
def secondOfDay (moment : DateTime) : Nat := (moment.seconds % secondsPerDay).toNat

/-- Whether the calendar is kept for the year of a moment. -/
def inCalendar (moment : DateTime) : Bool :=
  Date.firstYear ≤ moment.date.year ∧ moment.date.year ≤ Date.lastYear

/-- The moment that begins a day. -/
def ofDate (date : Date) : DateTime := ⟨date.toDays * secondsPerDay, 0⟩

/-- The moment that lies the given number of milliseconds after 1970-01-01, if the
calendar is kept for it. -/
def ofMillis? (millis : Int) : Option DateTime :=
  let moment : DateTime := ⟨millis / 1000, (millis % 1000).toNat * 1000000⟩
  if moment.inCalendar then some moment else none

/-- The milliseconds from 1970-01-01 to a moment, whatever is finer dropped. -/
def toMillis (moment : DateTime) : Int := moment.seconds * 1000 + moment.nanos / 1000000

end DateTime

end Conform
