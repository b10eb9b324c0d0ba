import Conform.Calendar.DateTime

/-!
# Timestamps as text

Moments are written in the form of RFC 3339, in UTC with the offset spelled out:
`2024-05-01T08:00:00+00:00`.  They are read in that form with any offset, and
from a bare date.

## Main definitions

* `Rfc3339.write`: the text of a moment.
* `Rfc3339.read?`: the moment of a timestamp.
* `Rfc3339.readDate?`: the date of a bare date.
* `Rfc3339.readMoment?`: the moment of a text in either form.
-/

namespace Conform.Rfc3339

/-! ## Writing -/

/-- The decimal digit of a number below ten. -/
def digit (n : Nat) : Char := Char.ofNat ('0'.toNat + n % 10)

/-- The last `count` decimal digits of a number. -/
def digits : Nat → Nat → List Char
  | 0, _ => []
  | count + 1, n => digits count (n / 10) ++ [digit n]

/-- A number in at least four digits. -/
def fourOrMore (n : Nat) : List Char :=
  if n < 10000 then digits 4 n else Nat.toDigits 10 n

/-- Years have four digits; outside of four digits they carry a sign. -/
def writeYear (year : Int) : List Char :=
  if 0 ≤ year ∧ year ≤ 9999 then digits 4 year.toNat
  else (if year < 0 then '-' else '+') :: fourOrMore year.natAbs

/-- The fraction of a second, in milliseconds, microseconds or nanoseconds,
whichever is enough; none for whole seconds. -/
def writeFraction (nanos : Nat) : List Char :=
  if nanos = 0 then []
  else if nanos % 1000000 = 0 then '.' :: digits 3 (nanos / 1000000)
  else if nanos % 1000 = 0 then '.' :: digits 6 (nanos / 1000)
  else '.' :: digits 9 nanos

/-- The date as it is written. -/
def writeDate (date : Date) : List Char :=
  writeYear date.year ++ '-' :: digits 2 date.month ++ '-' :: digits 2 date.day

/-- The time of day as it is written; a leap second is the sixtieth of its minute. -/
def writeTime (secondOfDay nanos : Nat) : List Char :=
  let second := secondOfDay % 60 + nanos / DateTime.nanosPerSecond
  digits 2 (secondOfDay / 3600) ++ ':' :: digits 2 (secondOfDay / 60 % 60) ++
    ':' :: digits 2 second ++ writeFraction (nanos % DateTime.nanosPerSecond)

/-- The text of a moment. -/
def write (moment : DateTime) : String :=
  String.ofList (writeDate moment.date ++ 'T' :: writeTime moment.secondOfDay moment.nanos ++
    ['+', '0', '0', ':', '0', '0'])

/-! ## Reading -/

/-- The value of a decimal digit. -/
def digitValue? (c : Char) : Option Nat :=
  if c.isDigit then some (c.toNat - '0'.toNat) else none

/-- Reads exactly `count` digits, continuing the number `n`. -/
def exactly? : Nat → Nat → List Char → Option (Nat × List Char)
  | 0, n, cs => some (n, cs)
  | _ + 1, _, [] => none
  | count + 1, n, c :: rest => do exactly? count (10 * n + (← digitValue? c)) rest

/-- Reads at most `count` digits, as many as there are, continuing the number `n`. -/
def atMost : Nat → Nat → List Char → Nat × List Char
  | 0, n, cs => (n, cs)
  | _ + 1, n, [] => (n, [])
  | count + 1, n, c :: rest =>
    match digitValue? c with
    | some d => atMost count (10 * n + d) rest
    | none => (n, c :: rest)

/-- Reads at least one and at most `count` digits. -/
def upTo? (count : Nat) (cs : List Char) : Option (Nat × List Char) :=
  match cs with
  | c :: _ => if c.isDigit then some (atMost count 0 cs) else none
  | [] => none

/-- Reads one given character. -/
def expect? (wanted : Char) : List Char → Option (List Char)
  | c :: rest => if c = wanted then some rest else none
  | [] => none

/-- Reads the mark between date and time. -/
def expectTime? : List Char → Option (List Char)
  | c :: rest => if c = 'T' ∨ c = 't' ∨ c = ' ' then some rest else none
  | [] => none

/-- Reads a fraction of a second, if there is one, as nanoseconds.  Digits after
the ninth are dropped. -/
def readFraction? : List Char → Option (Nat × List Char)
  | '.' :: cs => do
    let (n, rest) ← upTo? 9 cs
    return (n * Nat.pow 10 (9 - (cs.length - rest.length)), rest.dropWhile Char.isDigit)
  | cs => some (0, cs)

/-- Reads the size of an offset, hours and minutes, as seconds. -/
def readOffsetSize? (cs : List Char) : Option (Nat × List Char) := do
  let (hours, rest) ← exactly? 2 0 cs
  let rest ← expect? ':' rest
  let (minutes, rest) ← exactly? 2 0 rest
  if hours < 24 ∧ minutes < 60 then some (hours * 3600 + minutes * 60, rest) else none

/-- Reads an offset from UTC in seconds: `Z`, or a sign with hours and minutes. -/
def readOffset? : List Char → Option (Int × List Char)
  | c :: rest =>
    if c = 'Z' ∨ c = 'z' then some (0, rest)
    else if c = '+' then (readOffsetSize? rest).map fun (n, rest) => ((n : Int), rest)
    else if c = '-' ∨ c = '\u2212' then
      (readOffsetSize? rest).map fun (n, rest) => (-(n : Int), rest)
    else none
  | [] => none

/-- Reads a time of day: the seconds since midnight and the nanoseconds.  A
sixtieth second is a leap second. -/
def readTime? (cs : List Char) : Option ((Nat × Nat) × List Char) := do
  let (hour, rest) ← exactly? 2 0 cs
  let rest ← expect? ':' rest
  let (minute, rest) ← exactly? 2 0 rest
  let rest ← expect? ':' rest
  let (second, rest) ← exactly? 2 0 rest
  let (nanos, rest) ← readFraction? rest
  if hour < 24 ∧ minute < 60 ∧ second ≤ 60 then
    -- A leap second is the fifty-ninth with a fraction of more than a second.
    let leap := second / 60
    some ((hour * 3600 + minute * 60 + (second - leap), nanos + leap * DateTime.nanosPerSecond),
      rest)
  else none

/-- Reads a date whose year, month and day have all their digits. -/
def readFullDate? (cs : List Char) : Option (Date × List Char) := do
  let (year, rest) ← exactly? 4 0 cs
  let rest ← expect? '-' rest
  let (month, rest) ← exactly? 2 0 rest
  let rest ← expect? '-' rest
  let (day, rest) ← exactly? 2 0 rest
  return (← Date.ofParts? year month day, rest)

/-- The moment of a timestamp. -/
def read? (text : String) : Option DateTime := do
  let (date, rest) ← readFullDate? text.toList
  let rest ← expectTime? rest
  let ((second, nanos), rest) ← readTime? rest
  let (offset, rest) ← readOffset? rest
  if rest.isEmpty then
    some ⟨date.toDays * DateTime.secondsPerDay + second - offset, nanos⟩
  else none

/-- Whether a character is blank. -/
def isBlank (c : Char) : Bool :=
  let n := c.toNat
  (9 ≤ n ∧ n ≤ 13) ∨ n = 0x20 ∨ n = 0x85 ∨ n = 0xA0 ∨ n = 0x1680 ∨ (0x2000 ≤ n ∧ n ≤ 0x200A) ∨
    n = 0x2028 ∨ n = 0x2029 ∨ n = 0x202F ∨ n = 0x205F ∨ n = 0x3000

/-- Reads a year after its sign, if it has one.  Only a signed year may have more
than four digits. -/
def readYear? : List Char → Option (Int × List Char)
  | '-' :: rest => (upTo? rest.length rest).map fun (n, rest) => (-(n : Int), rest)
  | '+' :: rest => (upTo? rest.length rest).map fun (n, rest) => ((n : Int), rest)
  | cs => (upTo? 4 cs).map fun (n, rest) => ((n : Int), rest)

/-- The date of a bare date.  Blanks may stand before each number, and a month or
day may have one digit. -/
def readDate? (text : String) : Option Date := do
  let (year, rest) ← readYear? (text.toList.dropWhile isBlank)
  let rest ← expect? '-' rest
  let (month, rest) ← upTo? 2 (rest.dropWhile isBlank)
  let rest ← expect? '-' rest
  let (day, rest) ← upTo? 2 (rest.dropWhile isBlank)
  if rest.isEmpty then Date.ofParts? year month day else none

/-- The moment of a timestamp, or of the beginning of a bare date. -/
def readMoment? (text : String) : Option DateTime :=
  read? text <|> (readDate? text).map DateTime.ofDate

end Conform.Rfc3339
