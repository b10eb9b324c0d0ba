import Mathlib.Tactic.Ring
import Mathlib.Tactic.SplitIfs
import Conform.Calendar.Rfc3339
import Conform.Proofs.Calendar.Days

/-!
# Timestamps that are read again

A moment is written in digits of which the reader knows how many there are, but for those of a
fraction, which end at the offset.  So each part is read as it was written, and what comes after
it is left to be read next.  A leap second is written as the sixtieth of its minute and is told by
that; a second that has run over within its minute is written as the one after it, and is read as
that one.

## Main definitions

* `DateTime.IsValid`: moments for which the calendar is kept, with leap seconds where they may be.

## Main results

* `Rfc3339.exactly?_digits`: digits are read as they were written.
* `Rfc3339.read?_write`: so are the moments of the years that have four digits.
* `Rfc3339.write_overrun`: which moments are written alike.
* `DateTime.ofMillis?_toMillis`: whole milliseconds are counted back.
-/

namespace Conform

/-! ## Moments -/

namespace DateTime

/-- The calendar is kept for the year of the moment, and a fraction of a second and more stands
only in the last second of a minute. -/
structure IsValid (moment : DateTime) : Prop where
  inCalendar : moment.inCalendar = true
  nanos_lt : moment.nanos < 2 * nanosPerSecond
  leap : nanosPerSecond ≤ moment.nanos → moment.seconds % 60 = 59

namespace IsValid

variable {moment : DateTime} (h : moment.IsValid)
include h

theorem year_bounds : Date.firstYear ≤ moment.date.year ∧ moment.date.year ≤ Date.lastYear := by
  simpa [DateTime.inCalendar] using h.inCalendar

theorem isValid_date : moment.date.IsValid :=
  Date.isValid_ofDays h.year_bounds.1 h.year_bounds.2

/-- The milliseconds of a moment of the calendar are fewer than doubles can tell apart. -/
theorem natAbs_toMillis_lt : moment.toMillis.natAbs < 2 ^ 53 := by
  have hdays := Date.days_bounds h.year_bounds.1 h.year_bounds.2
  have hnanos := h.nanos_lt
  simp only [secondsPerDay] at hdays
  simp only [nanosPerSecond] at hnanos
  unfold toMillis
  omega

end IsValid

/-- The day and the second of the day make up the seconds. -/
theorem seconds_eq (moment : DateTime) :
    moment.date.toDays * secondsPerDay + moment.secondOfDay = moment.seconds := by
  rw [date, Date.toDays_ofDays, secondOfDay, secondsPerDay]
  omega

/-- **Whole milliseconds are counted back**, leap seconds apart. -/
theorem ofMillis?_toMillis {moment : DateTime} (hcalendar : moment.inCalendar = true)
    (hnanos : moment.nanos < nanosPerSecond) (hwhole : moment.nanos % 1000000 = 0) :
    ofMillis? moment.toMillis = some moment := by
  simp only [nanosPerSecond] at hnanos
  have hsame : (⟨moment.toMillis / 1000, (moment.toMillis % 1000).toNat * 1000000⟩ : DateTime) =
      moment := by
    obtain ⟨seconds, nanos⟩ := moment
    simp only [toMillis, DateTime.mk.injEq] at hnanos hwhole ⊢
    omega
  simp only [ofMillis?, hsame, hcalendar, if_true]

end DateTime

namespace Rfc3339

/-! ## Digits -/

theorem digitValue?_digit (n : Nat) : digitValue? (digit n) = some (n % 10) := by
  have hall : ∀ d < 10, digitValue? (Char.ofNat ('0'.toNat + d)) = some d := by decide
  exact hall (n % 10) (Nat.mod_lt n (by decide))

theorem isDigit_digit (n : Nat) : (digit n).isDigit = true := by
  have hvalue := digitValue?_digit n
  unfold digitValue? at hvalue
  by_contra hnot
  rw [if_neg hnot] at hvalue
  cases hvalue

@[simp] theorem length_digits (count n : Nat) : (digits count n).length = count := by
  induction count generalizing n with
  | zero => rfl
  | succ count ih => rw [digits, List.length_append, ih, List.length_singleton]

theorem isDigit_of_mem_digits {count n : Nat} {c : Char} (h : c ∈ digits count n) :
    c.isDigit = true := by
  induction count generalizing n with
  | zero => cases h
  | succ count ih =>
    rcases List.mem_append.1 h with h | h
    · exact ih h
    · exact List.mem_singleton.1 h ▸ isDigit_digit n

/-- The last of several digits is read after the others. -/
theorem exactly?_succ (count n : Nat) (cs : List Char) :
    exactly? (count + 1) n cs =
      (exactly? count n cs).bind fun read => exactly? 1 read.1 read.2 := by
  induction count generalizing n cs with
  | zero => rfl
  | succ count ih =>
    cases cs with
    | nil => rfl
    | cons c rest =>
      cases hdigit : digitValue? c with
      | none => simp only [exactly?, hdigit, Option.bind_eq_bind, Option.bind_none]
      | some d =>
        have hboth : ∀ more, exactly? (more + 1) n (c :: rest) = exactly? more (10 * n + d) rest := by
          intro more
          simp only [exactly?, hdigit, Option.bind_eq_bind, Option.bind_some]
        rw [hboth (count + 1), hboth count, ih]

/-- **Digits are read as they were written**: what is read is the number, up to the digits that
were left out. -/
theorem exactly?_digits (count n m : Nat) (rest : List Char) :
    exactly? count m (digits count n ++ rest) = some (m * 10 ^ count + n % 10 ^ count, rest) := by
  induction count generalizing n rest with
  | zero => simp [exactly?, digits, Nat.mod_one]
  | succ count ih =>
    have hnumber : 10 * (m * 10 ^ count + n / 10 % 10 ^ count) + n % 10 =
        m * 10 ^ (count + 1) + n % 10 ^ (count + 1) := by
      rw [Nat.pow_succ', Nat.mod_mul]
      ring
    rw [digits, List.append_assoc, List.singleton_append, exactly?_succ, ih]
    simp only [exactly?, digitValue?_digit, Option.bind_eq_bind, Option.bind_some, hnumber]

/-- A number that has all its digits is read in full. -/
theorem exactly?_digits_of_lt {count n : Nat} (h : n < 10 ^ count) (rest : List Char) :
    exactly? count 0 (digits count n ++ rest) = some (n, rest) := by
  rw [exactly?_digits, Nat.zero_mul, Nat.zero_add, Nat.mod_eq_of_lt h]

/-- Digits that can be read are read where more may come. -/
theorem atMost_of_exactly? {count n : Nat} {cs rest : List Char} {value : Nat}
    (h : exactly? count n cs = some (value, rest)) (more : Nat) :
    atMost (count + more) n cs = atMost more value rest := by
  induction count generalizing n cs with
  | zero =>
    obtain ⟨rfl, rfl⟩ := Prod.mk.inj (Option.some.inj h)
    rw [Nat.zero_add]
  | succ count ih =>
    cases cs with
    | nil => cases h
    | cons c cs =>
      obtain ⟨d, hdigit, hrest⟩ := Option.bind_eq_some_iff.1 h
      rw [Nat.succ_add]
      simp only [atMost, hdigit]
      exact ih hrest

/-- Digits end at anything else. -/
theorem atMost_of_not_isDigit {c : Char} (hc : c.isDigit = false) (count n : Nat)
    (rest : List Char) : atMost count n (c :: rest) = (n, c :: rest) := by
  cases count with
  | zero => rfl
  | succ count => simp [atMost, digitValue?, hc]

theorem upTo?_digits {count limit : Nat} (hpos : 0 < count) (hle : count ≤ limit) (n : Nat)
    {c : Char} (hc : c.isDigit = false) (rest : List Char) :
    upTo? limit (digits count n ++ c :: rest) = some (n % 10 ^ count, c :: rest) := by
  obtain ⟨more, rfl⟩ := Nat.exists_eq_add_of_le hle
  have hread := atMost_of_exactly? (exactly?_digits count n 0 (c :: rest)) more
  rw [atMost_of_not_isDigit hc, Nat.zero_mul, Nat.zero_add] at hread
  cases hdigits : digits count n with
  | nil =>
    have hlength := length_digits count n
    rw [hdigits] at hlength
    exact absurd hlength (Nat.ne_of_lt hpos)
  | cons d ds =>
    have hd : d.isDigit = true := isDigit_of_mem_digits (hdigits ▸ List.mem_cons_self ..)
    rw [hdigits] at hread
    simp only [List.cons_append] at hread ⊢
    simp only [upTo?, hd, if_true, hread]

/-! ## Times -/

theorem readFraction?_digits {count : Nat} (hpos : 0 < count) (hle : count ≤ 9) (n : Nat)
    {c : Char} (hc : c.isDigit = false) (rest : List Char) :
    readFraction? ('.' :: (digits count n ++ c :: rest)) =
      some (n % 10 ^ count * 10 ^ (9 - count), c :: rest) := by
  have hlength : (digits count n ++ c :: rest).length - (c :: rest).length = count := by
    rw [List.length_append, length_digits, Nat.add_sub_cancel]
  simp only [readFraction?, upTo?_digits hpos hle n hc, Option.bind_eq_bind, Option.bind_some,
    hlength, List.dropWhile_cons, hc]
  rfl

/-- **A fraction is read as it was written**, whatever number of digits was enough. -/
theorem readFraction?_writeFraction {nanos : Nat} (h : nanos < DateTime.nanosPerSecond) {c : Char}
    (hc : c.isDigit = false) (hpoint : c ≠ '.') (rest : List Char) :
    readFraction? (writeFraction nanos ++ c :: rest) = some (nanos, c :: rest) := by
  simp only [DateTime.nanosPerSecond] at h
  unfold writeFraction
  split_ifs with hzero hmillis hmicros
  · subst hzero
    simp [readFraction?, hpoint]
  · rw [List.cons_append, readFraction?_digits (by decide) (by decide) _ hc]
    congr 2
    omega
  · rw [List.cons_append, readFraction?_digits (by decide) (by decide) _ hc]
    congr 2
    omega
  · rw [List.cons_append, readFraction?_digits (by decide) (by decide) _ hc]
    congr 2
    omega

theorem expect?_cons (c : Char) (rest : List Char) : expect? c (c :: rest) = some rest := if_pos rfl

/-- **A time of day is read as it was written**; a leap second comes last in its minute. -/
theorem readTime?_writeTime {secondOfDay nanos : Nat} (hsecond : secondOfDay < 86400)
    (hnanos : nanos < 2 * DateTime.nanosPerSecond)
    (hleap : DateTime.nanosPerSecond ≤ nanos → secondOfDay % 60 = 59) {c : Char}
    (hc : c.isDigit = false) (hpoint : c ≠ '.') (rest : List Char) :
    readTime? (writeTime secondOfDay nanos ++ c :: rest) =
      some ((secondOfDay, nanos), c :: rest) := by
  have hfraction := readFraction?_writeFraction (Nat.mod_lt nanos (by decide)) hc hpoint rest
  simp only [DateTime.nanosPerSecond] at hnanos hleap hfraction
  have hhours : secondOfDay / 3600 < 10 ^ 2 := by omega
  have hminutes : secondOfDay / 60 % 60 < 10 ^ 2 := by omega
  have hseconds : secondOfDay % 60 + nanos / 1000000000 < 10 ^ 2 := by omega
  unfold writeTime readTime?
  simp only [List.append_assoc, List.cons_append, Option.bind_eq_bind, Option.bind_some,
    DateTime.nanosPerSecond, exactly?_digits_of_lt hhours, exactly?_digits_of_lt hminutes,
    exactly?_digits_of_lt hseconds, expect?_cons, hfraction]
  rw [if_pos (by omega)]
  congr 3 <;> omega

/-! ## Dates -/

theorem readFullDate?_writeDate {date : Date} (hvalid : date.IsValid) (hfirst : 0 ≤ date.year)
    (hlast : date.year ≤ 9999) (rest : List Char) :
    readFullDate? (writeDate date ++ rest) = some (date, rest) := by
  obtain ⟨-, -, -, hmonth, -, hday⟩ := id hvalid
  have hlong : date.day ≤ 31 := by
    refine Nat.le_trans hday ?_
    unfold Date.daysInMonth
    split_ifs <;> omega
  have hfour : date.year.toNat < 10 ^ 4 := by omega
  have htwo : date.month < 10 ^ 2 := by omega
  have htwo' : date.day < 10 ^ 2 := by omega
  have hyear : ((date.year.toNat : Nat) : Int) = date.year := Int.toNat_of_nonneg hfirst
  have hdate : Date.ofParts? date.year date.month date.day = some date := if_pos hvalid
  unfold writeDate writeYear readFullDate?
  rw [if_pos ⟨hfirst, hlast⟩]
  simp only [List.append_assoc, List.cons_append, Option.bind_eq_bind, Option.bind_some,
    exactly?_digits_of_lt hfour, exactly?_digits_of_lt htwo, exactly?_digits_of_lt htwo',
    expect?_cons, hyear, hdate]
  rfl

/-! ## Moments -/

/-- **A moment is read as it was written**, in the years that have four digits. -/
theorem read?_write {moment : DateTime} (hvalid : moment.IsValid) (hfirst : 0 ≤ moment.date.year)
    (hlast : moment.date.year ≤ 9999) : read? (write moment) = some moment := by
  have hsecond : moment.secondOfDay < 86400 := by
    simp only [DateTime.secondOfDay, DateTime.secondsPerDay]
    omega
  have hleap : DateTime.nanosPerSecond ≤ moment.nanos → moment.secondOfDay % 60 = 59 := by
    intro hover
    have hminute := hvalid.leap hover
    simp only [DateTime.secondOfDay, DateTime.secondsPerDay]
    omega
  have hdate := readFullDate?_writeDate hvalid.isValid_date hfirst hlast
  have htime := readTime?_writeTime hsecond hvalid.nanos_lt hleap (c := '+') rfl (by decide)
  have htext : (write moment).toList = writeDate moment.date ++
      ('T' :: (writeTime moment.secondOfDay moment.nanos ++ '+' :: ['0', '0', ':', '0', '0'])) := by
    simp [write]
  have hoffset : readOffset? ('+' :: ['0', '0', ':', '0', '0']) = some (0, []) := by decide
  unfold read?
  rw [htext, hdate]
  simp only [Option.bind_eq_bind, Option.bind_some, expectTime?, true_or, if_true, htime, hoffset,
    List.isEmpty_nil, moment.seconds_eq, Int.sub_zero]

/-! ## Seconds that have run over -/

theorem writeTime_overrun {secondOfDay : Nat} (hminute : secondOfDay % 60 ≠ 59) (nanos : Nat) :
    writeTime secondOfDay (nanos + DateTime.nanosPerSecond) = writeTime (secondOfDay + 1) nanos := by
  have hhours : (secondOfDay + 1) / 3600 = secondOfDay / 3600 := by omega
  have hminutes : (secondOfDay + 1) / 60 = secondOfDay / 60 := by omega
  have hseconds : secondOfDay % 60 + (nanos + 1000000000) / 1000000000 =
      (secondOfDay + 1) % 60 + nanos / 1000000000 := by omega
  simp only [writeTime, DateTime.nanosPerSecond, hhours, hminutes, hseconds, Nat.add_mod_right]

/-- **A second that has run over is written as the one after it**, where its minute goes on. -/
theorem write_overrun {seconds : Int} (hminute : seconds % 60 ≠ 59) (nanos : Nat) :
    write ⟨seconds, nanos + DateTime.nanosPerSecond⟩ = write ⟨seconds + 1, nanos⟩ := by
  have hday : (seconds + 1) / DateTime.secondsPerDay = seconds / DateTime.secondsPerDay := by
    simp only [DateTime.secondsPerDay]
    omega
  have hsecond : ((seconds + 1) % DateTime.secondsPerDay).toNat =
      (seconds % DateTime.secondsPerDay).toNat + 1 := by
    simp only [DateTime.secondsPerDay]
    omega
  have hminute' : (seconds % DateTime.secondsPerDay).toNat % 60 ≠ 59 := by
    simp only [DateTime.secondsPerDay]
    omega
  simp only [write, DateTime.date, DateTime.secondOfDay, hday, hsecond,
    writeTime_overrun hminute']

end Rfc3339

end Conform
