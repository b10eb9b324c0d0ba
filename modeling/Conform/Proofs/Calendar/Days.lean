import Mathlib.Tactic.SplitIfs
import Conform.Calendar.Date

/-!
# Days and their dates

Counting days forth and back comes to the same day.  A day is placed in its cycle by the
century, the four years and the year that it lies in, years beginning in March; its date is
read off that place, and so is the number of days before it.  A leap day is the last day of its
year, so the months of all years begin at the same days.

## Main definitions

* `Date.Place`: where a day lies in its cycle.
* `Date.marchDate`: a date by its year, from March on, and the day of that year.

## Main results

* `Date.toDays_ofDays`: the date of a day is as many days from 1970-01-01.
* `Date.isValid_ofDays`: the calendar has the date of every day in a year that it is kept for.
* `Date.days_bounds`: there are not many days in those years.
-/

namespace Conform.Date

/-! ## Places -/

/-- Where a day lies in its cycle.  Only the last year of four has a 366th day, and the last four
years of a century have none, but for the last century. -/
structure Place where
  cycle : Int
  century : Nat
  fourth : Nat
  yearOfFourth : Nat
  dayOfYear : Nat
  century_le : century ≤ 3
  fourth_le : fourth ≤ 24
  yearOfFourth_le : yearOfFourth ≤ 3
  dayOfYear_le : dayOfYear ≤ 365
  leap : dayOfYear = 365 → yearOfFourth = 3 ∧ (fourth = 24 → century = 3)

namespace Place

/-- The days from 1970-01-01. -/
def days (place : Place) : Int :=
  place.cycle * daysPerCycle +
    (place.century * 36524 + place.fourth * 1461 + place.yearOfFourth * 365 +
      place.dayOfYear : Nat) + marchEpoch

/-- The year, from March on. -/
def year (place : Place) : Int :=
  place.cycle * 400 + (place.century * 100 + place.fourth * 4 + place.yearOfFourth : Nat)

theorem year_ediv (place : Place) : place.year / 400 = place.cycle := by
  have hcentury := place.century_le
  have hfourth := place.fourth_le
  have hyear := place.yearOfFourth_le
  unfold year
  omega

theorem toNat_year_emod (place : Place) :
    (place.year % 400).toNat = place.century * 100 + place.fourth * 4 + place.yearOfFourth := by
  have hcentury := place.century_le
  have hfourth := place.fourth_le
  have hyear := place.yearOfFourth_le
  unfold year
  omega

/-- A 366th day is the leap day of the year that it ends in. -/
theorem isLeapYear_of_dayOfYear (place : Place) (h : place.dayOfYear = 365) :
    isLeapYear (place.year + 1) = true := by
  obtain ⟨hyear, hcentury⟩ := place.leap h
  have hfourth := place.fourth_le
  have hle := place.century_le
  simp only [isLeapYear, year, hyear, decide_eq_true_eq]
  omega

end Place

/-! ## Dates -/

/-- The date that comes the given number of days after the first of March of a year. -/
def marchDate (year : Int) (dayOfYear : Nat) : Date :=
  let marchMonth := (5 * dayOfYear + 2) / 153
  let month := if marchMonth < 10 then marchMonth + 3 else marchMonth - 9
  ⟨if month ≤ 2 then year + 1 else year, month,
    dayOfYear - daysBeforeMarchMonth marchMonth + 1⟩

/-- Every day has its place, and its date is that of the place. -/
theorem exists_place (days : Int) :
    ∃ place : Place, place.days = days ∧ ofDays days = marchDate place.year place.dayOfYear := by
  let dayOfCycle := ((days - marchEpoch) % daysPerCycle).toNat
  let century := min (dayOfCycle / 36524) 3
  let dayOfCentury := dayOfCycle - century * 36524
  let yearOfFourth := min (dayOfCentury % 1461 / 365) 3
  have hcycle : (dayOfCycle : Int) = (days - marchEpoch) % daysPerCycle ∧ dayOfCycle < 146097 := by
    simp only [dayOfCycle, daysPerCycle]
    omega
  refine ⟨⟨(days - marchEpoch) / daysPerCycle, century, dayOfCentury / 1461, yearOfFourth,
    dayOfCentury % 1461 - yearOfFourth * 365, by omega, by omega, by omega, by omega, by omega⟩,
    ?_, rfl⟩
  have hsplit : century * 36524 + dayOfCentury / 1461 * 1461 + yearOfFourth * 365 +
      (dayOfCentury % 1461 - yearOfFourth * 365) = dayOfCycle := by omega
  simp only [Place.days, hsplit, hcycle.1, Int.ediv_mul_add_emod, Int.sub_add_cancel]

section MarchDate

variable (year : Int) {dayOfYear : Nat} (h : dayOfYear ≤ 365)
include h

theorem month_marchDate :
    1 ≤ (marchDate year dayOfYear).month ∧ (marchDate year dayOfYear).month ≤ 12 := by
  simp only [marchDate]
  split_ifs <;> omega

/-- A month has the days that the calendar gives it. -/
theorem day_marchDate_le (hleap : dayOfYear = 365 → isLeapYear (year + 1) = true) :
    (marchDate year dayOfYear).day ≤
      daysInMonth (marchDate year dayOfYear).year (marchDate year dayOfYear).month := by
  by_cases hlast : dayOfYear = 365
  · subst hlast
    simp [marchDate, daysInMonth, daysBeforeMarchMonth, hleap rfl]
  · simp only [marchDate, daysInMonth, daysBeforeMarchMonth]
    split_ifs <;> omega

/-- From a date the year and the day of the year are counted back. -/
theorem toDays_marchDate :
    (marchDate year dayOfYear).toDays =
      year / 400 * daysPerCycle +
        ((year % 400).toNat * 365 + (year % 400).toNat / 4 - (year % 400).toNat / 100 +
          dayOfYear : Nat) + marchEpoch := by
  have hmonth : (5 * dayOfYear + 2) / 153 ≤ 11 := by omega
  have hbefore : daysBeforeMarchMonth ((5 * dayOfYear + 2) / 153) ≤ dayOfYear := by
    unfold daysBeforeMarchMonth
    omega
  have hyear : (if (marchDate year dayOfYear).month ≤ 2 then (marchDate year dayOfYear).year - 1
      else (marchDate year dayOfYear).year) = year := by
    simp only [marchDate]
    split_ifs <;> omega
  have hmarch : ((marchDate year dayOfYear).month + 9) % 12 = (5 * dayOfYear + 2) / 153 := by
    simp only [marchDate]
    split_ifs <;> omega
  have hday : daysBeforeMarchMonth ((5 * dayOfYear + 2) / 153) +
      ((marchDate year dayOfYear).day - 1) = dayOfYear := by
    simp only [marchDate]
    omega
  simp only [toDays, hyear, hmarch, hday]

end MarchDate

/-- **Days are counted back from their dates.** -/
theorem toDays_ofDays (days : Int) : (ofDays days).toDays = days := by
  obtain ⟨place, rfl, hdate⟩ := exists_place days
  have hcentury := place.century_le
  have hfourth := place.fourth_le
  have hyear := place.yearOfFourth_le
  rw [hdate, toDays_marchDate _ place.dayOfYear_le, place.year_ediv, place.toNat_year_emod,
    Place.days]
  omega

section InCalendar

variable {days : Int} (hfirst : firstYear ≤ (ofDays days).year)
  (hlast : (ofDays days).year ≤ lastYear)
include hfirst hlast

/-- **The calendar has the date of a day**, if it is kept for the year. -/
theorem isValid_ofDays : (ofDays days).IsValid := by
  obtain ⟨place, rfl, hdate⟩ := exists_place days
  rw [hdate] at hfirst hlast ⊢
  obtain ⟨hmonth, hmonth'⟩ := month_marchDate place.year place.dayOfYear_le
  exact ⟨hfirst, hlast, hmonth, hmonth', Nat.le_add_left _ _,
    day_marchDate_le _ place.dayOfYear_le place.isLeapYear_of_dayOfYear⟩

/-- The days of the calendar, counted generously. -/
theorem days_bounds : -100000000 < days ∧ days < 100000000 := by
  obtain ⟨place, rfl, hdate⟩ := exists_place days
  have hyear : (ofDays place.days).year = place.year ∨
      (ofDays place.days).year = place.year + 1 := by
    rw [hdate]
    simp only [marchDate]
    split_ifs <;> simp
  have hcentury := place.century_le
  have hfourth := place.fourth_le
  have hfour := place.yearOfFourth_le
  have hday := place.dayOfYear_le
  simp only [firstYear, lastYear, Place.year] at hfirst hlast hyear
  simp only [Place.days, daysPerCycle, marchEpoch]
  omega

end InCalendar

end Conform.Date
