/-! The calendar: dates by year, month and day, and by the number of days since the first day of
year 1. A date is always a day that exists. -/

namespace LiveIndex.Time

def isLeap (year : Nat) : Bool :=
  year % 4 == 0 && (year % 100 != 0 || year % 400 == 0)

def monthLength (year month : Nat) : Nat :=
  match month with
  | 2 => if isLeap year then 29 else 28
  | 4 | 6 | 9 | 11 => 30
  | _ => 31

/-- A day of the Gregorian calendar, extended back to year 1. -/
structure Date where
  year : Nat
  month : Nat
  day : Nat
  year_ok : 1 ≤ year ∧ year ≤ 9999
  month_ok : 1 ≤ month ∧ month ≤ 12
  day_ok : 1 ≤ day ∧ day ≤ monthLength year month
  deriving DecidableEq, Repr

/-- Days from the first day of year 1 to the first day of a later year. -/
def daysBeforeYear (year : Nat) : Nat :=
  let y := year - 1
  365 * y + y / 4 - y / 100 + y / 400

/-- Days from the first day of a year to the first day of one of its months. -/
def daysBeforeMonth (year month : Nat) : Nat :=
  ((List.range (month - 1)).map fun m => monthLength year (m + 1)).foldl (· + ·) 0

namespace Date

/-- Days since the first day of year 1. -/
def number (d : Date) : Nat :=
  daysBeforeYear d.year + daysBeforeMonth d.year d.month + (d.day - 1)

end Date

/-- Days from the first day of year 1 to the first day of 1970. -/
def epochNumber : Int := 719162

/-- Month and day of the day with the given number in a year, counted from zero; the search goes
through the months from the given one on. -/
def splitYear (year : Nat) : Nat → Nat → Nat → Nat × Nat
  | 0, month, n => (month, n + 1)
  | fuel + 1, month, n =>
    if n < monthLength year month then (month, n + 1)
    else splitYear year fuel (month + 1) (n - monthLength year month)

/-- The year that a day number falls into, before year 1 too. -/
def yearOf (number : Int) : Int :=
  let cycle := number / 146097
  let inCycle := (number % 146097).toNat
  let century := min (inCycle / 36524) 3
  let inCentury := inCycle - century * 36524
  let quad := inCentury / 1461
  let inQuad := inCentury - quad * 1461
  let year := min (inQuad / 365) 3
  400 * cycle + 100 * century + 4 * quad + year + 1

/-- Year, month and day of the day with the given number. -/
def splitNumber (number : Nat) : Nat × Nat × Nat :=
  let year := (yearOf number).toNat
  let (month, day) := splitYear year 11 1 (number - daysBeforeYear year)
  (year, month, day)

/-- The day of the week of a day number, Monday being zero. -/
def weekday (number : Nat) : Nat :=
  number % 7

/-- The number of the Monday that starts the first week of a year: the week of the first
Thursday. Only for year 1 on. -/
def firstMonday (year : Nat) : Nat :=
  let first := daysBeforeYear year
  let monday := first - weekday first
  if 3 < weekday first then monday + 7 else monday

/-- The number of weeks of a year: 53 if it starts on a Thursday, or is a leap year that starts on
a Wednesday. -/
def weeksIn (year : Nat) : Nat :=
  let first := weekday (daysBeforeYear year)
  if first = 3 ∨ (first = 2 ∧ isLeap year) then 53 else 52

end LiveIndex.Time
