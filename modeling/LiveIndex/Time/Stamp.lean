import LiveIndex.Number.Fixed
import LiveIndex.Time.Date

/-! Stamps: a date, a time of day and perhaps an offset. With an offset they are instants, without
one they are what a clock shows, and the two are never the same. -/

namespace LiveIndex.Time

/-- A time of day to the microsecond. -/
structure Clock where
  hour : Nat
  minute : Nat
  second : Nat
  micro : Nat
  hour_ok : hour < 24
  minute_ok : minute < 60
  second_ok : second < 60
  micro_ok : micro < 1000000
  deriving DecidableEq, Repr

/-- Microseconds since midnight. -/
def Clock.micros (c : Clock) : Nat :=
  ((c.hour * 60 + c.minute) * 60 + c.second) * 1000000 + c.micro

def dayMicros : Nat := 86400000000

/-- A distance from universal time in microseconds: none, or between a second and a day either
way. -/
structure Offset where
  micros : Int
  lt_day : -dayMicros < micros ∧ micros < dayMicros
  second_le : micros = 0 ∨ 1000000 ≤ micros.natAbs
  deriving DecidableEq, Repr

/-- A point in calendar time, with or without the zone it is told in. -/
structure Stamp where
  date : Date
  clock : Clock
  offset : Option Offset
  deriving DecidableEq, Repr

namespace Stamp

/-- Microseconds since the first day of year 1 on the clock that the stamp is told by. -/
def localMicros (s : Stamp) : Int :=
  s.date.number * dayMicros + s.clock.micros

/-- Whether two stamps tell the same time: as instants if both have a zone, literally if none has,
and never if one of them has. -/
def same (a b : Stamp) : Bool :=
  match a.offset, b.offset with
  | none, none => a.date = b.date && a.clock = b.clock
  | some x, some y => a.localMicros - x.micros == b.localMicros - y.micros
  | _, _ => false

def clockText (hour minute : Nat) : List Char :=
  Number.paddedDigits 2 hour ++ ':' :: Number.paddedDigits 2 minute

/-- Microseconds after a point, if there are any. -/
def microText (micro : Nat) : List Char :=
  if micro = 0 then [] else '.' :: Number.paddedDigits 6 micro

/-- An offset by hours and minutes, with seconds and microseconds only where they are needed. -/
def offsetText (o : Offset) : List Char :=
  let size := o.micros.natAbs
  let seconds := size / 1000000
  let tail :=
    if seconds % 60 = 0 ∧ size % 1000000 = 0 then []
    else ':' :: Number.paddedDigits 2 (seconds % 60) ++ microText (size % 1000000)
  (if o.micros < 0 then '-' else '+') :: clockText (seconds / 3600) (seconds / 60 % 60) ++ tail

/-- The date and the clock of a stamp with the given mark between them, then its offset. -/
def chars (mark : Char) (s : Stamp) : List Char :=
  Number.paddedDigits 4 s.date.year ++ '-' :: Number.paddedDigits 2 s.date.month ++
    '-' :: Number.paddedDigits 2 s.date.day ++ mark :: clockText s.clock.hour s.clock.minute ++
    ':' :: Number.paddedDigits 2 s.clock.second ++ microText s.clock.micro ++
    (s.offset.map offsetText).getD []

def text (s : Stamp) : String :=
  String.ofList (s.chars 'T')

/-- The form of a stamp that people read. -/
def plainText (s : Stamp) : String :=
  String.ofList (s.chars ' ')

end Stamp

/-- Why there is no stamp. -/
inductive Fault
  | notText
  | malformed (text : String)
  | year (n : Int)
  | month
  | day
  | hour
  | minute
  | second
  | offset (micros : Int)
  | beyondClock
  | beyondCalendar
  deriving DecidableEq, Repr

/-- A span of time by days, seconds and microseconds, the last two never negative. -/
def spanText (micros : Int) : String :=
  let days := micros / dayMicros
  let rest := micros % dayMicros
  let part (name : String) (n : Int) : List String :=
    if n = 0 then [] else [name ++ "=" ++ toString n]
  let parts :=
    part "days" days ++ part "seconds" (rest / 1000000) ++ part "microseconds" (rest % 1000000)
  "datetime.timedelta(" ++ (if parts = [] then "0" else ", ".intercalate parts) ++ ")"

/-- A date, or what is wrong with its fields; the year is looked at first. -/
def date? (year month day : Nat) : Except Fault Date :=
  if hy : 1 ≤ year ∧ year ≤ 9999 then
    if hm : 1 ≤ month ∧ month ≤ 12 then
      if hd : 1 ≤ day ∧ day ≤ monthLength year month then .ok ⟨year, month, day, hy, hm, hd⟩
      else .error .day
    else .error .month
  else .error (.year year)

/-- A time of day, or what is wrong with its fields. -/
def clock? (hour minute second micro : Nat) : Except Fault Clock :=
  if hh : hour < 24 then
    if hm : minute < 60 then
      if hs : second < 60 then
        if hu : micro < 1000000 then .ok ⟨hour, minute, second, micro, hh, hm, hs, hu⟩
        else .error .second
      else .error .second
    else .error .minute
  else .error .hour

/-- An offset, or its size if that is a day or more. What is less than a second counts as none. -/
def offset? (micros : Int) : Except Fault Offset :=
  if hs : micros.natAbs < 1000000 then .ok ⟨0, by decide, .inl rfl⟩
  else if hd : -dayMicros < micros ∧ micros < dayMicros then
    .ok ⟨micros, hd, .inr (Nat.le_of_not_lt hs)⟩
  else .error (.offset micros)

/-- The clock of a number of microseconds since midnight. -/
def clockOf (micros : Nat) : Clock :=
  let m := micros % dayMicros
  have h : m < dayMicros := Nat.mod_lt _ (by decide)
  { hour := m / 3600000000
    minute := m / 60000000 % 60
    second := m / 1000000 % 60
    micro := m % 1000000
    hour_ok := by simp only [dayMicros] at h; omega
    minute_ok := by omega
    second_ok := by omega
    micro_ok := by omega }

/-- The stamp, without a zone, of a number of seconds since the start of 1970: the fraction is
rounded to microseconds, a half to the even one. Calendar years run from 1 to 9999, and the day
before must be on the calendar too. -/
def ofSeconds (seconds : Rat) : Except Fault Stamp :=
  -- The fraction is taken off before it is scaled, so that rounding happens to it alone.
  let whole := Number.truncate seconds
  let micros := Number.roundInt (Number.nearest ((seconds - whole) * 1000000))
  let total := whole * 1000000 + micros
  let wholeSeconds := total / 1000000
  let number := wholeSeconds / 86400 + epochNumber
  let year := yearOf number
  let before := yearOf (number - 1)
  if wholeSeconds < -9223372036854775808 ∨ 9223372036854775808 < wholeSeconds then
    .error .beyondClock
  else if year < -2147481748 ∨ 2147485547 < year then .error .beyondCalendar
  else if year < 1 ∨ 9999 < year then .error (.year year)
  else if before < 1 then .error (.year before)
  else
    let (year, month, day) := splitNumber number.toNat
    (date? year month day).map fun date =>
      ⟨date, clockOf (total % dayMicros).toNat, none⟩

end LiveIndex.Time
