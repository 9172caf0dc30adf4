import LiveIndex.Number.Reading
import LiveIndex.Time.Stamp

/-! Stamps as they are written, with or without hyphens and colons, by month and day or by week.
The length of the date decides where the time begins. -/

namespace LiveIndex.Time

/-- The value of an ASCII digit. -/
def digit? (c : Char) : Option Nat :=
  if c.isDigit then some (c.toNat - 48) else none

/-- A number of exactly `width` digits at the front of a text. -/
def digits? : Nat → List Char → Option (Nat × List Char)
  | width, cs =>
    let front := cs.take width
    if front.length = width ∧ front.all Char.isDigit then
      some (Number.ofDigits (front.filterMap digit?), cs.drop width)
    else none

/-- A text may end with a null character. -/
def atEnd : List Char → Bool
  | [] => true
  | c :: _ => c = '\u0000'

/-- Microseconds from the digits of a fraction. At most six count and all of these must be digits;
digits after them are skipped. The flag tells whether the text ends there. -/
def fraction? (cs : List Char) : Option (Nat × Bool) :=
  let width := min 6 cs.length
  (digits? width cs).map fun (n, rest) =>
    (n * Number.tens (6 - width), atEnd (rest.dropWhile Char.isDigit))

/-- The fields of a time of day: one to three numbers of two digits, all with colons between them
or all without, then perhaps a fraction after a point, a comma or a further mark. The flag tells
whether the text ends there; one character more is left to the caller. -/
def clockFields? (colons : Option Bool) : Nat → List Char → Option (List Nat × Nat × Bool)
  | 0, cs => (fraction? cs).map fun (micro, done) => ([], micro, done)
  | left + 1, cs =>
    match digits? 2 cs with
    | none => none
    | some (n, rest) =>
      match rest with
      | [] => some ([n], 0, true)
      | [c] => some ([n], 0, atEnd [c])
      | c :: more =>
        let spaced := colons.getD (c = ':')
        if spaced && c = ':' then
          (clockFields? (some spaced) left more).map fun (ns, r) => (n :: ns, r)
        else if c = '.' ∨ c = ',' then
          (fraction? more).map fun (micro, done) => ([n], micro, done)
        else if spaced then none
        else (clockFields? (some spaced) left rest).map fun (ns, r) => (n :: ns, r)

/-- A time of day as read: fields that may be too large, and the offset in microseconds. -/
structure RawClock where
  hour : Nat
  minute : Nat
  second : Nat
  micro : Nat
  offset : Option Int

/-- Hours, minutes and seconds in seconds. -/
def secondsOf (fields : List Nat) : Nat :=
  fields.getD 0 0 * 3600 + fields.getD 1 0 * 60 + fields.getD 2 0

/-- An offset after its sign. -/
def offsetAfter? (sign : Char) (cs : List Char) : Option Int :=
  match clockFields? none 3 cs with
  | some (fields, micro, true) =>
    let size : Int := secondsOf fields * 1000000 + micro
    some (if sign = '-' then -size else size)
  | _ => none

/-- A time of day with an optional zone. -/
def rawClock? (cs : List Char) : Option RawClock :=
  let (body, zone) := cs.span fun c => !(c = '+' || c = '-' || c = 'Z')
  match clockFields? none 3 body with
  | none => none
  | some (fields, micro, done) =>
    let clock (offset : Option Int) : RawClock :=
      ⟨fields.getD 0 0, fields.getD 1 0, fields.getD 2 0, micro, offset⟩
    match zone with
    | [] => if done then some (clock none) else none
    | 'Z' :: rest => if atEnd rest then some (clock (some 0)) else none
    | sign :: rest => (offsetAfter? sign rest).map fun o => clock (some o)

/-- Where the date ends in a text of seven characters or more. Dates are `YYYY-MM-DD`, `YYYYMMDD`,
`YYYY-Www-D`, `YYYYWwwD`, and the last two without their day. A hyphen after a week is taken for
the mark before the time if two digits follow. -/
def dateLength (cs : List Char) : Option Nat :=
  let char (i : Nat) : Char := cs.getD i '\u0000'
  if cs.length < 7 then none
  else if cs.length = 7 then some 7
  else if char 4 = '-' then
    if char 5 = 'W' then
      if 8 < cs.length ∧ char 8 = '-' then
        if cs.length = 9 then none
        else if 10 < cs.length ∧ (char 10).isDigit then some 8
        else some 10
      else some 8
    else some 10
  else if char 4 = 'W' then
    let stop := 7 + ((cs.drop 7).takeWhile Char.isDigit).length
    if stop < 9 then some stop else if stop % 2 = 0 then some 7 else some 8
  else some 8

/-- A date as read. -/
inductive RawDate
  | day (year month day : Nat)
  | week (year week weekday : Nat)

/-- The fields of a date of the given length at the front of a text. -/
def rawDate? (length : Nat) (cs : List Char) : Option RawDate := do
  let (year, rest) ← digits? 4 cs
  let hyphens := rest.head? = some '-'
  let rest := if hyphens then rest.drop 1 else rest
  let expectHyphen (cs : List Char) : Option (List Char) :=
    if hyphens then (if cs.head? = some '-' then some (cs.drop 1) else none) else some cs
  if rest.head? = some 'W' then
    let (week, rest) ← digits? 2 (rest.drop 1)
    if cs.length - rest.length < length then
      let rest ← expectHyphen rest
      let (weekday, _) ← digits? 1 rest
      return .week year week weekday
    else return .week year week 1
  else
    let (month, rest) ← digits? 2 rest
    let rest ← expectHyphen rest
    let (day, _) ← digits? 2 rest
    return .day year month day

/-- Whether the year has the week and the week has the day. -/
def RawDate.isWritten : RawDate → Bool
  | .day .. => true
  | .week y w d => 0 < w && w ≤ weeksIn y && 0 < d && d ≤ 7

/-- The day meant by a date as read. No week is counted in a year before the first. -/
def RawDate.date? : RawDate → Except Fault Date
  | .day y m d => Time.date? y m d
  | .week y w d =>
    if y = 0 then .error .month
    else
      let (y, m, d) := splitNumber (firstMonday y + (w - 1) * 7 + (d - 1))
      Time.date? y m d

/-- Reads a stamp: a date, and after one character of any kind a time of day with an optional
offset. An offset that is too large counts before a field that is. -/
def read (text : String) : Except Fault Stamp := do
  let cs := text.toList
  let malformed : Fault := .malformed text
  let some length := dateLength cs | throw malformed
  let some raw := rawDate? length cs | throw malformed
  unless raw.isWritten do throw malformed
  let clock ←
    if length < cs.length then
      match rawClock? (cs.drop (length + 1)) with
      | some c => pure c
      | none => throw malformed
    else pure ⟨0, 0, 0, 0, none⟩
  let offset ←
    match clock.offset with
    | none => pure none
    | some micros => some <$> offset? micros
  let date ← raw.date?
  let clock ← clock? clock.hour clock.minute clock.second clock.micro
  return ⟨date, clock, offset⟩

end LiveIndex.Time
