import LiveIndex.Failure
import LiveIndex.Number.Fixed

namespace LiveIndex.Report

def padRight (width : Nat) (s : String) : String :=
  s ++ String.ofList (List.replicate (width - s.length) ' ')

def padLeft (width : Nat) (s : String) : String :=
  String.ofList (List.replicate (width - s.length) ' ') ++ s

/-- A number of bytes, with one decimal place from a kilobyte on. Nothing is larger than
megabytes. -/
def size (bytes : Rat) : Except Failure String :=
  if bytes < 1024 then
    let n := Number.nearest bytes
    if Number.isHuge n then .error .hugeInteger else .ok (Number.fixed 0 n ++ " B")
  else
    let kilo := Number.nearest (bytes / 1024)
    if Number.isHuge kilo then .error .hugeQuotient
    else if kilo < 1024 then .ok (Number.fixed 1 kilo ++ " KB")
    else .ok (Number.fixed 1 (kilo / 1024) ++ " MB")

/-- Whole minutes below a number of seconds, and the seconds left. -/
def splitMinutes (seconds : Rat) : Int × Rat :=
  let cut := seconds - Number.truncate (seconds / 60) * 60
  let minutes := Number.nearest (Number.nearest (seconds - cut) / 60)
  if cut < 0 then (Number.roundInt (Number.nearest (minutes - 1)), Number.nearest (cut + 60))
  else (Number.roundInt minutes, cut)

/-- A duration in seconds, with minutes if there are any. -/
def elapsed (seconds : Rat) : String :=
  let (minutes, rest) := splitMinutes seconds
  if minutes = 0 then Number.fixed 1 rest ++ "s"
  else toString minutes ++ "m " ++ Number.fixed 1 rest ++ "s"

/-- A time in milliseconds since the start of 1970. -/
def timestamp (millis : Rat) : Except Failure String :=
  if millis = 0 then .ok "Never"
  else if Number.isHuge (Number.nearest (millis / 1000)) then .error .hugeQuotient
  else
    match Time.ofSeconds (Number.nearest (millis / 1000)) with
    | .error fault => .error (.time fault)
    | .ok s =>
      let two (n : Nat) : String := String.ofList (Number.paddedDigits 2 n)
      .ok (toString s.date.year ++ "-" ++ two s.date.month ++ "-" ++ two s.date.day ++ " " ++
        two s.clock.hour ++ ":" ++ two s.clock.minute ++ ":" ++ two s.clock.second)

/-- A share as a percentage without places. Nothing out of a negative total keeps the sign. -/
def percent (share total : Rat) : String :=
  let sign := if share = 0 ∧ total < 0 then "-" else ""
  sign ++ Number.fixed 0 (Number.nearest (100 * share)) ++ "%"

/-- What is shown of a step of work: a bar of thirty places and a percentage if the total is
known, and a message. -/
def progress (current : Rat) (total : Option Rat) (message : String) : String :=
  match total.filter (· ≠ 0) with
  | none => "\r" ++ message
  | some total =>
    let done := Number.lesser (Number.nearest (current / total)) 1
    let filled := (Number.truncate (Number.nearest (30 * done))).toNat
    let bar := String.ofList (List.replicate filled '#')
    "\r[" ++ padRight 30 bar ++ "] " ++ padLeft 4 (percent done total) ++ " " ++ message

end LiveIndex.Report
