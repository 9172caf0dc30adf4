import LiveIndex.Text.Blank
import LiveIndex.Text.Digit

/-! Integers as people write them: signs, white space around, underscores between digits, and the
decimal digits of every script. Very long digit strings are refused. -/

namespace LiveIndex.Number

/-- The longest digit string that is read as an integer. -/
def maxDigits : Nat := 4300

/-- Why a text is no integer. -/
inductive IntegerFault
  | malformed
  | tooLong (digits : Nat)
  deriving DecidableEq, Repr

/-- The values of a run of digits with single underscores between them; `none` if there is no
digit or anything else occurs. -/
def digitRun : List Char → Option (List Nat)
  | [] => none
  | [c] => (Text.digitValue? c).map ([·])
  | c :: '_' :: rest => (Text.digitValue? c).bind fun d => (digitRun rest).map (d :: ·)
  | c :: rest => (Text.digitValue? c).bind fun d => (digitRun rest).map (d :: ·)

/-- The number that decimal digits spell. -/
def ofDigits (digits : List Nat) : Nat :=
  digits.foldl (fun n d => 10 * n + d) 0

/-- Takes a sign off the front of a text; true if it is a minus. -/
def splitSign : List Char → Bool × List Char
  | '-' :: rest => (true, rest)
  | '+' :: rest => (false, rest)
  | cs => (false, cs)

/-- Splits a text after its longest run of digits and underscores. -/
def spanDigits (cs : List Char) : List Char × List Char :=
  cs.span fun c => (Text.digitValue? c).isSome || c = '_'

/-- Reads an integer: white space around it, a sign, and single underscores between digits of any
script are allowed. A run of digits that is well formed but too long is refused for its length
even if more text follows. -/
def readInteger (s : String) : Except IntegerFault Int :=
  let (negative, body) := splitSign (Text.trimBlank s.toList)
  let (run, rest) := spanDigits body
  match digitRun run with
  | none => .error .malformed
  | some digits =>
    if maxDigits < digits.length then .error (.tooLong digits.length)
    else if rest ≠ [] then .error .malformed
    else .ok (if negative then -(ofDigits digits : Int) else ofDigits digits)

end LiveIndex.Number
