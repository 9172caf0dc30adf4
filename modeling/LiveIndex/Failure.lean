import LiveIndex.Json.Reader
import LiveIndex.Time.Reading

/-! One type for everything that can go wrong, by cause. Handlers choose by family, and the wording
is all in one place. -/

namespace LiveIndex

/-- Everything that can go wrong. Texts in quotes are kept as they are shown. -/
inductive Failure
  | noSuchFile (path : String)
  | accessDenied (path : String)
  | alreadyThere (path : String)
  | notDirectory (path : String)
  | isDirectory (path : String)
  | moveOntoDirectory (source target : String)
  | tooManyLinks (path : String)
  | rootMissing (root : String)
  | rootNotDirectory (root : String)
  | rootLocked (root : String)
  | device (text : String)
  | crash (text : String)
  | linkLoop (path : String)
  | noHome
  | noPath
  | emptyName (path : String)
  | time (fault : Time.Fault)
  | integer (fault : Number.IntegerFault) (text : String)
  | longInteger (digits : Nat)
  | unwritableInteger
  | notNumber (word : String)
  | nanInteger
  | infiniteInteger
  | hugeInteger
  | hugeQuotient
  | noFields (word : String)
  | missingField (name : String)
  | unknownKind (shown : String)
  | unknownChange (shown : String)
  | unknownDirectoryChange (shown : String)
  | unknownEvent (shown : String)
  | notNode (shown : String)
  | noEntries
  | malformedSnapshot (cause : Failure)
  | badDocument
  | badEncoding
  deriving DecidableEq, Repr

/-- The families that failures are handled by. -/
inductive Failure.Family
  | system | value | field | type | attribute | range | crash
  deriving DecidableEq, Repr

namespace Failure

def timeFamily : Time.Fault → Family
  | .notText => .type
  | .beyondClock => .range
  | .beyondCalendar => .system
  | _ => .value

def family : Failure → Family
  | noSuchFile _ | accessDenied _ | alreadyThere _ | notDirectory _ | isDirectory _
  | moveOntoDirectory .. | tooManyLinks _ | rootMissing _ | rootNotDirectory _ | rootLocked _
  | device _ => .system
  | crash _ | linkLoop _ | noHome => .crash
  | time fault => timeFamily fault
  | notNumber _ | notNode _ => .type
  | infiniteInteger | hugeInteger | hugeQuotient => .range
  | noFields _ => .attribute
  | missingField _ => .field
  | noPath | emptyName _ | integer .. | longInteger _ | unwritableInteger | nanInteger
  | unknownKind _ | unknownChange _ | unknownDirectoryChange _ | unknownEvent _ | noEntries
  | malformedSnapshot _ | badDocument | badEncoding => .value

/-- The wording of a numbered failure of the system. -/
def systemText (number : Nat) (text path : String) : String :=
  "[Errno " ++ toString number ++ "] " ++ text ++ ": " ++ Text.quoted path

def longText (digits : Nat) : String :=
  "Exceeds the limit (4300 digits) for integer string conversion: value has " ++
    toString digits ++ " digits; use sys.set_int_max_str_digits() to increase the limit"

def timeText : Time.Fault → String
  | .notText => "fromisoformat: argument must be str"
  | .malformed text => "Invalid isoformat string: " ++ Text.quoted text
  | .year n => "year " ++ toString n ++ " is out of range"
  | .month => "month must be in 1..12"
  | .day => "day is out of range for month"
  | .hour => "hour must be in 0..23"
  | .minute => "minute must be in 0..59"
  | .second => "second must be in 0..59"
  | .offset micros =>
    "offset must be a timedelta strictly between -timedelta(hours=24) and " ++
      "timedelta(hours=24), not " ++ Time.spanText micros ++ "."
  | .beyondClock => "timestamp out of range for platform time_t"
  | .beyondCalendar => "[Errno 75] Value too large for defined data type"

/-- What is said about a failure. -/
def message : Failure → String
  | noSuchFile p => systemText 2 "No such file or directory" p
  | accessDenied p => systemText 13 "Permission denied" p
  | alreadyThere p => systemText 17 "File exists" p
  | notDirectory p => systemText 20 "Not a directory" p
  | isDirectory p => systemText 21 "Is a directory" p
  | moveOntoDirectory s t => systemText 21 "Is a directory" s ++ " -> " ++ Text.quoted t
  | tooManyLinks p => systemText 40 "Too many levels of symbolic links" p
  | rootMissing r => "Root directory not found: " ++ r
  | rootNotDirectory r => "Root is not a directory: " ++ r
  | rootLocked r => "Cannot list " ++ r
  | device text => text
  | crash text => text
  | linkLoop p => "Symlink loop from " ++ Text.quoted p
  | noHome => "Could not determine home directory."
  | noPath => "no path specified"
  | emptyName p => "PosixPath(" ++ Text.quoted p ++ ") has an empty name"
  | time fault => timeText fault
  | integer .malformed text => "invalid literal for int() with base 10: " ++ Text.quoted text
  | integer (.tooLong digits) _ => longText digits
  | longInteger digits => longText digits
  | unwritableInteger =>
    "Exceeds the limit (4300 digits) for integer string conversion; " ++
      "use sys.set_int_max_str_digits() to increase the limit"
  | notNumber word =>
    "int() argument must be a string, a bytes-like object or a real number, not " ++
      Text.quoted word
  | nanInteger => "cannot convert float NaN to integer"
  | infiniteInteger => "cannot convert float infinity to integer"
  | hugeInteger => "int too large to convert to float"
  | hugeQuotient => "integer division result too large for a float"
  | noFields word => Text.quoted word ++ " object has no attribute 'get'"
  | missingField name => Text.quoted name
  | unknownKind shown => "Unknown entry kind: " ++ shown
  | unknownChange shown => "Unknown change kind: " ++ shown
  | unknownDirectoryChange shown => "Unknown directory change kind: " ++ shown
  | unknownEvent shown => "Unknown watcher event: " ++ shown
  | notNode shown => "Not a query node: " ++ shown
  | noEntries => "Snapshot has no entries list"
  | malformedSnapshot cause => "Malformed snapshot: " ++ cause.message
  | badDocument => "<JSONDecodeError>"
  | badEncoding => "<UnicodeDecodeError>"

end Failure

/-- The integer that a value stands for: texts are read, doubles cut towards zero. -/
def Json.toInteger : Json → Except Failure Int
  | .int n => .ok n
  | .bool b => .ok (if b then 1 else 0)
  | .real (.finite negative size) =>
    let n := Number.truncate size
    .ok (if negative then -n else n)
  | .real .nan => .error .nanInteger
  | .real (.infinite _) => .error .infiniteInteger
  | .str s =>
    match Number.readInteger s with
    | .ok n => .ok n
    | .error fault => .error (.integer fault s)
  | v => .error (.notNumber v.kindWord)

/-- The stamp that a value stands for. -/
def Json.toStamp : Json → Except Failure Time.Stamp
  | .str s =>
    match Time.read s with
    | .ok stamp => .ok stamp
    | .error fault => .error (.time fault)
  | _ => .error (.time .notText)

end LiveIndex
