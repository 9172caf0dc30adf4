import LiveIndex.Json.Value
import LiveIndex.Number.Reading

/-! JSON text to documents. The reader also takes the words for the infinities and for
not-a-number, and a field name may come twice; every reader returns the text that is left. -/

namespace LiveIndex.Json

/-- Why a text is no JSON document. -/
inductive Fault
  | malformed
  | longInteger (digits : Nat)
  deriving DecidableEq, Repr

def isSpace (c : Char) : Bool :=
  c = ' ' || c = '\t' || c = '\n' || c = '\r'

def skipSpace (cs : List Char) : List Char :=
  cs.dropWhile isSpace

/-- Removes a word from the front of a text. -/
def dropWord? : List Char → List Char → Option (List Char)
  | [], cs => some cs
  | w :: ws, c :: cs => if w = c then dropWord? ws cs else none
  | _ :: _, [] => none

def hexValue? (c : Char) : Option Nat :=
  let n := c.toNat
  if 48 ≤ n ∧ n ≤ 57 then some (n - 48)
  else if 97 ≤ n ∧ n ≤ 102 then some (n - 87)
  else if 65 ≤ n ∧ n ≤ 70 then some (n - 55)
  else none

/-- Four hexadecimal digits. -/
def unit? : List Char → Option (Nat × List Char)
  | a :: b :: c :: d :: rest =>
    match hexValue? a, hexValue? b, hexValue? c, hexValue? d with
    | some a, some b, some c, some d => some (4096 * a + 256 * b + 16 * c + d, rest)
    | _, _, _, _ => none
  | _ => none

/-- The character of one code unit, or of a surrogate pair whose second half follows. A half on
its own stands for no character and is replaced. -/
def scalar (hi : Nat) (rest : List Char) : Char × List Char :=
  if 0xD800 ≤ hi ∧ hi < 0xDC00 then
    match rest with
    | '\\' :: 'u' :: more =>
      match unit? more with
      | some (lo, rest') =>
        -- What follows a lone first half is read on its own.
        if 0xDC00 ≤ lo ∧ lo < 0xE000 then
          (Char.ofNat (0x10000 + (hi - 0xD800) * 0x400 + (lo - 0xDC00)), rest')
        else ('\uFFFD', rest)
      | none => ('\uFFFD', rest)
    | _ => ('\uFFFD', rest)
  else if 0xDC00 ≤ hi ∧ hi < 0xE000 then ('\uFFFD', rest)
  else (Char.ofNat hi, rest)

/-- One character of a string after a backslash. -/
def escape? : List Char → Option (Char × List Char)
  | '"' :: rest => some ('"', rest)
  | '\\' :: rest => some ('\\', rest)
  | '/' :: rest => some ('/', rest)
  | 'b' :: rest => some ('\x08', rest)
  | 'f' :: rest => some ('\x0c', rest)
  | 'n' :: rest => some ('\n', rest)
  | 'r' :: rest => some ('\r', rest)
  | 't' :: rest => some ('\t', rest)
  | 'u' :: rest => (unit? rest).map fun (n, rest') => scalar n rest'
  | _ => none

/-- The characters of a string up to its closing quote, with what follows the quote. The fuel
bounds the number of characters. -/
def readString? : Nat → List Char → Option (List Char × List Char)
  | 0, _ => none
  | fuel + 1, cs =>
    match cs with
    | [] => none
    | '"' :: rest => some ([], rest)
    | '\\' :: rest =>
      match escape? rest with
      | none => none
      | some (c, rest') => (readString? fuel rest').map fun (s, r) => (c :: s, r)
    | c :: rest =>
      if c.toNat < 32 then none
      else (readString? fuel rest).map fun (s, r) => (c :: s, r)

def isDigit (c : Char) : Bool :=
  48 ≤ c.toNat && c.toNat ≤ 57

def digitsValue (cs : List Char) : Nat :=
  Number.ofDigits (cs.map fun c => c.toNat - 48)

/-- The digits after a decimal point, if there is a point with digits after it. -/
def fraction (cs : List Char) : List Char × List Char :=
  match cs with
  | '.' :: rest =>
    let (digits, rest') := rest.span isDigit
    if digits.isEmpty then ([], cs) else (digits, rest')
  | _ => ([], cs)

/-- The exponent of a number, if one with digits follows. -/
def exponent (cs : List Char) : Option Int × List Char :=
  match cs with
  | e :: rest =>
    if e = 'e' ∨ e = 'E' then
      let (negative, body) := Number.splitSign rest
      let (digits, rest') := body.span isDigit
      if digits.isEmpty then (none, cs)
      else (some (if negative then -(digitsValue digits : Int) else digitsValue digits), rest')
    else (none, cs)
  | [] => (none, cs)

/-- The digits before a decimal point. A zero in front is all of them. -/
def wholePart (cs : List Char) : List Char × List Char :=
  match cs with
  | '0' :: rest => (['0'], rest)
  | _ => cs.span isDigit

/-- A number without its sign: an integer, or a double if it has a fraction or an exponent. -/
def readNumber (negative : Bool) (cs : List Char) : Except Fault (Json × List Char) :=
  let (whole, rest) := wholePart cs
  if whole.isEmpty then .error .malformed
  else
    let (frac, rest) := fraction rest
    let (exp, rest) := exponent rest
    if frac.isEmpty ∧ exp.isNone then
      if Number.maxDigits < whole.length then .error (.longInteger whole.length)
      else
        let n : Int := digitsValue whole
        .ok (int (if negative then -n else n), rest)
    else
      let x := Number.Binary64.ofDecimal negative (digitsValue (whole ++ frac))
        (exp.getD 0 - frac.length)
      .ok (real x, rest)

/-- The words that are values. -/
def words : List (List Char × Json) :=
  [ ("null".toList, null), ("true".toList, bool true), ("false".toList, bool false),
    ("NaN".toList, real .nan), ("Infinity".toList, real (.infinite false)),
    ("-Infinity".toList, real (.infinite true)) ]

/-- A word or a number. -/
def readPlain (cs : List Char) : Except Fault (Json × List Char) :=
  match words.findSome? fun w => (dropWord? w.1 cs).map (w.2, ·) with
  | some r => .ok r
  | none =>
    match cs with
    | '-' :: rest => readNumber true rest
    | _ => readNumber false cs

mutual

/-- A value at the front of a text, with the rest. The fuel bounds the nesting and the number of
items on the way. -/
def readValue : Nat → List Char → Except Fault (Json × List Char)
  | 0, _ => .error .malformed
  | fuel + 1, cs =>
    match cs with
    | '"' :: rest =>
      match readString? rest.length rest with
      | some (s, rest') => .ok (str (String.ofList s), rest')
      | none => .error .malformed
    | '[' :: rest =>
      match skipSpace rest with
      | ']' :: rest' => .ok (arr [], rest')
      | rest' => (readItems fuel rest').map fun (vs, r) => (arr vs, r)
    | '{' :: rest =>
      match skipSpace rest with
      | '}' :: rest' => .ok (obj [], rest')
      | rest' => (readFields fuel [] rest').map fun (fs, r) => (obj fs, r)
    | _ => readPlain cs

/-- The items of an array up to its closing bracket. -/
def readItems : Nat → List Char → Except Fault (List Json × List Char)
  | 0, _ => .error .malformed
  | fuel + 1, cs =>
    match readValue fuel cs with
    | .error e => .error e
    | .ok (v, rest) =>
      match skipSpace rest with
      | ',' :: rest' => (readItems fuel (skipSpace rest')).map fun (vs, r) => (v :: vs, r)
      | ']' :: rest' => .ok ([v], rest')
      | _ => .error .malformed

/-- The fields of an object up to its closing brace, added to those read before; of two fields
with one name the later value counts. -/
def readFields : Nat → List (String × Json) → List Char →
    Except Fault (List (String × Json) × List Char)
  | 0, _, _ => .error .malformed
  | fuel + 1, before, cs =>
    match cs with
    | '"' :: rest =>
      match readString? rest.length rest with
      | none => .error .malformed
      | some (name, rest') =>
        match skipSpace rest' with
        | ':' :: rest'' =>
          match readValue fuel (skipSpace rest'') with
          | .error e => .error e
          | .ok (v, rest) =>
            let fields := setField (String.ofList name) v before
            match skipSpace rest with
            | ',' :: rest' => readFields fuel fields (skipSpace rest')
            | '}' :: rest' => .ok (fields, rest')
            | _ => .error .malformed
        | _ => .error .malformed
    | _ => .error .malformed

end

/-- Reads a document: one value with white space around it. -/
def read (s : String) : Except Fault Json :=
  let cs := s.toList
  match readValue (2 * cs.length + 2) (skipSpace cs) with
  | .error e => .error e
  | .ok (v, rest) => if (skipSpace rest).isEmpty then .ok v else .error .malformed

end LiveIndex.Json
