import LiveIndex.Json.Value
import LiveIndex.Number.Reading

/-! Documents to JSON text, in ASCII throughout. The text on several lines is the one that is
stored. -/

namespace LiveIndex.Json

/-- A code unit as a four-digit escape. -/
def unitEscape (n : Nat) : List Char :=
  ['\\', 'u'] ++ Text.hexDigits 4 n

/-- A character inside a string: only printable ASCII stands for itself. -/
def escapedChar (c : Char) : List Char :=
  if c = '"' then ['\\', '"']
  else if c = '\\' then ['\\', '\\']
  else if c = '\n' then ['\\', 'n']
  else if c = '\r' then ['\\', 'r']
  else if c = '\t' then ['\\', 't']
  else if c = '\x08' then ['\\', 'b']
  else if c = '\x0c' then ['\\', 'f']
  else if 32 ≤ c.toNat ∧ c.toNat < 127 then [c]
  else if c.toNat < 0x10000 then unitEscape c.toNat
  else
    let n := c.toNat - 0x10000
    unitEscape (0xD800 + n / 0x400) ++ unitEscape (0xDC00 + n % 0x400)

def stringText (s : String) : List Char :=
  '"' :: s.toList.flatMap escapedChar ++ ['"']

/-- A value that holds no others. -/
def plainText : Json → List Char
  | bool true => "true".toList
  | bool false => "false".toList
  | int n => (toString n).toList
  | real .nan => "NaN".toList
  | real (.infinite false) => "Infinity".toList
  | real (.infinite true) => "-Infinity".toList
  | real x => x.text.toList
  | str s => stringText s
  | _ => "null".toList

/-- A new line, indented by two spaces a level. -/
def newLine (level : Nat) : List Char :=
  '\n' :: List.replicate (2 * level) ' '

mutual

/-- A document on several lines, one item or field to a line. -/
def writeAt (level : Nat) : Json → List Char
  | arr [] => ['[', ']']
  | arr items => '[' :: writeItems (level + 1) items ++ newLine level ++ [']']
  | obj [] => ['{', '}']
  | obj fields => '{' :: writeFields (level + 1) fields ++ newLine level ++ ['}']
  | v => plainText v

def writeItems (level : Nat) : List Json → List Char
  | [] => []
  | [v] => newLine level ++ writeAt level v
  | v :: rest => newLine level ++ writeAt level v ++ [','] ++ writeItems level rest

def writeFields (level : Nat) : List (String × Json) → List Char
  | [] => []
  | [(n, v)] => newLine level ++ stringText n ++ [':', ' '] ++ writeAt level v
  | (n, v) :: rest =>
    newLine level ++ stringText n ++ [':', ' '] ++ writeAt level v ++ [','] ++
      writeFields level rest

end

/-- The text of a document, indented by two spaces. -/
def write (v : Json) : String :=
  String.ofList (writeAt 0 v)

mutual

/-- Whether all integers of a document are short enough to be written. -/
def isWritable : Json → Bool
  | int n => n.natAbs < Number.tens Number.maxDigits
  | arr items => itemsWritable items
  | obj fields => fieldsWritable fields
  | _ => true

def itemsWritable : List Json → Bool
  | [] => true
  | v :: rest => isWritable v && itemsWritable rest

def fieldsWritable : List (String × Json) → Bool
  | [] => true
  | (_, v) :: rest => isWritable v && fieldsWritable rest

end

mutual

/-- A document on one line. -/
def compactText : Json → String
  | arr items => "[" ++ ",".intercalate (compactItems items) ++ "]"
  | obj fields => "\x7b" ++ ",".intercalate (compactFields fields) ++ "\x7d"
  | v => String.ofList (plainText v)

def compactItems : List Json → List String
  | [] => []
  | v :: rest => compactText v :: compactItems rest

def compactFields : List (String × Json) → List String
  | [] => []
  | (n, v) :: rest => (String.ofList (stringText n) ++ ":" ++ compactText v) :: compactFields rest

end

end LiveIndex.Json
