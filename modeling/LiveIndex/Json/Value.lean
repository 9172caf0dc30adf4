import LiveIndex.Number.Shortest
import LiveIndex.Text.Quoted

/-! JSON documents, with integers apart from doubles and objects as lists of fields. Next to the
document itself stand its truth value and its display in messages. -/

namespace LiveIndex

/-- A JSON document. Integers are unbounded and apart from doubles; the fields of an object keep
the order in which their names first occur. -/
inductive Json
  | null
  | bool (b : Bool)
  | int (n : Int)
  | real (x : Number.Binary64)
  | str (s : String)
  | arr (items : List Json)
  | obj (fields : List (String × Json))
  deriving Inhabited

namespace Json

/-- Sets a field: a name that is present keeps its place, a new one goes to the end. -/
def setField (name : String) (value : Json) : List (String × Json) → List (String × Json)
  | [] => [(name, value)]
  | (n, v) :: rest => if n = name then (n, value) :: rest else (n, v) :: setField name value rest

def field? (name : String) (fields : List (String × Json)) : Option Json :=
  (fields.find? (·.1 = name)).map (·.2)

/-- The value of a field of an object; nothing for any other document. -/
def get? (name : String) : Json → Option Json
  | obj fields => field? name fields
  | _ => none

/-- Nulls, false, zeros and everything empty do not hold. -/
def holds : Json → Bool
  | null => false
  | bool b => b
  | int n => n != 0
  | real (.finite _ size) => size != 0
  | real _ => true
  | str s => s != ""
  | arr items => !items.isEmpty
  | obj fields => !fields.isEmpty

/-- The word for the kind of a value in messages. -/
def kindWord : Json → String
  | null => "NoneType"
  | bool _ => "bool"
  | int _ => "int"
  | real _ => "float"
  | str _ => "str"
  | arr _ => "list"
  | obj _ => "dict"

mutual

/-- The display of a value: texts in quotes, lists in brackets, objects in braces. -/
def display : Json → String
  | null => "None"
  | bool b => if b then "True" else "False"
  | int n => toString n
  | real x => x.text
  | str s => Text.quoted s
  | arr items => "[" ++ ", ".intercalate (displayItems items) ++ "]"
  | obj fields => "\x7b" ++ ", ".intercalate (displayFields fields) ++ "\x7d"

def displayItems : List Json → List String
  | [] => []
  | v :: rest => display v :: displayItems rest

def displayFields : List (String × Json) → List String
  | [] => []
  | (n, v) :: rest => (Text.quoted n ++ ": " ++ display v) :: displayFields rest

end

/-- The text of a value: a text stands for itself, all else is displayed. -/
def asText : Json → String
  | str s => s
  | v => v.display

end Json

end LiveIndex
