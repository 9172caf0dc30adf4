namespace LiveIndex.Text

/-- The parts of a text between the occurrences of a mark; one part more than there are marks. -/
def splitChars (mark : Char) : List Char → List (List Char)
  | [] => [[]]
  | c :: rest =>
    if c = mark then [] :: splitChars mark rest
    else
      match splitChars mark rest with
      | [] => [[c]]
      | part :: parts => (c :: part) :: parts

def split (mark : Char) (s : String) : List String :=
  (splitChars mark s.toList).map String.ofList

def startsWith (s start : String) : Bool :=
  start.toList.isPrefixOf s.toList

/-- A text without the given marks at its end. -/
def dropEnd (mark : Char) (s : String) : String :=
  String.ofList (s.toList.reverse.dropWhile (· = mark)).reverse

/-- The position of the first occurrence of a text in another. -/
def find? (part : List Char) : List Char → Option Nat
  | [] => if part.isEmpty then some 0 else none
  | c :: rest =>
    if part.isPrefixOf (c :: rest) then some 0 else (find? part rest).map (· + 1)

def occursIn (part s : String) : Bool :=
  (find? part.toList s.toList).isSome

end LiveIndex.Text
