import LiveIndex.Text.Ranges

namespace LiveIndex.Text

/-- Ranges of the white space characters. -/
def blankRanges : List (Nat × Nat) :=
  [
    (9, 13), (28, 32), (133, 133), (160, 160), (5760, 5760), (8192, 8202), (8232, 8233),
    (8239, 8239), (8287, 8287), (12288, 12288)
  ]

/-- White space, the information separators and the non-breaking spaces included. -/
def isBlank (c : Char) : Bool :=
  inRanges blankRanges c.toNat

/-- Drops white space from both ends. -/
def trimBlank (cs : List Char) : List Char :=
  ((cs.dropWhile isBlank).reverse.dropWhile isBlank).reverse

/-- A text without its leading and trailing white space. -/
def strip (s : String) : String :=
  String.ofList (trimBlank s.toList)

end LiveIndex.Text
