import LiveIndex.Number.Shortest

namespace LiveIndex.Number

/-- The digits of a number, padded on the left with zeros. -/
def paddedDigits (width n : Nat) : List Char :=
  let digits := Nat.toDigits 10 n
  zeros (width - digits.length) ++ digits

/-- A rational with a fixed number of places after the point, a half going to the even digit. -/
def fixed (places : Nat) (q : Rat) : String :=
  let n := roundSize (q * tenPow places)
  let sign := if q < 0 then ['-'] else []
  let fraction := if places = 0 then [] else '.' :: paddedDigits places (n % tens places)
  String.ofList (sign ++ Nat.toDigits 10 (n / tens places) ++ fraction)

/-- The double nearest to a double rounded to a number of decimal places. -/
def roundPlaces (places : Nat) (q : Rat) : Rat :=
  nearest (roundInt (q * tenPow places) / tenPow places)

/-- Splits digits into groups of three, counted from the end. -/
def groupThrees : List Char → List Char
  | a :: b :: c :: d :: rest => a :: b :: c :: ',' :: groupThrees (d :: rest)
  | short => short

/-- An integer with a comma between thousands. -/
def grouped (n : Int) : String :=
  let body := (groupThrees (Nat.toDigits 10 n.natAbs).reverse).reverse
  String.ofList (if n < 0 then '-' :: body else body)

end LiveIndex.Number
