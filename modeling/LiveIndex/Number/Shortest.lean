import LiveIndex.Number.Binary64

/-! The fewest decimal digits that read back as a double. For each number of digits the neighbours
of the double on that decimal grid are read back; the first grid with a hit wins. -/

namespace LiveIndex.Number

def tenPow (e : Int) : Rat :=
  if e < 0 then mkRat 1 (tens (-e).toNat) else mkRat (tens e.toNat) 1

/-- The exponent of the greatest power of ten that a positive rational reaches. -/
def decimalExponent (q : Rat) : Int :=
  let e : Int :=
    ((Nat.toDigits 10 q.num.natAbs).length : Int) - (Nat.toDigits 10 q.den).length
  if q < tenPow e then e - 1 else e

/-- The decimal with `count` digits that reads back as the double `q`, the nearer of the two
neighbours of `q` if both do, as a multiple of its last place. -/
def digitsOfCount? (q : Rat) (count : Nat) : Option (Nat × Int) :=
  let place := decimalExponent q - count + 1
  let below := (q / tenPow place).floor.toNat
  let reads (n : Nat) : Bool := nearest (n * tenPow place) == q
  let near := roundSize (q / tenPow place)
  -- Both neighbours may read back; then the nearer one counts.
  if reads near then some (near, place)
  else if reads below then some (below, place)
  else if reads (below + 1) then some (below + 1, place)
  else none

/-- Drops the zeros at the end of a digit string, counting them into the place. -/
def dropZeros : Nat → Nat × Int → Nat × Int
  | 0, d => d
  | fuel + 1, (n, place) =>
    if n ≠ 0 ∧ n % 10 = 0 then dropZeros fuel (n / 10, place + 1) else (n, place)

/-- The fewest digits that read back as a positive double, with the place of the last one.
Seventeen always suffice. -/
def shortestDigits (q : Rat) : Nat × Int :=
  let found := (List.range 17).findSome? fun i => digitsOfCount? q (i + 1)
  dropZeros 20 (found.getD (roundSize q, 0))

def zeros (n : Nat) : List Char :=
  List.replicate n '0'

/-- Positional notation from 0.0001 up to 10 ^ 16, scientific notation with at least two exponent
digits outside; a whole number keeps one zero after the point. -/
def layout (digits : List Char) (place : Int) : List Char :=
  let point := place + digits.length
  if -4 < point ∧ point ≤ 16 then
    if place ≥ 0 then digits ++ zeros place.toNat ++ ['.', '0']
    else if point ≤ 0 then ['0', '.'] ++ zeros (-point).toNat ++ digits
    else digits.take point.toNat ++ ['.'] ++ digits.drop point.toNat
  else
    let e := point - 1
    let size := Nat.toDigits 10 e.natAbs
    let fraction := if digits.length = 1 then [] else '.' :: digits.drop 1
    digits.take 1 ++ fraction ++ ['e', if e < 0 then '-' else '+'] ++
      zeros (2 - size.length) ++ size

/-- The shortest text that reads back as the same double. -/
def Binary64.text : Binary64 → String
  | .nan => "nan"
  | .infinite negative => if negative then "-inf" else "inf"
  | .finite negative size =>
    let body :=
      if size = 0 then ['0', '.', '0']
      else
        let (digits, place) := shortestDigits size
        layout (Nat.toDigits 10 digits) place
    String.ofList (if negative then '-' :: body else body)

end LiveIndex.Number
