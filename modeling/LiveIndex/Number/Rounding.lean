/-! Doubles as rationals. A positive rational is rounded to a whole number of last places, a tie
going to the even one; everything is exact integer arithmetic. -/

namespace LiveIndex.Number

/-- The integer nearest to a quotient; a half goes to the even neighbour. -/
def roundDiv (num den : Nat) : Nat :=
  let q := num / den
  let r := num % den
  if 2 * r < den then q else if den < 2 * r then q + 1 else q + q % 2

/-- The integer nearest to the size of a rational; a half goes to the even neighbour. -/
def roundSize (q : Rat) : Nat :=
  roundDiv q.num.natAbs q.den

/-- The integer nearest to a rational; a half goes to the even neighbour. -/
def roundInt (q : Rat) : Int :=
  if q < 0 then -(roundSize q : Int) else roundSize q

/-- The integer part of a rational, cut towards zero. -/
def truncate (q : Rat) : Int :=
  Int.tdiv q.num q.den

def twos (n : Nat) : Nat :=
  Nat.pow 2 n

def tens (n : Nat) : Nat :=
  Nat.pow 10 n

def lesser (a b : Rat) : Rat :=
  if a ≤ b then a else b

def total (qs : List Rat) : Rat :=
  qs.foldl (· + ·) 0

def twoPow (e : Int) : Rat :=
  if e < 0 then mkRat 1 (twos (-e).toNat) else mkRat (twos e.toNat) 1

/-- The exponent of the greatest power of two that a positive quotient reaches. -/
def binaryExponent (num den : Nat) : Int :=
  let e : Int := (num.log2 : Int) - den.log2
  if num * twos (-e).toNat < den * twos e.toNat then e - 1 else e

/-- The exponent of the last place of a double near a positive quotient: 53 significant bits,
and no place below the least subnormal. -/
def placeExponent (num den : Nat) : Int :=
  max (binaryExponent num den - 52) (-1074)

/-- The number of last places in the double nearest to a positive quotient. -/
def significand (num den : Nat) : Nat :=
  let u := placeExponent num den
  roundDiv (num * twos (-u).toNat) (den * twos u.toNat)

/-- The double nearest to the size of a rational, ties to the even significand, as if there were
no largest one. -/
def nearestSize (q : Rat) : Rat :=
  let num := q.num.natAbs
  if num = 0 then 0
  else significand num q.den * twoPow (placeExponent num q.den)

/-- The double nearest to a rational, ties to the even significand, as if there were no largest
one. -/
def nearest (q : Rat) : Rat :=
  if q < 0 then -nearestSize q else nearestSize q

/-- Whether a value rounded to a double is past the largest one. -/
def isHuge (q : Rat) : Bool :=
  twoPow 1024 ≤ q || q ≤ -twoPow 1024

end LiveIndex.Number
