import LiveIndex.Number.Rounding

/-! Doubles with signed zeros, infinities and not-a-numbers. Only these need more than the rational
that a finite double stands for. -/

namespace LiveIndex.Number

/-- A double. Zero has a sign; a finite value is exactly the rational it stands for. -/
inductive Binary64
  | finite (negative : Bool) (size : Rat)
  | infinite (negative : Bool)
  | nan
  deriving DecidableEq, Repr

namespace Binary64

/-- The double nearest to a rational of the given sign and size. -/
def ofSize (negative : Bool) (size : Rat) : Binary64 :=
  let s := nearestSize size
  if isHuge s then infinite negative else finite negative s

def ofRat (q : Rat) : Binary64 :=
  ofSize (q < 0) (if q < 0 then -q else q)

/-- The value of a finite double. -/
def value? : Binary64 → Option Rat
  | finite negative size => some (if negative then -size else size)
  | _ => none

/-- The double of a decimal `digits * 10 ^ exponent`. An exponent far outside the range of doubles
decides alone. -/
def ofDecimal (negative : Bool) (digits : Nat) (exponent : Int) : Binary64 :=
  let order := (Nat.toDigits 10 digits).length + exponent
  if digits = 0 then finite negative 0
  else if 400 < order then infinite negative
  else if order < -400 then finite negative 0
  else if exponent < 0 then ofSize negative (mkRat digits (tens (-exponent).toNat))
  else ofSize negative (mkRat (digits * tens exponent.toNat) 1)

/-- The 64 bits of a double: sign, biased exponent, fraction. -/
def bits : Binary64 → Nat
  | nan => 0x7ff8000000000000
  | infinite negative => signBit negative + 0x7ff0000000000000
  | finite negative size =>
    let num := size.num.natAbs
    if num = 0 then signBit negative
    else
      let m := significand num size.den
      let u := placeExponent num size.den
      signBit negative +
        if m < twos 52 then m else (u + 1075).toNat * twos 52 + (m - twos 52)
where
  signBit (negative : Bool) : Nat := if negative then twos 63 else 0

end Binary64

end LiveIndex.Number
