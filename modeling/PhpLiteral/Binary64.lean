/-!
# Doubles

A double is its 64 bits. A finite one is a whole number of the least positive double, `2 ^ -1074`, so that its
magnitude is a natural number (`Binary64.units`) and all arithmetic on it is exact:

* `Binary64.nearest`: the double nearest to a fraction, a tie going to the even neighbour;
* `Binary64.ofDecimal`: the double nearest to a decimal number;
* `Binary64.mul`, `Binary64.div`: the product and the quotient of magnitudes, rounded once.
-/

namespace PhpLiteral

/-- An IEEE 754 double, as its bits. -/
structure Binary64 where
  bits : UInt64
  deriving DecidableEq, Repr

namespace Binary64

/-- The value of the sign bit. -/
def signBit : Nat := 1 <<< 63

/-- The value of the lowest bit of the exponent, which is also that of the first bit of a significand. -/
def exponentBit : Nat := 1 <<< 52

/-- The bits without the sign bit. -/
def magnitude (x : Binary64) : Nat := x.bits.toNat % signBit

/-- Whether the sign bit is set. -/
def isNegative (x : Binary64) : Bool := signBit ≤ x.bits.toNat

/-- The magnitude of the infinities; a greater one is no number. -/
def infinityMagnitude : Nat := 2047 * exponentBit

def isNaN (x : Binary64) : Bool := infinityMagnitude < x.magnitude

def isInfinite (x : Binary64) : Bool := x.magnitude = infinityMagnitude

/-- The double with a sign and a magnitude. -/
def ofMagnitude (negative : Bool) (magnitude : Nat) : Binary64 :=
  ⟨UInt64.ofNat (if negative then signBit + magnitude else magnitude)⟩

/-- How often the least positive double goes into the finite double of a magnitude. -/
def unitsOf (magnitude : Nat) : Nat :=
  if magnitude < exponentBit then magnitude
  else (exponentBit + magnitude % exponentBit) <<< (magnitude / exponentBit - 1)

/-- How often the least positive double goes into a finite double, its sign aside. -/
def units (x : Binary64) : Nat := unitsOf x.magnitude

/-- One, as a multiple of the least positive double. -/
def unit : Nat := 1 <<< 1074

/-- The whole number nearest to a fraction, a tie going to the even one. -/
def roundDiv (num den : Nat) : Nat :=
  let q := num / den
  let r := num % den
  if 2 * r < den ∨ 2 * r = den ∧ q % 2 = 0 then q else q + 1

/-- The magnitude of the double nearest to a fraction, a tie going to the even one. The packed form of a double
puts the exponent above the significand, so that a significand rounded up to the next power of two carries into
the exponent by itself. -/
def nearest (num den : Nat) : Nat :=
  let shift := (num * unit / den).log2 - 52
  min (shift * exponentBit + roundDiv (num * unit) (den <<< shift)) infinityMagnitude

/-- The magnitude of the double nearest to `digits * 10 ^ exponent`. -/
def ofDecimal (digits : Nat) (exponent : Int) : Nat :=
  if 0 ≤ exponent then nearest (digits * Nat.pow 10 exponent.toNat) 1
  else nearest digits (Nat.pow 10 (-exponent).toNat)

/-- The magnitude of the product of two finite doubles. -/
def mul (x y : Nat) : Nat := nearest (unitsOf x * unitsOf y) (unit * unit)

/-- The magnitude of the quotient of two finite doubles, the second one not zero. -/
def div (x y : Nat) : Nat := nearest (unitsOf x) (unitsOf y)

end Binary64

end PhpLiteral
