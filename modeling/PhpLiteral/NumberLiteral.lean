import PhpLiteral.Binary64.Shortest

/-!
# Number literals

PHP literals of integers (`intLiteral`) and of doubles (`floatLiteral`). A double is written with a point always,
in positional form or, when it is below `1e-4` or at least `1e15`, in exponent form.
-/

namespace PhpLiteral

/-- The least integer is written as a difference, because PHP reads its digits as a double before the sign. -/
def intLiteral (i : Int64) : Text :=
  if i = Int64.minValue then decimalInt (i.toInt + 1) ++ utf8 "-1" else decimalInt i.toInt

namespace Decimal

/-- One digit before the point, at least one after it, and the exponent with its sign. -/
def exponentForm (d : Decimal) : Text :=
  let fraction := d.digits.drop 1
  d.digits.take 1 ++ utf8 "." ++ (if fraction.isEmpty then utf8 "0" else fraction) ++
    (if d.exponent < 0 then utf8 "E-" else utf8 "E+") ++ decimal d.exponent.natAbs

/-- All digits in their places, at least one before the point and one after it. -/
def positionalForm (d : Decimal) : Text :=
  if d.exponent < 0 then
    utf8 "0." ++ List.replicate (d.exponent.natAbs - 1) Ascii.zero ++ d.digits
  else
    let point := d.exponent.toNat + 1
    let fraction := d.digits.drop point
    d.digits.take point ++ List.replicate (point - d.digits.length) Ascii.zero ++ utf8 "." ++
      (if fraction.isEmpty then utf8 "0" else fraction)

end Decimal

namespace Binary64

/-- Whether a double is written in exponent form: it is not zero, and below `1e-4` or at least `1e15`. -/
def isExponential (x : Binary64) : Bool :=
  x.magnitude ≠ 0 && (x.magnitude < nearest 1 (Nat.pow 10 4) || nearest (Nat.pow 10 15) 1 ≤ x.magnitude)

end Binary64

/-- The literal of a double. -/
def floatLiteral (x : Binary64) : Text :=
  if x.isNaN then utf8 "NAN"
  else
    (if x.isNegative then utf8 "-" else []) ++
      (if x.isInfinite then utf8 "INF"
      else if x.magnitude = 0 then utf8 "0.0"
      else if x.isExponential then x.shortest.exponentForm
      else x.shortest.positionalForm)

end PhpLiteral
