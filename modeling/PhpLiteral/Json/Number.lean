import PhpLiteral.Json.Content

/-!
# JSON numbers

A JSON number is an integer if it is written without fraction and exponent, is no negative zero and has 64 bits, with
sign if it is below zero. Any other number is a double. Its digits count as far as they fit 64 bits; what they give is
rounded to a double and then multiplied with or divided by a power of ten, which is a double itself. A number whose
double would be infinite is none.
-/

namespace PhpLiteral.Json

/-- A number in its parts. -/
structure Numeral where
  isNegative : Bool
  integer : List Nat
  fraction : Option (List Nat)
  /-- The sign and the digits of the exponent. -/
  exponent : Option (Bool × List Nat)
  deriving DecidableEq, Repr

/-- The values of the digits that a text starts with. -/
def leadingDigits (t : Text) : List Nat := (t.takeWhile Ascii.isDigit).map fun b => b.toNat - 0x30

/-- The digits of the integer part that a text starts with; there are some, and the first of several is no zero. -/
def integerPart? (t : Text) : Option (List Nat) :=
  match leadingDigits t with
  | [] => none
  | [d] => some [d]
  | 0 :: _ => none
  | digits => some digits

/-- The fraction that a text starts with, and the rest; a point needs digits behind it. -/
def fraction? : Text → Option (Option (List Nat) × Text)
  | Ascii.dot :: rest =>
    match leadingDigits rest with
    | [] => none
    | digits => some (some digits, rest.drop digits.length)
  | t => some (none, t)

/-- The exponent that a text starts with, and the rest; an `e` needs digits behind it and its sign. -/
def exponent? : Text → Option (Option (Bool × List Nat) × Text)
  | b :: rest =>
    if Ascii.toLower b ≠ 0x65 then some (none, b :: rest)
    else
      let (isNegative, rest) :=
        match rest with
        | Ascii.minus :: rest => (true, rest)
        | Ascii.plus :: rest => (false, rest)
        | rest => (false, rest)
      match leadingDigits rest with
      | [] => none
      | digits => some (some (isNegative, digits), rest.drop digits.length)
  | [] => some (none, [])

/-- The number that a text writes. -/
def Numeral.parse? (t : Text) : Option Numeral := do
  let (isNegative, t) :=
    match t with
    | Ascii.minus :: rest => (true, rest)
    | t => (false, t)
  let integer ← integerPart? t
  let (fraction, t) ← fraction? (t.drop integer.length)
  let (exponent, t) ← exponent? t
  if t.isEmpty then some ⟨isNegative, integer, fraction, exponent⟩ else none

/-- The number that digits continue as long as it has 64 bits, and how many digits are left. -/
def accumulate (n : Nat) : List Nat → Nat × Nat
  | [] => (n, 0)
  | d :: rest => if 10 * n + d < UInt64.size then accumulate (10 * n + d) rest else (n, rest.length + 1)

/-- The greatest power of ten that is a double. -/
def greatestPower : Nat := 308

/-- The double that `significand * 10 ^ exponent` gives, step by step as long as the exponent is out of the range
of a double. None if it is too great. -/
def scale? (x : Nat) (exponent : Int) : (tries : Nat) → Option Nat
  | 0 => some x
  | tries + 1 =>
    let power := Binary64.nearest (Nat.pow 10 (min exponent.natAbs greatestPower)) 1
    if exponent.natAbs ≤ greatestPower then
      let y := if 0 ≤ exponent then Binary64.mul x power else Binary64.div x power
      if y < Binary64.infinityMagnitude then some y else none
    else if x = 0 then some 0
    else if 0 ≤ exponent then none
    else scale? (Binary64.div x power) (exponent + (greatestPower : Int)) tries

namespace Numeral

/-- The exponent of a number; digits that leave 31 bits make it greater than any. -/
def exponentValue (n : Numeral) : Int :=
  match n.exponent with
  | none => 0
  | some (isNegative, digits) =>
    let e : Nat := min (digits.foldl (fun e d => 10 * e + d) 0) 2147483648
    if isNegative then -(e : Int) else e

/-- The magnitude of the double of a number, if it is finite. -/
def magnitude? (n : Numeral) : Option Nat :=
  let (whole, dropped) := accumulate 0 n.integer
  let fraction := n.fraction.getD []
  let (significand, ignored) := accumulate whole fraction
  let exponent : Int := n.exponentValue + (dropped : Int) - (fraction.length - ignored : Nat)
  scale? (Binary64.nearest significand 1) exponent 4

/-- The digits of a number as one of 64 bits without sign, if it is written without fraction and exponent. -/
def word? (n : Numeral) : Option Nat :=
  if n.fraction.isSome || n.exponent.isSome then none
  else
    match accumulate 0 n.integer with
    | (value, 0) => some value
    | _ => none

/-- The integer that a number is written as. -/
def integer? (n : Numeral) : Option Number :=
  n.word?.bind fun value =>
    if !n.isNegative then some (.natural (UInt64.ofNat value))
    else if value = 0 then none
    else (int64? (-(value : Int))).map .negative

/-- The number that is read. -/
def number? (n : Numeral) : Option Number :=
  match n.integer? with
  | some i => some i
  | none => n.magnitude?.map fun m => .float (.ofMagnitude n.isNegative m)

end Numeral

end PhpLiteral.Json
