import PhpLiteral.Binary64
import PhpLiteral.Text

/-!
# TOML numbers

Integers in four bases and decimal floats. Underscores may stand between digits, and a decimal integer starts with
a zero only if it is one. A float is rounded to the nearest double; a float whose double would be infinite is none.
-/

namespace PhpLiteral.Toml

/-- The number that digits of a base continue `n` to, with underscores between digits only. -/
def grouped? (base n : Nat) (afterDigit : Bool) : Text → Option Nat
  | [] => if afterDigit then some n else none
  | b :: rest =>
    if b = Ascii.underscore then if afterDigit then grouped? base n false rest else none
    else
      match Ascii.hexValue? b with
      | some d => if d < base then grouped? base (n * base + d) true rest else none
      | none => none

/-- The sign and the rest of a text: a minus sign, a plus sign or none. -/
def signed : Text → Bool × Text
  | Ascii.minus :: rest => (true, rest)
  | Ascii.plus :: rest => (false, rest)
  | t => (false, t)

/-- The number of a decimal integer without sign. -/
def decimalNat? (t : Text) : Option Nat :=
  if t.head? = some Ascii.zero ∧ t.length ≠ 1 then none else grouped? 10 0 false t

/-- The integer that a text writes. -/
def int? : Text → Option Int
  | Ascii.zero :: 0x78 :: rest => (grouped? 16 0 false rest).map Int.ofNat
  | Ascii.zero :: 0x6f :: rest => (grouped? 8 0 false rest).map Int.ofNat
  | Ascii.zero :: 0x62 :: rest => (grouped? 2 0 false rest).map Int.ofNat
  | t =>
    let (isNegative, t) := signed t
    (decimalNat? t).map fun n => if isNegative then -(n : Int) else n

/-- A text up to the first byte that satisfies a test, and what follows that byte if there is one. -/
def splitFirst (test : UInt8 → Bool) (t : Text) : Text × Option Text :=
  match t.dropWhile (!test ·) with
  | [] => (t, none)
  | _ :: rest => (t.takeWhile (!test ·), some rest)

/-- The number of digits among the bytes of a text. -/
def digitCount (t : Text) : Nat := t.countP Ascii.isDigit

/-- The magnitude of the double of a decimal float without sign: an integer, then a fraction, an exponent or
both. An exponent beyond all doubles is cut to one that is beyond them, too. -/
def decimalFloat? (t : Text) : Option Nat := do
  let (mantissa, exponent) := splitFirst (Ascii.toLower · == 0x65) t
  let (whole, fraction) := splitFirst (· == Ascii.dot) mantissa
  if fraction.isNone && exponent.isNone then none
  let n ← decimalNat? whole
  let n ← match fraction with
    | some digits => grouped? 10 n false digits
    | none => some n
  let e ← match exponent with
    | some e =>
      let (isNegative, e) := signed e
      (grouped? 10 0 false e).map fun e => if isNegative then -(e : Int) else (e : Int)
    | none => some 0
  let scale := e - (digitCount (fraction.getD []) : Int)
  let bound : Int := (400 + t.length : Nat)
  let magnitude := Binary64.ofDecimal n (max (-bound) (min bound scale))
  if magnitude < Binary64.infinityMagnitude then some magnitude else none

/-- The float that a text writes. -/
def float? (t : Text) : Option Binary64 :=
  let (isNegative, t) := signed t
  if t = utf8 "inf" then some (.ofMagnitude isNegative Binary64.infinityMagnitude)
  else if t = utf8 "nan" then some (.ofMagnitude isNegative (Binary64.infinityMagnitude + (1 <<< 51)))
  else (decimalFloat? t).map (.ofMagnitude isNegative)

end PhpLiteral.Toml
