/-!
# Text

Text is a list of UTF-8 bytes, so that lengths, columns and spans are byte counts and a byte string that is no
valid text has the same type. This module holds the bytes that the grammars of the library name, the classes of
ASCII bytes, and numbers in decimal and hexadecimal digits:

* `splitOn`: the pieces of a text between separators;
* `decimal`, `decimalInt`, `hex2`: numbers written in digits;
* `digits?`, `unsigned?`: digits read back as a number.
-/

namespace PhpLiteral

/-- A sequence of bytes, read as UTF-8 where it is text. -/
abbrev Text := List UInt8

/-- The UTF-8 bytes of a string. -/
def utf8 (s : String) : Text := s.toByteArray.data.toList

namespace Ascii

@[match_pattern] abbrev nul : UInt8 := 0x00
@[match_pattern] abbrev tab : UInt8 := 0x09
@[match_pattern] abbrev lineFeed : UInt8 := 0x0a
@[match_pattern] abbrev carriageReturn : UInt8 := 0x0d
@[match_pattern] abbrev space : UInt8 := 0x20
@[match_pattern] abbrev doubleQuote : UInt8 := 0x22
@[match_pattern] abbrev hash : UInt8 := 0x23
@[match_pattern] abbrev dollar : UInt8 := 0x24
@[match_pattern] abbrev quote : UInt8 := 0x27
@[match_pattern] abbrev star : UInt8 := 0x2a
@[match_pattern] abbrev plus : UInt8 := 0x2b
@[match_pattern] abbrev comma : UInt8 := 0x2c
@[match_pattern] abbrev minus : UInt8 := 0x2d
@[match_pattern] abbrev dot : UInt8 := 0x2e
@[match_pattern] abbrev slash : UInt8 := 0x2f
@[match_pattern] abbrev zero : UInt8 := 0x30
@[match_pattern] abbrev colon : UInt8 := 0x3a
@[match_pattern] abbrev equals : UInt8 := 0x3d
@[match_pattern] abbrev greater : UInt8 := 0x3e
@[match_pattern] abbrev question : UInt8 := 0x3f
@[match_pattern] abbrev openBracket : UInt8 := 0x5b
@[match_pattern] abbrev backslash : UInt8 := 0x5c
@[match_pattern] abbrev closeBracket : UInt8 := 0x5d
@[match_pattern] abbrev underscore : UInt8 := 0x5f
@[match_pattern] abbrev openBrace : UInt8 := 0x7b
@[match_pattern] abbrev closeBrace : UInt8 := 0x7d
@[match_pattern] abbrev delete : UInt8 := 0x7f

/-- One of `0` to `9`. -/
def isDigit (b : UInt8) : Bool := 0x30 ≤ b && b ≤ 0x39

/-- One of `A` to `Z` or `a` to `z`. -/
def isLetter (b : UInt8) : Bool := 0x41 ≤ b && b ≤ 0x5a || 0x61 ≤ b && b ≤ 0x7a

/-- A carriage return or a line feed. -/
def isBreak (b : UInt8) : Bool := b == carriageReturn || b == lineFeed

/-- The byte with a capital letter made small. -/
def toLower (b : UInt8) : UInt8 := if 0x41 ≤ b && b ≤ 0x5a then b + 0x20 else b

/-- The value of a hexadecimal digit of either case. -/
def hexValue? (b : UInt8) : Option Nat :=
  if isDigit b then some (b.toNat - 0x30)
  else if 0x61 ≤ b && b ≤ 0x66 then some (b.toNat - 0x57)
  else if 0x41 ≤ b && b ≤ 0x46 then some (b.toNat - 0x37)
  else none

end Ascii

/-! ## Splitting -/

/-- The pieces of a text between the bytes that equal a separator: the first one, and the others. -/
def splitHead (separator : UInt8) : Text → Text × List Text
  | [] => ([], [])
  | b :: rest =>
    let (first, others) := splitHead separator rest
    if b = separator then ([], first :: others) else (b :: first, others)

/-- The pieces of a text between the bytes that equal a separator. -/
def splitOn (separator : UInt8) (t : Text) : List Text :=
  let (first, others) := splitHead separator t
  first :: others

/-! ## Numbers in digits -/

/-- The decimal digits of a number, without leading zeros. -/
def decimal (n : Nat) : Text := (Nat.toDigits 10 n).map Char.toUInt8

/-- The decimal text of an integer, with a minus sign when it is negative. -/
def decimalInt (i : Int) : Text := if i < 0 then Ascii.minus :: decimal i.natAbs else decimal i.natAbs

/-- The decimal digits of a number, led by zeros up to the given count. -/
def paddedDecimal (count n : Nat) : Text := List.replicate (count - (decimal n).length) Ascii.zero ++ decimal n

/-- The lower-case hexadecimal digits of a number, without leading zeros. -/
def hex (n : Nat) : Text := (Nat.toDigits 16 n).map Char.toUInt8

/-- The two lower-case hexadecimal digits of a byte. -/
def hex2 (b : UInt8) : Text :=
  [(Nat.digitChar (b.toNat / 16)).toUInt8, (Nat.digitChar (b.toNat % 16)).toUInt8]

/-- The number that a sequence of decimal digits continues `n` to, if it holds digits only. -/
def digitsFrom? (n : Nat) : Text → Option Nat
  | [] => some n
  | b :: rest => if Ascii.isDigit b then digitsFrom? (10 * n + (b.toNat - 0x30)) rest else none

/-- The number written by a nonempty sequence of decimal digits; leading zeros count for nothing. -/
def digits? : Text → Option Nat
  | [] => none
  | t => digitsFrom? 0 t

/-- The number written by decimal digits after an optional plus sign. -/
def unsigned? : Text → Option Nat
  | Ascii.plus :: t => digits? t
  | t => digits? t

end PhpLiteral
