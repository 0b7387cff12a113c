import PhpLiteral.Text.Utf8

/-!
# String literals

PHP literals of byte strings. A string of printable characters is written in single quotes, where only quotes and
some backslashes are escaped. Any other string (control characters, bytes that are no UTF-8) is written in double
quotes and in printable ASCII only, with every other byte as a hexadecimal escape.
-/

namespace PhpLiteral

/-- A tab, a printable ASCII character or a character from `U+00A0` on. -/
def isPrintable (c : Nat) : Bool := c = 0x09 || 0x20 ≤ c && c ≤ 0x7e || 0xa0 ≤ c

/-- Whether a byte string is UTF-8 of printable characters. -/
def isPrintableText (bytes : Text) : Bool :=
  (Utf8.decode bytes).all fun c => match c with
    | some c => isPrintable c
    | none => false

/-- Whether a backslash has to be escaped in single quotes: before a quote, a backslash or the end. -/
def escapesBackslash : Text → Bool
  | [] => true
  | b :: _ => b = Ascii.quote || b = Ascii.backslash

/-- The content of a single-quoted literal. -/
def singleQuotedBody : Text → Text
  | [] => []
  | b :: rest =>
    if b = Ascii.quote ∨ b = Ascii.backslash ∧ escapesBackslash rest then
      Ascii.backslash :: b :: singleQuotedBody rest
    else b :: singleQuotedBody rest

/-- A byte as it stands in a double-quoted literal. -/
def doubleQuotedByte (b : UInt8) : Text :=
  if b = Ascii.backslash ∨ b = Ascii.dollar ∨ b = Ascii.doubleQuote then [Ascii.backslash, b]
  else if b = Ascii.carriageReturn then utf8 "\\r"
  else if b = Ascii.lineFeed then utf8 "\\n"
  else if b = Ascii.tab then utf8 "\\t"
  else if b < 0x20 ∨ 0x7f ≤ b then utf8 "\\x" ++ hex2 b
  else [b]

/-- The literal of a byte string. -/
def stringLiteral (bytes : Text) : Text :=
  if isPrintableText bytes then
    Ascii.quote :: singleQuotedBody bytes ++ [Ascii.quote]
  else
    Ascii.doubleQuote :: bytes.flatMap doubleQuotedByte ++ [Ascii.doubleQuote]

end PhpLiteral
