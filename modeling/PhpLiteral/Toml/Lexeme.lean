import PhpLiteral.Text.Utf8

/-!
# TOML lexemes

A TOML text is a sequence of lexemes: blanks, line ends, comments, punctuation, strings, and words, which are what
bare keys and the values that are no strings consist of. `Toml.lexemes?` splits a text into them; it fails at a
string that does not end, an unknown escape, or a control character.
-/

namespace PhpLiteral.Toml

/-- A piece of a TOML text. -/
inductive Lexeme
  /-- Spaces and tabs. -/
  | blank (t : Text)
  | lineEnd
  | comment
  | dot
  | equals
  | comma
  | openBracket
  | closeBracket
  | openBrace
  | closeBrace
  | string (t : Text)
  /-- A string in triple quotes, which can be no key. -/
  | longString (t : Text)
  | word (t : Text)
  deriving DecidableEq, Repr

/-- A control character that stands in no string and no comment. -/
def isControl (b : UInt8) : Bool := b < 0x20 && b != Ascii.tab || b = Ascii.delete

def isBlank (b : UInt8) : Bool := b = Ascii.space || b = Ascii.tab

/-- The width of the line end that a text starts with, and 0 if it starts with none. -/
def lineEndWidth : Text → Nat
  | Ascii.lineFeed :: _ => 1
  | Ascii.carriageReturn :: Ascii.lineFeed :: _ => 2
  | _ => 0

/-! ## Strings -/

/-- The number that hexadecimal digits write. -/
def hexNat? (t : Text) : Option Nat :=
  t.foldlM (fun n b => (Ascii.hexValue? b).map fun d => 16 * n + d) 0

/-- The character that exactly `count` hexadecimal digits behind an escape letter name. -/
def codePoint? (count : Nat) (t : Text) : Option (Text × Nat) := do
  let c ← if t.length < count then none else hexNat? (t.take count)
  if c < 0xd800 ∨ 0xdfff < c ∧ c ≤ 0x10ffff then some (Utf8.encode c, count + 1) else none

/-- What the escape behind a backslash stands for, and how many bytes write it. -/
def escape? : Text → Option (Text × Nat)
  | [] => none
  | b :: rest =>
    if b = Ascii.doubleQuote ∨ b = Ascii.backslash then some ([b], 1)
    else if b = 0x62 then some ([0x08], 1)
    else if b = 0x65 then some ([0x1b], 1)
    else if b = 0x66 then some ([0x0c], 1)
    else if b = 0x6e then some ([0x0a], 1)
    else if b = 0x72 then some ([0x0d], 1)
    else if b = 0x74 then some ([0x09], 1)
    else if b = 0x78 then codePoint? 2 rest
    else if b = 0x75 then codePoint? 4 rest
    else if b = 0x55 then codePoint? 8 rest
    else none

/-- The width of the white space behind a backslash at the end of a line: it goes on up to the next character that
is none. None if something else follows on the line. -/
def continuation? (t : Text) : Option Nat :=
  if lineEndWidth (t.dropWhile isBlank) = 0 then none
  else some (t.takeWhile fun b => isBlank b || Ascii.isBreak b).length

/-- The content of a string up to its closing quote, which starts behind the next `skip` bytes, and its width with
that quote. Escapes stand for other bytes if there are any. -/
def shortBody? (quote : UInt8) (hasEscapes : Bool) : (skip : Nat) → Text → Option (Text × Nat)
  | _, [] => none
  | skip + 1, _ :: rest => (shortBody? quote hasEscapes skip rest).map fun (t, width) => (t, width + 1)
  | 0, b :: rest =>
    if b = quote then some ([], 1)
    else if isControl b then none
    else if hasEscapes && b = Ascii.backslash then do
      let (piece, extra) ← escape? rest
      let (t, width) ← shortBody? quote hasEscapes extra rest
      return (piece ++ t, width + 1)
    else (shortBody? quote hasEscapes 0 rest).map fun (t, width) => (b :: t, width + 1)

/-- The same for a string in triple quotes, in which line ends may stand. Of up to five quotes at its end the last
three close it. -/
def longBody? (quote : UInt8) (hasEscapes : Bool) : (skip : Nat) → Text → Option (Text × Nat)
  | _, [] => none
  | skip + 1, _ :: rest => (longBody? quote hasEscapes skip rest).map fun (t, width) => (t, width + 1)
  | 0, b :: rest =>
    let quotes := ((b :: rest).takeWhile (· == quote)).length
    if 3 ≤ quotes then
      let inner := min (quotes - 3) 2
      some (List.replicate inner quote, inner + 3)
    else if lineEndWidth (b :: rest) = 0 && isControl b then none
    else if hasEscapes && b = Ascii.backslash then do
      let (piece, extra) ← match continuation? rest with
        | some width => some ([], width)
        | none => escape? rest
      let (t, width) ← longBody? quote hasEscapes extra rest
      return (piece ++ t, width + 1)
    else if lineEndWidth (b :: rest) = 2 then
      (longBody? quote hasEscapes 1 rest).map fun (t, width) => (b :: Ascii.lineFeed :: t, width + 1)
    else (longBody? quote hasEscapes 0 rest).map fun (t, width) => (b :: t, width + 1)

/-- The string lexeme behind its first quote, and its width with that quote. A line end right behind an opening
triple quote does not belong to the string. -/
def string? (quote : UInt8) (hasEscapes : Bool) (t : Text) : Option (Lexeme × Nat) :=
  if [quote, quote].isPrefixOf t then
    let start := t.drop 2
    (longBody? quote hasEscapes 0 (start.drop (lineEndWidth start))).map fun (content, width) =>
      (.longString content, 3 + lineEndWidth start + width)
  else (shortBody? quote hasEscapes 0 t).map fun (content, width) => (.string content, width + 1)

/-! ## Splitting -/

/-- A byte of a word: none of the bytes that start other lexemes. -/
def isWordByte (b : UInt8) : Bool :=
  !([Ascii.dot, Ascii.equals, Ascii.comma, Ascii.openBracket, Ascii.closeBracket, Ascii.openBrace, Ascii.closeBrace,
    Ascii.space, Ascii.tab, Ascii.carriageReturn, Ascii.lineFeed, Ascii.hash, Ascii.quote,
    Ascii.doubleQuote].contains b)

/-- The comment that a text starts with, up to the end of the line, and its width. -/
def comment? (t : Text) : Option (Lexeme × Nat) :=
  let line := t.takeWhile (· != Ascii.lineFeed)
  let content := if line.length < t.length && line.getLast? = some Ascii.carriageReturn then line.dropLast else line
  if content.any isControl then none else some (.comment, content.length)

/-- The lexeme that a text starts with, and its width in bytes. -/
def lexeme? : Text → Option (Lexeme × Nat)
  | [] => none
  | b :: rest =>
    if isBlank b then
      let t := (b :: rest).takeWhile isBlank
      some (.blank t, t.length)
    else if b = Ascii.dot then some (.dot, 1)
    else if b = Ascii.equals then some (.equals, 1)
    else if b = Ascii.comma then some (.comma, 1)
    else if b = Ascii.openBracket then some (.openBracket, 1)
    else if b = Ascii.closeBracket then some (.closeBracket, 1)
    else if b = Ascii.openBrace then some (.openBrace, 1)
    else if b = Ascii.closeBrace then some (.closeBrace, 1)
    else if b = Ascii.hash then comment? (b :: rest)
    else if b = Ascii.quote then string? b false rest
    else if b = Ascii.doubleQuote then string? b true rest
    else if Ascii.isBreak b then
      match lineEndWidth (b :: rest) with
      | 0 => none
      | width => some (.lineEnd, width)
    else
      let t := (b :: rest).takeWhile isWordByte
      some (.word t, t.length)

/-- The lexemes of what follows the next `skip` bytes of a text. -/
def lexemesFrom? : (skip : Nat) → Text → Option (List Lexeme)
  | _, [] => some []
  | skip + 1, _ :: rest => lexemesFrom? skip rest
  | 0, b :: rest =>
    match lexeme? (b :: rest) with
    | some (lexeme, width) => (lexemesFrom? (width - 1) rest).map (lexeme :: ·)
    | none => none

/-- The lexemes of a text; a byte order mark before it is none. -/
def lexemes? : Text → Option (List Lexeme)
  | 0xef :: 0xbb :: 0xbf :: t => lexemesFrom? 0 t
  | t => lexemesFrom? 0 t

end PhpLiteral.Toml
