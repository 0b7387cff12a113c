import PhpLiteral.Json.Number
import PhpLiteral.Text.Utf8

/-!
# JSON

A strict reader of JSON texts. A text is split into lexemes (`Json.lexemes?`), and a machine with a stack of open
lists and tables takes them one by one (`Json.step`). Lists and tables are nested 127 deep at most; a name that
a table repeats keeps its first place and takes its last value.
-/

namespace PhpLiteral.Json

/-! ## Lexemes -/

/-- A piece of a JSON text. -/
inductive Lexeme
  | openList
  | closeList
  | openTable
  | closeTable
  | comma
  | colon
  | string (t : Text)
  /-- A value that is neither a string nor a list nor a table. -/
  | scalar (c : Content)

/-- The number of four hexadecimal digits. -/
def hex4? : Text → Option Nat
  | [a, b, c, d] => do
    let a ← Ascii.hexValue? a
    let b ← Ascii.hexValue? b
    let c ← Ascii.hexValue? c
    let d ← Ascii.hexValue? d
    return ((a * 16 + b) * 16 + c) * 16 + d
  | _ => none

/-- The character that the digits behind `\u` stand for, and how many bytes write it. A surrogate stands only in a
pair of escapes. -/
def unicodeEscape? (t : Text) : Option (Nat × Nat) := do
  let high ← hex4? (t.take 4)
  if high < 0xd800 ∨ 0xdfff < high then return (high, 4)
  let rest ← (utf8 "\\u").isPrefixOf? (t.drop 4)
  let low ← hex4? (rest.take 4)
  if high < 0xdc00 ∧ 0xdc00 ≤ low ∧ low < 0xe000 then
    return (0x10000 + (high - 0xd800) * 0x400 + (low - 0xdc00), 10)
  else none

/-- What the escape behind a backslash stands for, and how many bytes write it. -/
def escape? : Text → Option (Text × Nat)
  | [] => none
  | b :: rest =>
    if b = 0x22 ∨ b = 0x5c ∨ b = 0x2f then some ([b], 1)
    else if b = 0x62 then some ([0x08], 1)
    else if b = 0x66 then some ([0x0c], 1)
    else if b = 0x6e then some ([0x0a], 1)
    else if b = 0x72 then some ([0x0d], 1)
    else if b = 0x74 then some ([0x09], 1)
    else if b = 0x75 then (unicodeEscape? rest).map fun (c, width) => (Utf8.encode c, width + 1)
    else none

/-- The string that goes on behind the next `skip` bytes, and the number of bytes up to its closing quote and with
it. A control character stands in it only as an escape. -/
def stringBody? : (skip : Nat) → Text → Option (Text × Nat)
  | _, [] => none
  | skip + 1, _ :: rest => (stringBody? skip rest).map fun (t, width) => (t, width + 1)
  | 0, b :: rest =>
    if b = Ascii.doubleQuote then some ([], 1)
    else if b = Ascii.backslash then do
      let (piece, extra) ← escape? rest
      let (t, width) ← stringBody? extra rest
      return (piece ++ t, width + 1)
    else if b < 0x20 then none
    else (stringBody? 0 rest).map fun (t, width) => (b :: t, width + 1)

/-- A byte of which numbers consist. -/
def isNumberByte (b : UInt8) : Bool :=
  Ascii.isDigit b || b = Ascii.plus || b = Ascii.minus || b = Ascii.dot || b = 0x45 || b = 0x65

/-- The words that are values. -/
def words : List (Text × Content) :=
  [(utf8 "null", .null), (utf8 "true", .bool true), (utf8 "false", .bool false)]

/-- The lexeme that a text starts with, and its width in bytes; white space gives none. -/
def lexeme? : Text → Option (Option Lexeme × Nat)
  | [] => none
  | b :: rest =>
    if b = Ascii.space ∨ b = Ascii.tab ∨ b = Ascii.lineFeed ∨ b = Ascii.carriageReturn then some (none, 1)
    else if b = Ascii.openBracket then some (some .openList, 1)
    else if b = Ascii.closeBracket then some (some .closeList, 1)
    else if b = Ascii.openBrace then some (some .openTable, 1)
    else if b = Ascii.closeBrace then some (some .closeTable, 1)
    else if b = Ascii.comma then some (some .comma, 1)
    else if b = Ascii.colon then some (some .colon, 1)
    else if b = Ascii.doubleQuote then (stringBody? 0 rest).map fun (t, width) => (some (.string t), width + 1)
    else if b = Ascii.minus ∨ Ascii.isDigit b then
      let digits := (b :: rest).takeWhile isNumberByte
      ((Numeral.parse? digits).bind Numeral.number?).map fun n => (some (.scalar (.number n)), digits.length)
    else
      (words.find? fun (word, _) => word.isPrefixOf (b :: rest)).map fun (word, c) =>
        (some (.scalar c), word.length)

/-- The lexemes of what follows the next `skip` bytes of a text. -/
def lexemesFrom? : (skip : Nat) → Text → Option (List Lexeme)
  | _, [] => some []
  | skip + 1, _ :: rest => lexemesFrom? skip rest
  | 0, b :: rest =>
    match lexeme? (b :: rest) with
    | some (some lexeme, width) => (lexemesFrom? (width - 1) rest).map (lexeme :: ·)
    | some (none, width) => lexemesFrom? (width - 1) rest
    | none => none

/-- The lexemes of a text. -/
def lexemes? (t : Text) : Option (List Lexeme) := lexemesFrom? 0 t

/-! ## The machine -/

/-- A list or table that has been opened, with what it holds so far, the last item first. -/
inductive Frame
  | list (items : List Content)
  /-- A table, and the name of the member whose value is to come. -/
  | table (members : List (Text × Content)) (name : Text)

/-- What the machine waits for. -/
inductive State
  /-- A value, or the end of the list that has just been opened if `closable`. -/
  | value (stack : List Frame) (closable : Bool)
  /-- A name in a table, or the end of the table if `closable`. -/
  | name (stack : List Frame) (members : List (Text × Content)) (closable : Bool)
  /-- The colon behind a name. -/
  | colon (stack : List Frame)
  /-- What comes after a value. -/
  | after (stack : List Frame) (c : Content)

/-- The greatest number of lists and tables that enclose each other. -/
def maxNesting : Nat := 127

/-- The state after a lexeme, if the lexeme may stand there. -/
def step : State → Lexeme → Option State
  | .value stack _, .scalar c => some (.after stack c)
  | .value stack _, .string t => some (.after stack (.text t))
  | .value stack _, .openList =>
    if stack.length < maxNesting then some (.value (.list [] :: stack) true) else none
  | .value stack _, .openTable => if stack.length < maxNesting then some (.name stack [] true) else none
  | .value (.list _ :: stack) true, .closeList => some (.after stack (.list []))
  | .name stack members _, .string name => some (.colon (.table members name :: stack))
  | .name stack members true, .closeTable => some (.after stack (.table members))
  | .colon stack, .colon => some (.value stack false)
  | .after (.list items :: stack) c, .comma => some (.value (.list (c :: items) :: stack) false)
  | .after (.list items :: stack) c, .closeList => some (.after stack (.list (c :: items).reverse))
  | .after (.table members name :: stack) c, .comma =>
    some (.name stack (Association.put name c members) false)
  | .after (.table members name :: stack) c, .closeTable =>
    some (.after stack (.table (Association.put name c members)))
  | _, _ => none

/-- The content of a JSON text. -/
def parse? (t : Text) : Option Content := do
  let lexemes ← lexemes? t
  match ← lexemes.foldlM step (.value [] false) with
  | .after [] c => some c
  | _ => none

end PhpLiteral.Json
