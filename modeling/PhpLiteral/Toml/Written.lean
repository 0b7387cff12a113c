import PhpLiteral.Text

/-!
# Strings written as TOML

A string is written in the first of these forms that can hold it without escapes other than that of a tab: double
quotes, single quotes, three double quotes, three single quotes. If none can, it is written in double quotes, three
of them if it has line feeds, with all escapes that it needs.
-/

namespace PhpLiteral.Toml

/-- The length of the longest run of a byte in a text. -/
def longestRun (b : UInt8) (t : Text) : Nat :=
  (t.foldl (fun (longest, run) c => if c = b then (max longest (run + 1), run + 1) else (longest, 0)) (0, 0)).1

/-- A control character other than tab and line feed, which stands in a string only as an escape. -/
def needsEscape (b : UInt8) : Bool := b < 0x20 && b != Ascii.tab && b != Ascii.lineFeed || b = Ascii.delete

/-- A byte other than a double quote as it stands in double quotes. -/
def escapedByte (b : UInt8) : Text :=
  if b = 0x08 then utf8 "\\b"
  else if b = Ascii.tab then utf8 "\\t"
  else if b = Ascii.lineFeed then utf8 "\\n"
  else if b = 0x0c then utf8 "\\f"
  else if b = Ascii.carriageReturn then utf8 "\\r"
  else if b = Ascii.backslash then utf8 "\\\\"
  else if b < 0x20 ∨ b = Ascii.delete then utf8 "\\u00" ++ (hex2 b).map fun d => if 0x61 ≤ d then d - 0x20 else d
  else [b]

/-- The content of double quotes. In long ones a line feed stands as it is, and of quotes in a row, of which `run`
have come before, every third one is escaped. -/
def escapedBody (isLong : Bool) (run : Nat) : Text → Text
  | [] => []
  | b :: rest =>
    if b = Ascii.doubleQuote then
      if isLong && run < 2 then b :: escapedBody isLong (run + 1) rest
      else Ascii.backslash :: b :: escapedBody isLong 0 rest
    else (if isLong && b = Ascii.lineFeed then [b] else escapedByte b) ++ escapedBody isLong 0 rest

/-- A content between quotes, three of them if long; then a line feed is put first if the text has any. -/
def enclosed (quote : UInt8) (isLong : Bool) (t content : Text) : Text :=
  let delimiter := List.replicate (if isLong then 3 else 1) quote
  delimiter ++ (if isLong && t.contains Ascii.lineFeed then [Ascii.lineFeed] else []) ++ content ++ delimiter

/-- A string in double quotes. -/
def basicString (isLong : Bool) (t : Text) : Text := enclosed Ascii.doubleQuote isLong t (escapedBody isLong 0 t)

/-- A string in single quotes, in which there are no escapes. -/
def literalString (isLong : Bool) (t : Text) : Text := enclosed Ascii.quote isLong t t

/-- A string as TOML. -/
def writtenString (t : Text) : Text :=
  let singles := longestRun Ascii.quote t
  let doubles := longestRun Ascii.doubleQuote t
  let hasLineFeed := t.contains Ascii.lineFeed
  let isPlain := !t.any needsEscape
  let hasBackslash := t.contains Ascii.backslash
  if isPlain && !hasBackslash && doubles = 0 && !hasLineFeed then basicString false t
  else if isPlain && singles = 0 && !hasLineFeed then literalString false t
  else if isPlain && !hasBackslash && doubles ≤ 2 then basicString true t
  else if isPlain && singles ≤ 2 then literalString true t
  else basicString hasLineFeed t

end PhpLiteral.Toml
