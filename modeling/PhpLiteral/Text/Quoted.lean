import PhpLiteral.Text.Invisible
import PhpLiteral.Text.Utf8

/-!
# Quoted text

A text between double quotes for the eyes of a reader: `quoted` escapes the quote, the backslash and all
characters that do not show, and puts `U+FFFD` for every piece that is no UTF-8.
-/

namespace PhpLiteral

/-- A character as it stands between double quotes. -/
def quotedChar (c : Nat) : Text :=
  if c = 0x22 then utf8 "\\\""
  else if c = 0x5c then utf8 "\\\\"
  else if c = 0x0a then utf8 "\\n"
  else if c = 0x0d then utf8 "\\r"
  else if c = 0x09 then utf8 "\\t"
  else if c = 0 then utf8 "\\0"
  else if isInvisible c then utf8 "\\u\x7b" ++ hex c ++ utf8 "\x7d"
  else Utf8.encode c

/-- A text between double quotes. -/
def quoted (t : Text) : Text :=
  utf8 "\"" ++ (Utf8.decode t).flatMap (fun c => quotedChar (c.getD Utf8.replacement)) ++ utf8 "\""

end PhpLiteral
