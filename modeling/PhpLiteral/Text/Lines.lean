import PhpLiteral.Text

/-!
# Lines

Lines are separated by carriage returns and line feeds. `indentLines` puts an indentation before every line that
is not empty and leaves all else as it is.
-/

namespace PhpLiteral

/-- The text with `lead` before every line that is not empty, `atStart` saying whether a line starts here. -/
def indentFrom (lead : Text) (atStart : Bool) : Text → Text
  | [] => []
  | b :: rest =>
    (if atStart && !Ascii.isBreak b then lead else []) ++ b :: indentFrom lead (Ascii.isBreak b) rest

/-- The text with `levels` copies of `unit` before every line that is not empty. -/
def indentLines (t : Text) (levels : Nat) (unit : Text) : Text :=
  indentFrom (List.replicate levels unit).flatten true t

/-- Whether a text has a line feed, so that it stands on more than one line of code. -/
def hasLineFeed (t : Text) : Bool := t.contains Ascii.lineFeed

end PhpLiteral
