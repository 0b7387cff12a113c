import PhpLiteral.Indent

/-!
# Settings

How values are written: how deep they may be nested, how wide a line may be, what a level of indentation is, and
the function that rebuilds objects.
-/

namespace PhpLiteral

/-- The settings for writing values. -/
structure Settings where
  /-- The greatest depth at which an array or object may stand; the outermost one stands at depth 0. -/
  maxDepth : Nat := 50
  /-- The width up to which an array or a list of arguments stays on one line. -/
  wrapLength : Nat := 120
  indent : Indent := .tab
  /-- The function that is called with a class name and properties to rebuild an object. -/
  factory : Text := utf8 "\\Nette\\PhpGenerator\\Dumper::createObject"
  deriving DecidableEq, Repr

/-- Whether a width stays within the line. -/
def Settings.fits (s : Settings) (width : Nat) : Bool := width ≤ s.wrapLength

end PhpLiteral
