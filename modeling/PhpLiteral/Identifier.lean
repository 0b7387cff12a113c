import PhpLiteral.Text

/-!
# Identifiers

A PHP identifier starts with a letter, an underscore or a byte from `0x7f` on, and goes on with any number of
those and of digits.
-/

namespace PhpLiteral

namespace Identifier

/-- A byte that may start an identifier. -/
def isStart (b : UInt8) : Bool := Ascii.isLetter b || b == Ascii.underscore || 0x7f ≤ b

/-- A byte that may stand inside an identifier. -/
def isPart (b : UInt8) : Bool := isStart b || Ascii.isDigit b

end Identifier

/-- Whether a text is a PHP identifier. -/
def isIdentifier : Text → Bool
  | [] => false
  | b :: rest => Identifier.isStart b && rest.all Identifier.isPart

end PhpLiteral
