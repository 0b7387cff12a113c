import PhpLiteral.Text
import PhpLiteral.Text.Blank

/-!
# Indentation units

One level of indentation is a tab or 1 to 8 spaces. `Indent.parse` reads the names under which a unit is chosen;
`Indent.unit` and `Indent.width` are its text and the number of columns that it counts for in a line.
-/

namespace PhpLiteral

/-- What one level of indentation is written as. -/
inductive Indent
  | spaces (count : Nat)
  | tab
  deriving DecidableEq, Repr

/-- Why a text or a number names no unit of indentation. -/
inductive IndentError
  /-- The text is neither `tab` nor a number of one byte. -/
  | unknownName (given : Text)
  /-- The number of spaces is not from 1 to 8. -/
  | badCount (count : Nat)
  deriving DecidableEq, Repr

/-- The message for the user. -/
def IndentError.message : IndentError → Text
  | .unknownName given => utf8 "invalid indentation '" ++ given ++ utf8 "': expected 'tab' or 1-8"
  | .badCount count => utf8 "invalid indentation width " ++ decimal count ++ utf8 ": expected 1 to 8 spaces"

namespace Indent

/-- A number of spaces that can be chosen. -/
def isCount (count : Nat) : Bool := 1 ≤ count && count ≤ 8

/-- The text of one level; a number of spaces that cannot be chosen stands for four. -/
def unit : Indent → Text
  | spaces count => List.replicate (if isCount count then count else 4) Ascii.space
  | tab => [Ascii.tab]

/-- The columns that one level counts for: a tab counts for four. -/
def width : Indent → Nat
  | spaces count => (spaces count).unit.length
  | tab => 4

/-- The text of a number of levels. -/
def levels (i : Indent) (n : Nat) : Text := (List.replicate n i.unit).flatten

/-- The name of a unit: `tab` or the number of spaces. -/
def name : Indent → Text
  | spaces count => decimal count
  | tab => utf8 "tab"

/-- The unit of a number of spaces. -/
def ofCount (count : Nat) : Except IndentError Indent :=
  if isCount count then .ok (spaces count) else .error (.badCount count)

/-- The unit that a text names, white space around it aside. The tab character is no name, as it is white space. -/
def parse (t : Text) : Except IndentError Indent :=
  let name := trim t
  if name = utf8 "tab" ∨ name = utf8 "tabs" ∨ name = [Ascii.tab] then .ok tab
  else
    match unsigned? name with
    | some count => if count < 256 then ofCount count else .error (.unknownName t)
    | none => .error (.unknownName t)

end Indent

end PhpLiteral
