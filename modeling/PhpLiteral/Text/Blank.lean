import PhpLiteral.Text

/-!
# White space

The characters with Unicode's `White_Space` property, as the byte sequences that encode them, and the removal of
such characters from the ends of a text: `trimStart`, `trimEnd` and `trim`.
-/

namespace PhpLiteral

/-- The encodings of the characters with the `White_Space` property. -/
def blanks : List Text :=
  [[0x09], [0x0a], [0x0b], [0x0c], [0x0d], [0x20], [0xc2, 0x85], [0xc2, 0xa0], [0xe1, 0x9a, 0x80],
    [0xe2, 0x80, 0x80], [0xe2, 0x80, 0x81], [0xe2, 0x80, 0x82], [0xe2, 0x80, 0x83], [0xe2, 0x80, 0x84],
    [0xe2, 0x80, 0x85], [0xe2, 0x80, 0x86], [0xe2, 0x80, 0x87], [0xe2, 0x80, 0x88], [0xe2, 0x80, 0x89],
    [0xe2, 0x80, 0x8a], [0xe2, 0x80, 0xa8], [0xe2, 0x80, 0xa9], [0xe2, 0x80, 0xaf], [0xe2, 0x81, 0x9f],
    [0xe3, 0x80, 0x80]]

/-- The length of the first of the given sequences that a text starts with, and 0 if it starts with none. -/
def leadingWidth (sequences : List Text) (t : Text) : Nat :=
  match sequences.find? (·.isPrefixOf t) with
  | some s => s.length
  | none => 0

/-- The text after `skip` bytes and after all given sequences that follow them. -/
def dropLeading (sequences : List Text) : Nat → Text → Text
  | _, [] => []
  | skip + 1, _ :: rest => dropLeading sequences skip rest
  | 0, b :: rest =>
    match leadingWidth sequences (b :: rest) with
    | 0 => b :: rest
    | width + 1 => dropLeading sequences width rest

/-- The text without the white space that it starts with. -/
def trimStart (t : Text) : Text := dropLeading blanks 0 t

/-- The text without the white space that it ends with. -/
def trimEnd (t : Text) : Text := (dropLeading (blanks.map List.reverse) 0 t.reverse).reverse

/-- The text without the white space around it. -/
def trim (t : Text) : Text := trimEnd (trimStart t)

end PhpLiteral
