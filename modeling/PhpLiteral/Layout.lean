import PhpLiteral.Heap
import PhpLiteral.Identifier
import PhpLiteral.Settings
import PhpLiteral.Template
import PhpLiteral.Text.Blank
import PhpLiteral.Text.Lines

/-!
# Pieces of layout

What is written around the values in an array, an object, a list of arguments or a template, and how much room it
takes.

* `entryLabels`: what is written before the values in an array, which is nothing where PHP implies the key;
* `placeCode`: raw code in its place;
* `columnAfter`: the column behind a text;
* `Settings.keepsArray`, `Settings.keepsArguments`: whether entries stay on one line.
-/

namespace PhpLiteral

/-! ## Keys -/

/-- Whether keys are the integers from one on, each one greater than the one before. -/
def isRun : Int → List Key → Bool
  | _, [] => true
  | i, .int k :: rest => k.toInt = i && isRun (i + 1) rest
  | _, .str _ :: _ => false

/-- Whether keys are consecutive integers. -/
def isConsecutive : List Key → Bool
  | .int k :: rest => isRun (k.toInt + 1) rest
  | _ => false

/-- How PHP numbers the next entry: whether implied keys are left out, and the index it gives without a key. -/
structure Numbering where
  implied : Bool
  next : Int64
  deriving DecidableEq, Repr

namespace Numbering

/-- The numbering before the first entry of an array with these keys. -/
def ofKeys (keys : List Key) : Numbering := ⟨isConsecutive keys, 0⟩

/-- The numbering after an entry with a key. -/
def after (n : Numbering) : Key → Numbering
  | .int i => ⟨n.implied, if n.next ≤ nextInt64 i then nextInt64 i else n.next⟩
  | .str _ => n

/-- The literal of a key. -/
def keyLiteral : Key → Text
  | .int i => intLiteral i
  | .str name => stringLiteral name

/-- What stands before the value of an entry: nothing if the key is implied, else the key and an arrow. -/
def keyPart (n : Numbering) (key : Key) : Text :=
  if n.implied ∧ key = .int n.next then [] else keyLiteral key ++ utf8 " => "

/-- What stands before the value of each entry. -/
def keyParts (n : Numbering) : List Key → List Text
  | [] => []
  | key :: keys => n.keyPart key :: (n.after key).keyParts keys

end Numbering

/-- What stands before the value of each entry of an array with these keys. -/
def entryLabels (keys : List Key) : List Text := (Numbering.ofKeys keys).keyParts keys

theorem Numbering.length_keyParts (n : Numbering) (keys : List Key) : (n.keyParts keys).length = keys.length := by
  induction keys generalizing n with
  | nil => rfl
  | cons key keys ih => simp [keyParts, ih]

@[simp] theorem length_entryLabels (keys : List Key) : (entryLabels keys).length = keys.length :=
  Numbering.length_keyParts _ keys

/-! ## Pieces of text -/

/-- What separates entries on one line; `offset` counts the bytes written before. -/
def separator (offset : Nat) : Text := if offset = 0 then [] else utf8 ", "

/-- Code in its place: trimmed, and its lines after the first indented to a level. -/
def placeCode (s : Settings) (level : Nat) (code : Text) : Text :=
  (indentLines (trim code) level s.indent.unit).dropWhile (s.indent.unit.contains ·)

/-- The column behind a text that starts at a column. Behind a line feed it is one more than the number of bytes
on the last line. -/
def columnAfter (column : Nat) (t : Text) : Nat :=
  if hasLineFeed t then (t.reverse.takeWhile (· != Ascii.lineFeed)).length + 1 else column + t.length

/-- How entries are put on lines of their own: what stands before and after each, and whether the label of a value
counts for its column. -/
structure LineStyle where
  before : Text
  after : Text
  counted : Bool

/-- The room that a label takes in front of its value. -/
def labelRoom (counted : Bool) (label : Text) : Nat := if counted then label.length else 0

/-! ## Arrays -/

/-- Room for the brackets and the separator after an array. -/
def bracketRoom : Nat := 3

/-- What an array with these entries on one line needs of this line. -/
def Settings.arrayBudget (s : Settings) (level column : Nat) (inline : Text) : Nat :=
  level * s.indent.width + column + inline.length + bracketRoom

/-- Whether an array with these entries on one line stays on this line. -/
def Settings.keepsArray (s : Settings) (level column : Nat) (inline : Text) : Bool :=
  !hasLineFeed inline && s.fits (s.arrayBudget level column inline)

/-- An array with its entries on one line. -/
def inlineArray (inline : Text) : Text := utf8 "[" ++ inline ++ utf8 "]"

/-- Entries of an array on lines of their own. -/
def arrayLines (s : Settings) (level : Nat) : LineStyle where
  before := s.indent.unit
  after := utf8 ",\n" ++ s.indent.levels level
  counted := true

/-- An array with its entries on lines of their own. -/
def linesArray (s : Settings) (level : Nat) (lines : Text) : Text :=
  utf8 "[\n" ++ s.indent.levels level ++ lines ++ utf8 "]"

/-! ## Objects -/

/-- What stands before the value of a property. -/
def propertyLabel (name : Text) : Text := stringLiteral name ++ utf8 " => "

/-- What stands before the properties of an object. -/
def objectHead (s : Settings) (className : Text) : Text :=
  if className = stdClass then utf8 "(object) [" else s.factory ++ utf8 "('" ++ className ++ utf8 "', ["

/-- What stands behind the properties of an object. -/
def objectTail (className : Text) : Text := if className = stdClass then utf8 "]" else utf8 "])"

/-- Properties of an object on lines of their own. -/
def objectLines (s : Settings) (level : Nat) : LineStyle where
  before := s.indent.levels level ++ s.indent.unit
  after := utf8 ",\n"
  counted := true

/-- An object with its properties on lines of their own. -/
def objectText (s : Settings) (level : Nat) (className lines : Text) : Text :=
  objectHead s className ++ utf8 "\n" ++ lines ++ s.indent.levels level ++ objectTail className

/-! ## Places of templates -/

/-- The name before a named argument. -/
def argumentLabel (named : Bool) : Key → Text
  | .str name => if named then name ++ utf8 ": " else []
  | .int _ => []

/-- Arguments on lines of their own. -/
def argumentLines (s : Settings) : LineStyle where
  before := utf8 "\n" ++ s.indent.unit
  after := utf8 ","
  counted := false

/-- Whether arguments on one line stay on this line. Fewer than two are never put on lines of their own, however
narrow the place. -/
def Settings.keepsArguments (s : Settings) (column count : Nat) (inline : Text) : Bool :=
  count ≤ 1 || (!hasLineFeed inline && s.fits (column + inline.length))

/-- The name by which a member can be named without braces: a text that is an identifier. -/
def memberName? : Value → Option Text
  | .atom (.string name) => if Utf8.isValid name && isIdentifier name then some name else none
  | _ => none

theorem eq_of_memberName? {v : Value} {name : Text} (h : memberName? v = some name) : v = .atom (.string name) := by
  unfold memberName? at h
  split at h
  · split at h
    · cases h; rfl
    · cases h
  · cases h

/-- A member named by an expression. -/
def bracedMember (connective : Connective) (text : Text) : Text :=
  connective.text ++ (utf8 "\x7b" ++ text ++ utf8 "\x7d")

end PhpLiteral
