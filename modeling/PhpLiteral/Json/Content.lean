import PhpLiteral.Document

/-!
# JSON contents

What a JSON text holds (`Json.Content`), and the document that is made of it (`Json.Content.document`). A number is an
integer of 64 bits, without sign if it is not below zero, or a double. As a document, it is an integer if it has 64 bits
with sign, and else the nearest double.
-/

namespace PhpLiteral.Json

/-- A number that a JSON text holds. -/
inductive Number
  /-- An integer that is not below zero. -/
  | natural (n : UInt64)
  /-- An integer below zero. -/
  | negative (i : Int64)
  | float (x : Binary64)
  deriving DecidableEq, Repr

namespace Number

/-- The number as an integer of 64 bits with sign, if it is one. -/
def int? : Number → Option Int64
  | natural n => int64? n.toNat
  | negative i => some i
  | float _ => none

/-- The number as a double. -/
def toFloat : Number → Binary64
  | natural n => .ofMagnitude false (Binary64.nearest n.toNat 1)
  | negative i => .ofMagnitude true (Binary64.nearest i.toInt.natAbs 1)
  | float x => x

/-- The document of a number. -/
def document (n : Number) : Document :=
  match n.int? with
  | some i => .int i
  | none => .float n.toFloat

end Number

/-- What a JSON text holds. -/
inductive Content
  | null
  | bool (b : Bool)
  | number (n : Number)
  | text (t : Text)
  | list (items : List Content)
  | table (members : List (Text × Content))

mutual

/-- The document of a content. -/
def Content.document : Content → Document
  | .null => .null
  | .bool b => .bool b
  | .number n => n.document
  | .text t => .text t
  | .list items => .list (documents items)
  | .table members => .table (memberDocuments members)

/-- The documents of the items of a list. -/
def documents : List Content → List Document
  | [] => []
  | item :: rest => item.document :: documents rest

/-- The documents of the members of a table. -/
def memberDocuments : List (Text × Content) → List (Text × Document)
  | [] => []
  | (name, member) :: rest => (name, member.document) :: memberDocuments rest

end

end PhpLiteral.Json
