import PhpLiteral.Heap

/-!
# Documents

A document is what a JSON or TOML text holds: scalars, lists, and tables of named members in order. It becomes a
value (`Document.store`) by turning every list and table into a new array; the names of a table become keys as
PHP takes them, so that `"1"` becomes the integer key 1.
-/

namespace PhpLiteral

/-- What a text of data holds. -/
inductive Document
  | null
  | bool (b : Bool)
  | int (i : Int64)
  | float (x : Binary64)
  | text (t : Text)
  | dateTime (d : DateTime)
  | list (items : List Document)
  | table (members : List (Text × Document))

mutual

/-- The value of a document, and the heap with the arrays made for it. -/
def Document.store (heap : Heap) : Document → Value × Heap
  | .null => (.atom .null, heap)
  | .bool b => (.atom (.bool b), heap)
  | .int i => (.atom (.int i), heap)
  | .float x => (.atom (.float x), heap)
  | .text t => (.atom (.string t), heap)
  | .dateTime d => (.atom (.dateTime d), heap)
  | .list items =>
    let (values, heap) := storeItems heap items
    heap.newArray (.ofList values)
  | .table members =>
    let (entries, heap) := storeMembers heap members
    heap.newArray (.ofEntries entries)

/-- The values of the items of a list. -/
def storeItems (heap : Heap) : List Document → List Value × Heap
  | [] => ([], heap)
  | item :: rest =>
    let (value, heap) := item.store heap
    let (values, heap) := storeItems heap rest
    (value :: values, heap)

/-- The entries of the members of a table. -/
def storeMembers (heap : Heap) : List (Text × Document) → List (Key × Value) × Heap
  | [] => ([], heap)
  | (name, member) :: rest =>
    let (value, heap) := member.store heap
    let (entries, heap) := storeMembers heap rest
    ((.ofText name, value) :: entries, heap)

end

end PhpLiteral
