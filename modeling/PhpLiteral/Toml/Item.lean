import PhpLiteral.Association
import PhpLiteral.Toml.Moment

/-!
# TOML items

What a TOML text holds (`Toml.Item`), and how statements build it up. A table remembers how it came to be, because
that decides what may still be added to it:

* `Toml.assign`: a value under a dotted key, which may go through tables that dotted keys or headers implied;
* `Toml.within`: a change to the table at a path of headers, which may go through all tables but inline ones;
* `Toml.declareTable`, `Toml.declareRow`: what a header does to the table that holds it.
-/

namespace PhpLiteral.Toml

/-- How a table came to be. -/
inductive TableKind
  /-- By a header of a table inside it. -/
  | implied
  /-- By a dotted key. -/
  | dotted
  /-- By a header of its own. -/
  | declared
  /-- In braces; nothing can be added to it. -/
  | inline
  deriving DecidableEq, Repr

/-- What a TOML text holds. -/
inductive Item
  | bool (b : Bool)
  | int (i : Int)
  | float (x : Binary64)
  | text (t : Text)
  | moment (m : Moment)
  | list (items : List Item)
  | table (kind : TableKind) (members : List (Text × Item))
  /-- The tables of headers in double brackets. -/
  | rows (tables : List (List (Text × Item)))

/-- The members of a table, in order. -/
abbrev Members := List (Text × Item)

/-- The table with an item under a dotted key, if no member stands there. `mayEnd` says whether the last part may
stand in this very table: a table that a header implied is closed to it. -/
def assign (item : Item) : (mayEnd : Bool) → (key : List Text) → Members → Option Members
  | _, [], _ => none
  | mayEnd, [name], members =>
    if mayEnd && (Association.get? name members).isNone then some (members ++ [(name, item)]) else none
  | _, name :: rest, members =>
    match Association.get? name members with
    | none => (assign item true rest []).map fun inner => members ++ [(name, .table .dotted inner)]
    | some (.table .dotted inner) =>
      (assign item true rest inner).map fun inner => Association.put name (.table .dotted inner) members
    | some (.table .implied inner) =>
      (assign item false rest inner).map fun inner => Association.put name (.table .implied inner) members
    | some _ => none

/-- The table with a change to the table at a path of headers. A row stands for its last table. -/
def within (change : Members → Option Members) : (path : List Text) → Members → Option Members
  | [], members => change members
  | name :: rest, members =>
    match Association.get? name members with
    | none => (within change rest []).map fun inner => members ++ [(name, .table .implied inner)]
    | some (.table .inline _) => none
    | some (.table kind inner) =>
      (within change rest inner).map fun inner => Association.put name (.table kind inner) members
    | some (.rows tables) =>
      (within change rest (tables.getLast?.getD [])).map fun inner =>
        Association.put name (.rows (tables.dropLast ++ [inner])) members
    | some _ => none

/-- The members under other names. -/
def without (name : Text) (members : Members) : Members := members.filter fun (n, _) => n != name

/-- The table with a table declared in it under a name. An implied table moves to the end and keeps its members. -/
def declareTable (name : Text) (members : Members) : Option Members :=
  match Association.get? name members with
  | none => some (members ++ [(name, .table .declared [])])
  | some (.table .implied inner) => some (without name members ++ [(name, .table .declared inner)])
  | some _ => none

/-- The table with one more table in the rows under a name. -/
def declareRow (name : Text) (members : Members) : Option Members :=
  match Association.get? name members with
  | none => some (members ++ [(name, .rows [[]])])
  | some (.rows tables) => some (Association.put name (.rows (tables ++ [[]])) members)
  | some _ => none

/-! ## Statements -/

/-- A statement of a TOML text. -/
inductive Statement
  | assignment (key : List Text) (item : Item)
  | table (path : List Text)
  | row (path : List Text)

/-- The root table and the path of the table that assignments go to. -/
structure Builder where
  root : Members
  path : List Text

namespace Builder

/-- The builder before the first statement. -/
def start : Builder := ⟨[], []⟩

/-- The builder after a header with a path. -/
def enter (b : Builder) (declare : Text → Members → Option Members) (path : List Text) : Option Builder := do
  let name ← path.getLast?
  let root ← within (declare name) path.dropLast b.root
  return ⟨root, path⟩

/-- The builder after a statement. -/
def step (b : Builder) : Statement → Option Builder
  | .assignment key item => (within (assign item true key) b.path b.root).map fun root => { b with root }
  | .table path => b.enter declareTable path
  | .row path => b.enter declareRow path

end Builder

/-- The root table that statements build. -/
def build? (statements : List Statement) : Option Members :=
  (statements.foldlM Builder.step Builder.start).map Builder.root

/-! ## As documents -/

mutual

/-- The document of an item, if its integers have 64 bits. -/
def Item.document? : Item → Option Document
  | .bool b => some (.bool b)
  | .int i => (int64? i).map .int
  | .float x => some (.float x)
  | .text t => some (.text t)
  | .moment m => some m.document
  | .list items => (documents? items).map .list
  | .table _ members => (memberDocuments? members).map .table
  | .rows tables => (rowDocuments? tables).map .list

/-- The documents of items. -/
def documents? : List Item → Option (List Document)
  | [] => some []
  | item :: rest => do
    let d ← item.document?
    let more ← documents? rest
    return d :: more

/-- The documents of the members of a table. -/
def memberDocuments? : List (Text × Item) → Option (List (Text × Document))
  | [] => some []
  | (name, item) :: rest => do
    let d ← item.document?
    let more ← memberDocuments? rest
    return (name, d) :: more

/-- The documents of the tables of rows. -/
def rowDocuments? : List (List (Text × Item)) → Option (List Document)
  | [] => some []
  | members :: rest => do
    let d ← memberDocuments? members
    let more ← rowDocuments? rest
    return .table d :: more

end

/-- The document of a root table. -/
def document? (members : Members) : Option Document := (memberDocuments? members).map .table

end PhpLiteral.Toml
