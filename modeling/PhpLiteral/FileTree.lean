import PhpLiteral.Association
import PhpLiteral.Text

/-!
# Files and their names

A path is a sequence of names between slashes. This module reads the extension of a path (`Path.hasExtension`) and
holds the tree of files below the working directory (`FileTree`) with what reading a path there finds.
-/

namespace PhpLiteral

namespace Path

/-- The names in a path; empty ones and single dots lead nowhere. -/
def names (path : Text) : List Text :=
  (splitOn Ascii.slash path).filter fun name => !name.isEmpty && name != [Ascii.dot]

/-- Whether a path leads up or starts at the root, that is out of the working directory. -/
def leavesDirectory (path : Text) : Bool :=
  path.head? = some Ascii.slash || (names path).contains [Ascii.dot, Ascii.dot]

/-- The part of a name behind its last dot, if something stands before that dot. -/
def extension? (name : Text) : Option Text :=
  if name = [Ascii.dot, Ascii.dot] then none
  else
    match (splitOn Ascii.dot name).reverse with
    | last :: before => if before = [] ∨ before = [[]] then none else some last
    | [] => none

/-- Whether the last name in a path has an extension, written in letters of either case. -/
def hasExtension (extension path : Text) : Bool :=
  match (names path).getLast?.bind extension? with
  | some e => e.map Ascii.toLower = extension
  | none => false

end Path

/-- What a path leads to. -/
inductive Lookup
  | missing
  /-- Something that is no text, such as a directory. -/
  | unreadable
  | text (t : Text)
  deriving DecidableEq, Repr

/-- Files with their texts, by their paths from the working directory. -/
abbrev FileTree := List (Text × Text)

namespace FileTree

/-- What a path leads to. -/
def lookup (tree : FileTree) (path : Text) : Lookup :=
  let names := Path.names path
  if path.isEmpty || Path.leavesDirectory path then .missing
  else
    match tree.find? fun (p, _) => Path.names p = names with
    | some (_, t) => if path.getLast? = some Ascii.slash then .missing else .text t
    | none => if tree.any fun (p, _) => names.isPrefixOf (Path.names p) then .unreadable
              else if names.isEmpty then .unreadable else .missing

/-- Whether a file can be written at a path: in a directory that is there, and not in the place of one. -/
def canWrite (tree : FileTree) (path : Text) : Bool :=
  let names := Path.names path
  let directory := names.dropLast
  !Path.leavesDirectory path && !names.isEmpty && path.getLast? != some Ascii.slash &&
    (directory.isEmpty || tree.any fun (p, _) => directory.isPrefixOf (Path.names p) && Path.names p != directory) &&
    !tree.any fun (p, _) => names.isPrefixOf (Path.names p) && Path.names p != names

end FileTree

end PhpLiteral
