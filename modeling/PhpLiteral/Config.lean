import PhpLiteral.FactoryName
import PhpLiteral.Settings
import PhpLiteral.Text.Blank
import PhpLiteral.Toml
import PhpLiteral.Toml.Written

/-!
# Configuration

A configuration is the `[dumper]` table of a TOML text: settings, each of which can be left out.

* `Config.parse`: the configuration that a text holds, with every value checked (`Config.parseWith` with any reader of
  TOML);
* `Config.merge`: a configuration with others put over its settings;
* `Config.settings`: the settings that it gives, with defaults for what it leaves out;
* `Config.toml`: the text that holds it.
-/

namespace PhpLiteral

/-- The settings that a configuration makes. -/
structure Config where
  maxDepth : Option Nat
  wrapLength : Option Nat
  indent : Option Indent
  factory : Option Text
  deriving DecidableEq, Repr

/-! ## Errors -/

/-- A value that a configuration may not hold. -/
inductive ConfigProblem
  | zeroDepth
  | zeroWidth
  | factory (name : Text) (problem : FactoryProblem)
  deriving DecidableEq, Repr

/-- The message for the user. -/
def ConfigProblem.message : ConfigProblem → Text
  | zeroDepth => utf8 "max_depth must be at least 1"
  | zeroWidth => utf8 "wrap_length must be at least 1"
  | factory name problem => problem.message name

/-- The key of the value. -/
def ConfigProblem.key : ConfigProblem → Text
  | zeroDepth => utf8 "max_depth"
  | zeroWidth => utf8 "wrap_length"
  | factory _ _ => utf8 "object_factory"

/-- A place in a text: its first byte and its length in bytes. -/
structure Span where
  start : Nat
  length : Nat
  deriving DecidableEq, Repr

/-- Why a configuration cannot be loaded. `source` is the name of its text. -/
inductive ConfigError
  | unreadable (path : Text)
  /-- The text is no TOML, or it holds something that is no configuration. -/
  | malformed (source : Text) (reason : Option IndentError)
  | invalid (source : Text) (problem : ConfigProblem) (span : Option Span)
  deriving DecidableEq, Repr

namespace ConfigError

/-- The message for the user. -/
def message : ConfigError → Text
  | unreadable path => utf8 "failed to read '" ++ path ++ utf8 "'"
  | malformed _ _ => utf8 "failed to parse phplit.toml"
  | invalid _ problem _ => problem.message

/-- The code under which the error is documented. -/
def code? : ConfigError → Option Text
  | unreadable _ => none
  | malformed _ _ => some (utf8 "phplit::parse_error")
  | invalid _ _ _ => some (utf8 "phplit::validation_error")

/-- What the user can do about it. -/
def help? : ConfigError → Option Text
  | unreadable _ => some (utf8 "run 'phplit init' to create a phplit.toml")
  | malformed _ _ | invalid _ _ _ => none

end ConfigError

namespace Config

open Toml (Item Members)

/-! ## Reading -/

/-- Why a table is no configuration. -/
inductive Misfit
  /-- An unknown name, or a value of another kind. -/
  | form
  /-- A number or text that names no indentation. -/
  | indent (e : IndentError)
  deriving DecidableEq, Repr

/-- The configuration that leaves everything out. -/
def empty : Config := ⟨none, none, none, none⟩

/-- The number of an item, if it is one of 64 bits without sign. -/
def wordOf : Item → Except Misfit Nat
  | .int i => if 0 ≤ i ∧ i < (UInt64.size : Int) then .ok i.toNat else .error .form
  | _ => .error .form

/-- The indentation that an item names: a number of one byte, or a text. -/
def indentOf : Item → Except Misfit Indent
  | .int i => if 0 ≤ i ∧ i < 256 then (Indent.ofCount i.toNat).mapError .indent else .error .form
  | .text t => (Indent.parse t).mapError .indent
  | _ => .error .form

/-- The text of an item. -/
def textOf : Item → Except Misfit Text
  | .text t => .ok t
  | _ => .error .form

/-- The names of the settings, in the order in which they are written. -/
def names : List Text := [utf8 "max_depth", utf8 "wrap_length", utf8 "indentation", utf8 "object_factory"]

/-- The configuration with a setting. -/
def setItem (c : Config) (name : Text) (item : Item) : Except Misfit Config :=
  if name = utf8 "max_depth" then do
    let n ← wordOf item
    return { c with maxDepth := some n }
  else if name = utf8 "wrap_length" then do
    let n ← wordOf item
    return { c with wrapLength := some n }
  else if name = utf8 "indentation" then do
    let i ← indentOf item
    return { c with indent := some i }
  else if name = utf8 "object_factory" then do
    let t ← textOf item
    return { c with factory := some t }
  else .error .form

/-- The configuration with settings made in order. -/
def setItems (c : Config) (items : List (Text × Item)) : Except Misfit Config :=
  items.foldlM (fun c (name, item) => c.setItem name item) c

/-- The configuration of a `dumper` item: a table, or a list with all settings in their order. -/
def ofItem : Item → Except Misfit Config
  | .table _ members => empty.setItems members
  | .list items => do
    let c ← empty.setItems (names.zip items)
    if items.length < names.length then .error .form else return c
  | _ => .error .form

/-- The configuration of a root table, in which nothing but the `dumper` item may stand. -/
def ofMembers (members : Members) : Except Misfit Config :=
  members.foldlM (fun _ (name, item) => if name = utf8 "dumper" then ofItem item else .error .form) empty

/-! ## Checking -/

/-- The first value that may not stand in the configuration. -/
def problem? (c : Config) : Option ConfigProblem :=
  if c.maxDepth = some 0 then some .zeroDepth
  else if c.wrapLength = some 0 then some .zeroWidth
  else c.factory.bind fun name => (factoryProblem? name).map (.factory name)

/-- The lines of a text, each but perhaps the last one with its line feed. -/
def lines : Text → List Text
  | [] => []
  | b :: rest =>
    if b = Ascii.lineFeed then [b] :: lines rest
    else
      match lines rest with
      | [] => [[b]]
      | line :: more => (b :: line) :: more

/-- What follows a key and an equals sign at the start of a line, white space aside. -/
def assigned? (key line : Text) : Option Text := do
  let rest ← key.isPrefixOf? (trimStart line)
  let value ← [Ascii.equals].isPrefixOf? (trimStart rest)
  return trimStart value

/-- The place of what the first line that starts with a key and an equals sign has behind it. `offset` is the
length of the lines before. -/
def spanIn? (key : Text) (offset : Nat) : List Text → Option Span
  | [] => none
  | line :: rest =>
    match assigned? key line with
    | some value => some ⟨offset + line.length - value.length, (trimEnd value).length⟩
    | none => spanIn? key (offset + line.length) rest

/-- The place of the value of a key in a text. -/
def span? (t key : Text) : Option Span := spanIn? key 0 (lines t)

/-- The configuration that a text with a name holds, whose root table is read by some reader of TOML. -/
def parseWith (toml? : Text → Option Members) (source t : Text) : Except ConfigError Config :=
  match toml? t with
  | none => .error (.malformed source none)
  | some members =>
    match ofMembers members with
    | .error .form => .error (.malformed source none)
    | .error (.indent e) => .error (.malformed source (some e))
    | .ok c =>
      match c.problem? with
      | some problem => .error (.invalid source problem (span? t problem.key))
      | none => .ok c

/-- The configuration that a text with a name holds. -/
def parse (source t : Text) : Except ConfigError Config := parseWith Toml.parse? source t

/-! ## Using -/

/-- The configuration with the settings of another put over it. -/
def merge (c other : Config) : Config where
  maxDepth := other.maxDepth.or c.maxDepth
  wrapLength := other.wrapLength.or c.wrapLength
  indent := other.indent.or c.indent
  factory := other.factory.or c.factory

/-- The settings of the configuration, with defaults for what it leaves out. -/
def settings (c : Config) : Settings :=
  let d : Settings := {}
  { maxDepth := c.maxDepth.getD d.maxDepth
    wrapLength := c.wrapLength.getD d.wrapLength
    indent := c.indent.getD d.indent
    factory := c.factory.getD d.factory }

/-- The configuration that makes every setting its default. -/
def defaults : Config :=
  let d : Settings := {}
  ⟨some d.maxDepth, some d.wrapLength, some d.indent, some d.factory⟩

/-- An indentation as TOML: a number of spaces, or `tab` in quotes. -/
def writtenIndent : Indent → Text
  | .spaces count => decimal count
  | .tab => Toml.writtenString (utf8 "tab")

/-- The line that makes a setting, if it is made. -/
def writtenLine (name : Text) (value : Option Text) : Text :=
  match value with
  | some v => name ++ utf8 " = " ++ v ++ utf8 "\n"
  | none => []

/-- The TOML text that holds the configuration. -/
def toml (c : Config) : Text :=
  utf8 "[dumper]\n" ++ writtenLine (utf8 "max_depth") (c.maxDepth.map decimal) ++
    writtenLine (utf8 "wrap_length") (c.wrapLength.map decimal) ++
    writtenLine (utf8 "indentation") (c.indent.map writtenIndent) ++
    writtenLine (utf8 "object_factory") (c.factory.map Toml.writtenString)

/-- The name of the file that holds the configuration where no other is given. -/
def fileName : Text := utf8 "phplit.toml"

end Config

end PhpLiteral
