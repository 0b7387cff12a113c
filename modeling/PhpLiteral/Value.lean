import PhpLiteral.DateTime
import PhpLiteral.Key
import PhpLiteral.NumberLiteral

/-!
# Values

What can be written as PHP code. An atom (`Atom`) has nothing nested in it, and its code (`Atom.code`) is the same
wherever it stands. A value (`Value`) is an atom, raw code with arguments, or a reference to an array or object,
so that containers can be shared and can hold themselves.
-/

namespace PhpLiteral

/-- The kinds of values that messages tell apart. -/
inductive Kind
  | null | bool | int | float | string | array | literal | enumCase | dateTime | serializable | closure | object
  | resource
  deriving DecidableEq, Repr

/-- The name of a kind. -/
def Kind.name : Kind → Text
  | null => utf8 "null"
  | bool => utf8 "bool"
  | int => utf8 "int"
  | float => utf8 "float"
  | string => utf8 "string"
  | array => utf8 "array"
  | literal => utf8 "literal"
  | enumCase => utf8 "enum"
  | dateTime => utf8 "datetime"
  | serializable => utf8 "serializable object"
  | closure => utf8 "closure"
  | object => utf8 "object"
  | resource => utf8 "resource"

/-- A class name as it is stored, without leading backslashes. -/
def bareClass (name : Text) : Text := name.dropWhile (· == Ascii.backslash)

/-- A value with nothing nested in it. Class names of enum cases are written without the leading backslash. -/
inductive Atom
  | null
  | bool (b : Bool)
  | int (i : Int64)
  | float (x : Binary64)
  | string (bytes : Text)
  | enumCase (className caseName : Text)
  | dateTime (d : DateTime)
  /-- An object that is rebuilt from what it was serialized to. -/
  | serialized (payload : Text)
  /-- A closure made of a function. -/
  | function (name : Text)
  /-- A closure made of a static method. -/
  | method (className name : Text)
  deriving DecidableEq, Repr

/-- The expression for an atom. -/
def Atom.code : Atom → Text
  | null => utf8 "null"
  | bool b => if b then utf8 "true" else utf8 "false"
  | int i => intLiteral i
  | float x => floatLiteral x
  | string bytes => stringLiteral bytes
  | enumCase className caseName => utf8 "\\" ++ className ++ utf8 "::" ++ caseName
  | dateTime d => d.code
  | serialized payload => utf8 "unserialize(" ++ stringLiteral payload ++ utf8 ")"
  | function name => name ++ utf8 "(...)"
  | method className name => className ++ utf8 "::" ++ name ++ utf8 "(...)"

/-- The kind of an atom. -/
def Atom.kind : Atom → Kind
  | .null => .null
  | .bool _ => .bool
  | .int _ => .int
  | .float _ => .float
  | .string _ => .string
  | .enumCase _ _ => .enumCase
  | .dateTime _ => .dateTime
  | .serialized _ => .serializable
  | .function _ => .closure
  | .method _ _ => .closure

/-- A value, with arrays and objects given by their places in a heap. -/
inductive Value
  | atom (a : Atom)
  | array (id : Nat)
  | object (id : Nat)
  /-- Raw code; with arguments it is a template that they fill. -/
  | literal (code : Text) (args : List Value)
  /-- A closure that captures variables, which no code can rebuild. -/
  | capturing
  /-- A resource, which no code can rebuild. -/
  | resource (kind : Text)

namespace Value

/-- The kind of a value. -/
def kind : Value → Kind
  | atom a => a.kind
  | array _ => .array
  | object _ => .object
  | literal _ _ => .literal
  | capturing => .closure
  | resource _ => .resource

end Value

end PhpLiteral
