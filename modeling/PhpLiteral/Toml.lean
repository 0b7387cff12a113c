import PhpLiteral.Toml.Item
import PhpLiteral.Toml.Lexeme
import PhpLiteral.Toml.Number

/-!
# TOML

A reader of TOML texts. A machine takes the lexemes of a text one by one (`Toml.step`), with a stack of the lists
and tables that are open in the value it is in, and puts out statements; these build the root table
(`Toml.parse?`). Lists and inline tables are nested 80 deep at most.
-/

namespace PhpLiteral.Toml

/-- A byte of a bare key. -/
def isBareKeyByte (b : UInt8) : Bool :=
  Ascii.isLetter b || Ascii.isDigit b || b = Ascii.underscore || b = Ascii.minus

/-- The part of a key that a lexeme is. -/
def keyPart? : Lexeme → Option Text
  | .word t => if t.all isBareKeyByte then some t else none
  | .string t => some t
  | _ => none

/-- The item that a word, or words with points between them, writes. -/
def scalar? (t : Text) : Option Item :=
  if t = utf8 "true" then some (.bool true)
  else if t = utf8 "false" then some (.bool false)
  else
    match int? t, float? t, Moment.parse? t with
    | some i, _, _ => some (.int i)
    | none, some x, _ => some (.float x)
    | none, none, some m => some (.moment m)
    | none, none, none => none

/-- Whether a text has the form of a date, so that a time may follow it behind a space. -/
def isDateForm (t : Text) : Bool := (Date.parse? t).any fun (_, rest) => rest.isEmpty

/-! ## The machine -/

/-- A list or inline table that is open, with what it holds so far. -/
inductive Frame
  | list (items : List Item)
  /-- A table, and the key whose value is to come. -/
  | table (members : Members) (key : List Text)

/-- What a key is for. -/
inductive KeyRole
  | assignment
  | table
  | row
  /-- A member of an inline table, within the value of an assignment. -/
  | member (target : List Text) (stack : List Frame) (members : Members)

/-- What the machine is in. -/
inductive State
  /-- The start of a line. -/
  | line
  /-- The rest of a line behind a statement. -/
  | restOfLine
  /-- Right behind a bracket at the start of a line. -/
  | header
  /-- Before a part of a key. -/
  | key (role : KeyRole) (path : List Text)
  /-- Behind a part of a key. -/
  | keyEnd (role : KeyRole) (path : List Text)
  /-- Right behind the first of two closing brackets. -/
  | rowEnd (path : List Text)
  /-- Before a value. -/
  | value (target : List Text) (stack : List Frame)
  /-- In a value that is neither a string nor a list nor a table; after a date and a space if `gap`. -/
  | scalar (target : List Text) (stack : List Frame) (t : Text) (gap : Bool)
  /-- Behind a value. -/
  | after (target : List Text) (stack : List Frame) (item : Item)
  /-- In an inline table, before a key. -/
  | member (target : List Text) (stack : List Frame) (members : Members)

/-- The state of the machine and the statements it has put out, the last one first. -/
structure Machine where
  state : State
  statements : List Statement

/-- The greatest number of lists and inline tables that enclose each other. -/
def maxNesting : Nat := 80

/-- Where a list is open or an inline table, lines may end anywhere between its parts. -/
def isFiller : Lexeme → Bool
  | .blank _ | .lineEnd | .comment => true
  | _ => false

/-- The machine behind a value, after a lexeme. -/
def stepAfter (done : List Statement) (target : List Text) (stack : List Frame) (item : Item) (lexeme : Lexeme) :
    Option Machine :=
  match stack, lexeme with
  | [], .lineEnd => some ⟨.line, .assignment target item :: done⟩
  | [], .blank _ | [], .comment => some ⟨.restOfLine, .assignment target item :: done⟩
  | .list items :: stack, .comma => some ⟨.value target (.list (items ++ [item]) :: stack), done⟩
  | .list items :: stack, .closeBracket => some ⟨.after target stack (.list (items ++ [item])), done⟩
  | .table members key :: stack, .comma =>
    (assign item true key members).map fun members => ⟨.member target stack members, done⟩
  | .table members key :: stack, .closeBrace =>
    (assign item true key members).map fun members => ⟨.after target stack (.table .inline members), done⟩
  | _ :: _, lexeme => if isFiller lexeme then some ⟨.after target stack item, done⟩ else none
  | [], _ => none

/-- The machine before a value, after a lexeme. -/
def stepValue (done : List Statement) (target : List Text) (stack : List Frame) (lexeme : Lexeme) :
    Option Machine :=
  match lexeme, stack with
  | .word t, _ => some ⟨.scalar target stack t false, done⟩
  | .string t, _ | .longString t, _ => some ⟨.after target stack (.text t), done⟩
  | .openBracket, _ =>
    if stack.length < maxNesting then some ⟨.value target (.list [] :: stack), done⟩ else none
  | .openBrace, _ => if stack.length < maxNesting then some ⟨.member target stack [], done⟩ else none
  | .closeBracket, .list items :: stack => some ⟨.after target stack (.list items), done⟩
  | .blank _, _ => some ⟨.value target stack, done⟩
  | .lineEnd, .list _ :: _ | .comment, .list _ :: _ => some ⟨.value target stack, done⟩
  | _, _ => none

/-- The machine behind a part of a key, after a lexeme. -/
def stepKeyEnd (done : List Statement) (role : KeyRole) (path : List Text) (lexeme : Lexeme) : Option Machine :=
  match lexeme, role with
  | .blank _, _ => some ⟨.keyEnd role path, done⟩
  | .dot, _ => some ⟨.key role path, done⟩
  | .equals, .assignment => some ⟨.value path [], done⟩
  | .equals, .member target stack members => some ⟨.value target (.table members path :: stack), done⟩
  | .closeBracket, .table => some ⟨.restOfLine, .table path :: done⟩
  | .closeBracket, .row => some ⟨.rowEnd path, done⟩
  | _, _ => none

/-- The machine after a lexeme, if the lexeme may stand there. -/
def step (m : Machine) (lexeme : Lexeme) : Option Machine :=
  let done := m.statements
  match m.state, lexeme with
  | .line, .openBracket => some ⟨.header, done⟩
  | .line, lexeme =>
    if isFiller lexeme then some ⟨.line, done⟩
    else (keyPart? lexeme).map fun part => ⟨.keyEnd .assignment [part], done⟩
  | .restOfLine, .lineEnd => some ⟨.line, done⟩
  | .restOfLine, lexeme => if isFiller lexeme then some ⟨.restOfLine, done⟩ else none
  | .header, .openBracket => some ⟨.key .row [], done⟩
  | .header, .blank _ => some ⟨.key .table [], done⟩
  | .header, lexeme => (keyPart? lexeme).map fun part => ⟨.keyEnd .table [part], done⟩
  | .key role path, .blank _ => some ⟨.key role path, done⟩
  | .key role path, lexeme => (keyPart? lexeme).map fun part => ⟨.keyEnd role (path ++ [part]), done⟩
  | .keyEnd role path, lexeme => stepKeyEnd done role path lexeme
  | .rowEnd path, .closeBracket => some ⟨.restOfLine, .row path :: done⟩
  | .rowEnd _, _ => none
  | .value target stack, lexeme => stepValue done target stack lexeme
  | .scalar target stack t false, .dot => some ⟨.scalar target stack (t ++ [Ascii.dot]) false, done⟩
  | .scalar target stack t false, .word more => some ⟨.scalar target stack (t ++ more) false, done⟩
  | .scalar target stack t false, .blank [Ascii.space] =>
    if isDateForm t then some ⟨.scalar target stack t true, done⟩
    else (scalar? t).bind fun item => stepAfter done target stack item lexeme
  | .scalar target stack t true, .word more =>
    some ⟨.scalar target stack (t ++ Ascii.space :: more) false, done⟩
  | .scalar target stack t _, lexeme => (scalar? t).bind fun item => stepAfter done target stack item lexeme
  | .after target stack item, lexeme => stepAfter done target stack item lexeme
  | .member target stack members, .closeBrace => some ⟨.after target stack (.table .inline members), done⟩
  | .member target stack members, lexeme =>
    if isFiller lexeme then some ⟨.member target stack members, done⟩
    else (keyPart? lexeme).map fun part => ⟨.keyEnd (.member target stack members) [part], done⟩

/-- The statements of a TOML text. -/
def statements? (t : Text) : Option (List Statement) := do
  let lexemes ← lexemes? t
  match ← (lexemes ++ [Lexeme.lineEnd]).foldlM step ⟨.line, []⟩ with
  | ⟨.line, done⟩ => some done.reverse
  | _ => none

/-- The root table that a TOML text holds. -/
def parse? (t : Text) : Option Members := (statements? t).bind build?

end PhpLiteral.Toml
