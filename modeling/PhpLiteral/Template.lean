import PhpLiteral.Text

/-!
# Templates

A template is code with placeholders, each of which contains a question mark. What stands right around the
question mark decides which placeholder it is. `Token.scan` splits a template into its text and its marks, and
`Template.parse` groups them into the text before the first placeholder and the placeholders, each with the text
that follows it; an escaped question mark is text then.
-/

namespace PhpLiteral

/-- What leads to a member: `$`, `->` or `::`. -/
inductive Connective
  | dollar
  | arrow
  | doubleColon
  deriving DecidableEq, Repr

/-- The connective as it is written. -/
def Connective.text : Connective → Text
  | dollar => utf8 "$"
  | arrow => utf8 "->"
  | doubleColon => utf8 "::"

/-- A place for an argument. -/
inductive Placeholder
  /-- The argument itself. -/
  | value
  /-- The argument as the name of a member. -/
  | member (connective : Connective)
  /-- The entries of the argument as a list of arguments, written `...?`. -/
  | spread
  /-- The same, written `?*`. -/
  | starSpread
  /-- The same with text keys as names of arguments. -/
  | namedSpread
  deriving DecidableEq, Repr

/-- The placeholder as it is written in a template. -/
def Placeholder.spelling : Placeholder → Text
  | value => utf8 "?"
  | member connective => connective.text ++ utf8 "?"
  | spread => utf8 "...?"
  | starSpread => utf8 "?*"
  | namedSpread => utf8 "...?:"

/-- A mark in a template: a placeholder, or an escaped question mark. -/
inductive Mark
  | placeholder (p : Placeholder)
  | escaped
  deriving DecidableEq, Repr

namespace Mark

/-- The mark as it is written in a template. -/
def spelling : Mark → Text
  | placeholder p => p.spelling
  | escaped => utf8 "\\?"

/-- All marks, a longer one before each that it contains. -/
def all : List Mark :=
  [placeholder .namedSpread, placeholder .spread, placeholder (.member .dollar), placeholder (.member .arrow),
    placeholder (.member .doubleColon), escaped, placeholder .starSpread, placeholder .value]

/-- The mark that a text starts with. -/
def start? (t : Text) : Option Mark := all.find? fun m => m.spelling.isPrefixOf t

end Mark

/-- A piece of a template. -/
inductive Token
  | text (t : Text)
  | mark (m : Mark)
  deriving DecidableEq, Repr

namespace Token

/-- The pieces with a byte of text before them. -/
def consByte (b : UInt8) : List Token → List Token
  | text t :: rest => text (b :: t) :: rest
  | rest => text [b] :: rest

/-- The pieces of what follows the next `skip` bytes of a template. -/
def scanFrom : (skip : Nat) → Text → List Token
  | _, [] => []
  | skip + 1, _ :: rest => scanFrom skip rest
  | 0, b :: rest =>
    match Mark.start? (b :: rest) with
    | some m => mark m :: scanFrom (m.spelling.length - 1) rest
    | none => consByte b (scanFrom 0 rest)

/-- The pieces of a template. -/
def scan (template : Text) : List Token := scanFrom 0 template

end Token

/-- A template: the text before the first placeholder, and the placeholders, each with the text after it. -/
structure Template where
  lead : Text
  slots : List (Placeholder × Text)
  deriving DecidableEq, Repr

namespace Template

/-- The template of a list of pieces. -/
def ofTokens : List Token → Template
  | [] => ⟨[], []⟩
  | .text t :: rest => let r := ofTokens rest; ⟨t ++ r.lead, r.slots⟩
  | .mark .escaped :: rest => let r := ofTokens rest; ⟨Ascii.question :: r.lead, r.slots⟩
  | .mark (.placeholder p) :: rest => let r := ofTokens rest; ⟨[], (p, r.lead) :: r.slots⟩

/-- The template that a text writes. -/
def parse (t : Text) : Template := ofTokens (Token.scan t)

end Template

theorem ofTokens_consByte (b : UInt8) (tokens : List Token) :
    Template.ofTokens (Token.consByte b tokens) =
      ⟨b :: (Template.ofTokens tokens).lead, (Template.ofTokens tokens).slots⟩ := by
  cases tokens with
  | nil => rfl
  | cons token rest => cases token <;> rfl

end PhpLiteral
