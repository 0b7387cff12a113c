import PhpLiteral.Association
import PhpLiteral.Text

/-!
# Command-line arguments

Arguments are read against a signature (`Signature`): the options that a command knows, and the places for the
arguments that are none. `Signature.read` gives the values of both, or says why it cannot. An option is given once
at most and its value stands behind it or behind an equals sign; short options can be run together; behind a double
hyphen there are no options.
-/

namespace PhpLiteral.Command

/-- An option of a command. -/
structure OptionKind where
  long : Text
  short : Option UInt8
  /-- The values that the option takes, if it takes one. -/
  accepts : Option (Text → Bool)

/-- A place for arguments that are no options. -/
structure Place where
  isRequired : Bool
  accepts : Text → Bool

/-- What a command takes. -/
structure Signature where
  options : List OptionKind
  places : List Place
  /-- Whether all arguments behind the places are taken, too; these may be negative numbers. -/
  takesMore : Bool

/-- Why reading arguments ends early. -/
inductive Stop
  /-- The arguments do not suit the command. -/
  | usage
  /-- The user asks for help. -/
  | help
  deriving DecidableEq, Repr

/-- What has been read: the options by their long names, with an empty value where they take none, and the other
arguments, the last one first. -/
structure Arguments where
  options : List (Text × Text)
  others : List Text

namespace Arguments

/-- Whether an option was given. -/
def has (a : Arguments) (long : Text) : Bool := (Association.get? long a.options).isSome

/-- The value of an option. -/
def value? (a : Arguments) (long : Text) : Option Text := Association.get? long a.options

end Arguments

/-- Whether a text consists of the digits of a number that can follow a minus sign: with one point at most, and an
exponent without sign at most, neither of them first. -/
def isUnsignedNumber (t : Text) : Bool := go false false true t && t.getLast? != some 0x65
where
  /-- The rest of the number, behind a point, behind an exponent mark, and behind the first digit or not. -/
  go (point exponent first : Bool) : Text → Bool
    | [] => true
    | b :: rest =>
      if Ascii.isDigit b then go point exponent false rest
      else if b = Ascii.dot then !point && !exponent && !first && go true exponent false rest
      else b = 0x65 && !exponent && !first && go point true false rest

namespace Signature

/-- The option with a long name. -/
def long? (s : Signature) (name : Text) : Option OptionKind := s.options.find? (·.long = name)

/-- The option with a short name. -/
def short? (s : Signature) (name : UInt8) : Option OptionKind := s.options.find? (·.short = some name)

/-- The arguments with one more option. -/
def addOption (a : Arguments) (o : OptionKind) (value : Text) : Except Stop Arguments :=
  if a.has o.long || (o.accepts.any fun accepts => !accepts value) then .error .usage
  else .ok { a with options := a.options ++ [(o.long, value)] }

/-- The arguments with one more that is no option. -/
def addOther (s : Signature) (a : Arguments) (value : Text) : Except Stop Arguments :=
  match s.places[a.others.length]? with
  | some place => if place.accepts value then .ok { a with others := value :: a.others } else .error .usage
  | none => if s.takesMore then .ok { a with others := value :: a.others } else .error .usage

/-- The arguments with the long option that a text names behind its two hyphens, and the option whose value is
still to come. -/
def addLong (s : Signature) (a : Arguments) (t : Text) : Except Stop (Arguments × Option OptionKind) :=
  let name := t.takeWhile (· != Ascii.equals)
  let value? := if name.length < t.length then some (t.drop (name.length + 1)) else none
  if name = utf8 "help" ∧ value? = none then .error .help
  else
    match s.long? name, value? with
    | some o, some value => if o.accepts.isNone then .error .usage else (addOption a o value).map (·, none)
    | some o, none => if o.accepts.isNone then (addOption a o []).map (·, none) else .ok (a, some o)
    | none, _ => .error .usage

/-- The arguments with the short options that a text names behind its hyphen, and the option whose value is still
to come. What follows an option with a value is that value, perhaps behind an equals sign. -/
def addShort (s : Signature) (a : Arguments) : Text → Except Stop (Arguments × Option OptionKind)
  | [] => .ok (a, none)
  | b :: rest =>
    if b = 0x68 then .error .help
    else
      match s.short? b with
      | none => .error .usage
      | some o =>
        if o.accepts.isNone then
          match addOption a o [] with
          | .ok a => s.addShort a rest
          | .error stop => .error stop
        else
          match rest with
          | [] => .ok (a, some o)
          | c :: value => (addOption a o (if c = Ascii.equals then value else rest)).map (·, none)

/-- The arguments with all of a list added. `pending` is an option whose value is to come, and behind a double
hyphen `literal` holds. -/
def readFrom (s : Signature) (a : Arguments) (pending : Option OptionKind) (literal : Bool) :
    List Text → Except Stop Arguments
  | [] => if pending.isSome then .error .usage else .ok a
  | t :: rest =>
    if literal then do
      let a ← s.addOther a t
      s.readFrom a none true rest
    else
      match t with
      | [Ascii.minus, Ascii.minus] => if pending.isSome then .error .usage else s.readFrom a none true rest
      | Ascii.minus :: Ascii.minus :: name =>
        if pending.isSome then .error .usage
        else do
          let (a, pending) ← s.addLong a name
          s.readFrom a pending false rest
      | t => do
        let isNumber := s.takesMore && s.places.length ≤ a.others.length && isUnsignedNumber (t.drop 1)
        if t.head? = some Ascii.minus ∧ t.length ≠ 1 ∧ !isNumber then
          if pending.isSome then .error .usage
          else
            let (a, pending) ← s.addShort a (t.drop 1)
            s.readFrom a pending false rest
        else
          match pending with
          | some o =>
            let a ← addOption a o t
            s.readFrom a none false rest
          | none =>
            let a ← s.addOther a t
            s.readFrom a none false rest

/-- The values that a list of arguments gives. -/
def read (s : Signature) (args : List Text) : Except Stop Arguments := do
  let a ← s.readFrom ⟨[], []⟩ none false args
  if (s.places.drop a.others.length).any (·.isRequired) then .error .usage
  else return { a with others := a.others.reverse }

end Signature

end PhpLiteral.Command
