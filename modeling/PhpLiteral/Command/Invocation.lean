import PhpLiteral.Command.Readers
import PhpLiteral.Config
import PhpLiteral.FileTree

/-!
# Invocations of the program

What the user can ask of the program, and how its arguments say so (`Invocation.parse`).
-/

namespace PhpLiteral.Command

/-- The formats of documents. -/
inductive Format
  | json
  | toml
  deriving DecidableEq, Repr

namespace Format

/-- The format of a document at a path: TOML if the path has the extension `toml`, else JSON. -/
def detect (path : Option Text) : Format :=
  if path.any (Path.hasExtension (utf8 "toml")) then toml else json

/-- The format of a name. -/
def ofName? (name : Text) : Option Format :=
  if name = utf8 "json" then some json else if name = utf8 "toml" then some toml else none

/-- The document that a text holds. -/
def parse? (r : Readers) : Format → Text → Option Document
  | json, t => (r.json? t).map Json.Content.document
  | toml, t => (r.toml? t).bind Toml.document?

end Format

/-- The configuration file to use, and what is put over its settings. -/
structure Options where
  configPath : Text
  overrides : Config
  deriving DecidableEq, Repr

/-- What the user asks for. -/
inductive Invocation
  /-- A document as an expression, from standard input if there is no path. -/
  | dump (path : Option Text) (format : Option Format) (column : Nat) (isFile : Bool) (o : Options)
  /-- A template filled with JSON arguments. -/
  | format (template : Text) (args : List Text) (o : Options)
  /-- A new configuration file. -/
  | init (path : Text) (force : Bool)
  /-- The name and version of the program. -/
  | version
  /-- Help, or completions for a shell; nothing is printed for them. -/
  | help
  deriving DecidableEq, Repr

/-- The paths that an invocation looks at. -/
def Invocation.paths : Invocation → List Text
  | .dump path _ _ _ o => path.toList ++ [o.configPath]
  | .format _ _ o => [o.configPath]
  | .init path _ => [path]
  | .version | .help => []

/-- Whether an invocation reads standard input. -/
def Invocation.readsStdin : Invocation → Bool
  | .dump path _ _ _ _ => path.all (· = [Ascii.minus])
  | _ => false

/-! ## Values -/

/-- The number from 1 to the greatest one of 32 bits that a text writes. -/
def limit? (t : Text) : Option Nat := (unsigned? t).bind fun n => if 1 ≤ n ∧ n < UInt32.size then some n else none

/-- The number of 64 bits without sign that a text writes. -/
def word? (t : Text) : Option Nat := (unsigned? t).bind fun n => if n < UInt64.size then some n else none

/-- The indentation that a text names. -/
def indent? (t : Text) : Option Indent := (Indent.parse t).toOption

def acceptsAny : Text → Bool := fun _ => true

/-- A path has a name at least. -/
def acceptsPath (t : Text) : Bool := !t.isEmpty

/-! ## Signatures -/

/-- The option that all commands know. -/
def verboseOption : OptionKind := ⟨utf8 "verbose", some 0x76, none⟩

/-- The options of the commands that write values. -/
def settingsOptions : List OptionKind :=
  [⟨utf8 "config", some 0x63, some acceptsPath⟩,
    ⟨utf8 "max-depth", none, some fun t => (limit? t).isSome⟩,
    ⟨utf8 "wrap-length", none, some fun t => (limit? t).isSome⟩,
    ⟨utf8 "indent", none, some fun t => (indent? t).isSome⟩,
    verboseOption]

def dumpSignature : Signature where
  options :=
    [⟨utf8 "from", some 0x66, some fun t => (Format.ofName? t).isSome⟩,
      ⟨utf8 "column", none, some fun t => (word? t).isSome⟩, ⟨utf8 "php-file", none, none⟩] ++ settingsOptions
  places := [⟨false, acceptsPath⟩]
  takesMore := false

def formatSignature : Signature where
  options := settingsOptions
  places := [⟨true, acceptsAny⟩]
  takesMore := true

def initSignature : Signature where
  options := [⟨utf8 "force", some 0x66, none⟩, verboseOption]
  places := [⟨false, acceptsPath⟩]
  takesMore := false

/-- The shells for which there are completions. -/
def shells : List Text := [utf8 "bash", utf8 "elvish", utf8 "fish", utf8 "powershell", utf8 "zsh"]

def completionsSignature : Signature where
  options := [verboseOption]
  places := [⟨true, shells.contains⟩]
  takesMore := false

/-! ## Reading -/

/-- The settings that arguments make. -/
def Options.ofArguments (a : Arguments) : Options where
  configPath := (a.value? (utf8 "config")).getD Config.fileName
  overrides :=
    { maxDepth := (a.value? (utf8 "max-depth")).bind limit?
      wrapLength := (a.value? (utf8 "wrap-length")).bind limit?
      indent := (a.value? (utf8 "indent")).bind indent?
      factory := none }

namespace Invocation

def ofDump (a : Arguments) : Invocation :=
  .dump a.others.head? ((a.value? (utf8 "from")).bind Format.ofName?)
    (((a.value? (utf8 "column")).bind word?).getD 0) (a.has (utf8 "php-file")) (.ofArguments a)

def ofFormat (a : Arguments) : Invocation := .format (a.others.headD []) a.others.tail (.ofArguments a)

def ofInit (a : Arguments) : Invocation := .init (a.others.headD Config.fileName) (a.has (utf8 "force"))

/-- The names of the commands, with what their arguments have to suit and what they ask for. -/
def commands : List (Text × Signature × (Arguments → Invocation)) :=
  [(utf8 "dump", dumpSignature, ofDump), (utf8 "format", formatSignature, ofFormat),
    (utf8 "init", initSignature, ofInit), (utf8 "completions", completionsSignature, fun _ => .help)]

/-- What a command and its arguments ask for; none if they suit no command. -/
def ofCommand (r : Readers) (name : Text) (args : List Text) : Option Invocation :=
  match Association.get? name commands with
  | some (signature, make) =>
    match r.arguments signature args with
    | .ok a => some (make a)
    | .error .help => some .help
    | .error .usage => none
  | none =>
    if name = utf8 "help" ∧ args.length ≤ 1 ∧ args.all fun a => (Association.get? a commands).isSome || a = name then
      some .help
    else none

/-- What the short options before a command ask for: none, unless one of them ends the reading. `verbose` says
whether the verbose option has been given. -/
def shortOptions (verbose : Bool) : Text → Option (Sum Bool Invocation)
  | [] => some (.inl verbose)
  | b :: rest =>
    if b = 0x68 then some (.inr .help)
    else if b = 0x56 then some (.inr .version)
    else if b = 0x76 ∧ ¬ verbose then shortOptions true rest
    else none

/-- What arguments ask for; none if they are wrong. `verbose` says whether the verbose option has been given. -/
def parseFrom (r : Readers) (verbose : Bool) : List Text → Option Invocation
  | [] => none
  | t :: rest =>
    if t = utf8 "--version" then some .version
    else if t = utf8 "--help" then some .help
    else if t = utf8 "--verbose" then if verbose then none else parseFrom r true rest
    else
      match t with
      | Ascii.minus :: b :: short =>
        match shortOptions verbose (b :: short) with
        | some (.inl verbose) => parseFrom r verbose rest
        | some (.inr invocation) => some invocation
        | none => none
      | name => ofCommand r name rest

/-- What the arguments of the program ask for; none if they are wrong. -/
def parse (r : Readers) (args : List Text) : Option Invocation := parseFrom r false args

end Invocation

end PhpLiteral.Command
