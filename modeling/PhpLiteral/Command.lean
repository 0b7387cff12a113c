import PhpLiteral.Command.Invocation
import PhpLiteral.Dump

/-!
# The program

What the program does for an invocation (`Command.run`): it reads a document or JSON arguments and a configuration,
and writes PHP code; or it writes a configuration file. The world around it is given by what paths lead to, and
what it does to that world is a value (`Outcome`).
-/

namespace PhpLiteral.Command

/-- What the program finds around it. -/
structure World where
  stdin : Text
  /-- What a path leads to. -/
  lookup : Text → Lookup
  /-- Whether a file can be written at a path. -/
  canWrite : Text → Bool

/-- Why the program fails. -/
inductive Failure
  /-- Its arguments are wrong. -/
  | usage
  /-- A configuration cannot be loaded. -/
  | config (e : ConfigError)
  /-- Another error: messages, each one caused by the next. -/
  | messages (texts : List Text)
  /-- A sum leaves 64 bits, and the program is aborted. -/
  | overflow
  deriving DecidableEq, Repr

/-- What the program does: what it prints, the files it writes, and why it fails if it does. -/
structure Outcome where
  stdout : Text
  written : List (Text × Text)
  failure : Option Failure
  deriving DecidableEq, Repr

namespace Outcome

/-- The outcome that prints a text and a line feed. -/
def print (t : Text) : Outcome := ⟨t ++ [Ascii.lineFeed], [], none⟩

/-- The outcome that fails. -/
def fail (f : Failure) : Outcome := ⟨[], [], some f⟩

/-- The outcome of writing values, with a message about what failed before that of the cause. -/
def ofResult (failed : Text) : Except PhpLiteral.Stop Text → Outcome
  | .ok t => print t
  | .error (.error e) => fail (.messages [failed, e.message])
  | .error .overflow => fail .overflow

/-- The exit status: 2 for wrong arguments, 101 if the program is aborted, 1 for other errors. -/
def exit (o : Outcome) : Nat :=
  match o.failure with
  | none => 0
  | some .usage => 2
  | some (.config _) | some (.messages _) => 1
  | some .overflow => 101

/-- The messages about an error that is not about the arguments or the configuration. -/
def messages (o : Outcome) : List Text :=
  match o.failure with
  | some (.messages texts) => texts
  | _ => []

end Outcome

/-! ## Settings -/

/-- The configuration at a path. -/
def readConfig (r : Readers) (lookup : Text → Lookup) (path : Text) : Except ConfigError Config :=
  match lookup path with
  | .text t => Config.parseWith r.toml? path t
  | .missing | .unreadable => .error (.unreadable path)

/-- The configuration at a path, and the empty one if nothing is there. -/
def readConfigIfPresent (r : Readers) (lookup : Text → Lookup) (path : Text) : Except ConfigError Config :=
  match lookup path with
  | .missing => .ok .empty
  | .text _ | .unreadable => readConfig r lookup path

/-- The settings that options give, over those of the configuration file. -/
def Options.settings (r : Readers) (o : Options) (lookup : Text → Lookup) : Except ConfigError Settings :=
  (readConfigIfPresent r lookup o.configPath).map fun c => (c.merge o.overrides).settings

/-- The outcome of work that needs settings. -/
def withSettings (r : Readers) (w : World) (o : Options) (work : Settings → Outcome) : Outcome :=
  match o.settings r w.lookup with
  | .ok s => work s
  | .error e => .fail (.config e)

/-! ## Commands -/

/-- What stands before the statement in a PHP file. -/
def fileHead : Text := utf8 "<?php\n\ndeclare(strict_types=1);\n\n"

/-- The text that a command reads, or the path that cannot be read. -/
def readInput (w : World) (path : Option Text) : Except Text Text :=
  match path with
  | none => .ok w.stdin
  | some path =>
    if path = [Ascii.minus] then .ok w.stdin
    else
      match w.lookup path with
      | .text t => .ok t
      | .missing | .unreadable => .error path

/-- The values of JSON texts and the heap with their arrays, or the number and the text of the first that is no
JSON. -/
def storeArguments (r : Readers) (heap : Heap) (index : Nat) : List Text → Except (Nat × Text) (List Value × Heap)
  | [] => .ok ([], heap)
  | t :: rest =>
    match Format.json.parse? r t with
    | none => .error (index, t)
    | some d => do
      let (value, heap) := d.store heap
      let (values, heap) ← storeArguments r heap (index + 1) rest
      return (value :: values, heap)

/-- The message about a document of a format that cannot be read. -/
def Format.invalid : Format → Text
  | .json => utf8 "Invalid JSON input"
  | .toml => utf8 "Invalid TOML input"

/-- Writes a document as an expression, or as a file that returns it. -/
def runDump (r : Readers) (w : World) (path : Option Text) (format? : Option Format) (column : Nat) (isFile : Bool)
    (o : Options) : Outcome :=
  let f := format?.getD (.detect path)
  match readInput w path with
  | .error path => .fail (.messages [utf8 "Failed to read " ++ path])
  | .ok t =>
    match f.parse? r t with
    | none => .fail (.messages [f.invalid])
    | some d =>
      let (value, heap) := d.store .empty
      withSettings r w o fun s =>
        if isFile then
          .ofResult (utf8 "Failed to render PHP file")
            (((PhpLiteral.format s heap (utf8 "return ?;") [value]).map (fileHead ++ ·)).mapError .error)
        else .ofResult (utf8 "Failed to dump value") (dump s heap value column)

/-- Fills a template with JSON arguments. -/
def runFormat (r : Readers) (w : World) (template : Text) (args : List Text) (o : Options) : Outcome :=
  match storeArguments r .empty 1 args with
  | .error (index, t) =>
    .fail (.messages [utf8 "Argument " ++ decimal index ++ utf8 " is not valid JSON: " ++ t])
  | .ok (values, heap) =>
    withSettings r w o fun s =>
      .ofResult (utf8 "Failed to format template") ((PhpLiteral.format s heap template values).mapError .error)

/-- Writes a configuration file with the defaults. -/
def runInit (w : World) (path : Text) (force : Bool) : Outcome :=
  if w.lookup path ≠ .missing ∧ ¬ force then
    .fail (.messages [path ++ utf8 " already exists (use --force to overwrite)"])
  else if w.canWrite path then
    ⟨utf8 "Created " ++ path ++ [Ascii.lineFeed], [(path, Config.defaults.toml)], none⟩
  else .fail (.messages [utf8 "Failed to write " ++ path])

/-- What the program does for an invocation. -/
def Invocation.run (r : Readers) (w : World) : Invocation → Outcome
  | .dump path format? column isFile o => runDump r w path format? column isFile o
  | .format template args o => runFormat r w template args o
  | .init path force => runInit w path force
  | .version => .print (utf8 "phplit 0.1.0")
  | .help => ⟨[], [], none⟩

/-- What the program does with its arguments. -/
def run (r : Readers) (w : World) (args : List Text) : Outcome :=
  match Invocation.parse r args with
  | some invocation => invocation.run r w
  | none => .fail .usage

/-- The world of files in a tree. -/
def World.ofTree (stdin : Text) (tree : FileTree) : World := ⟨stdin, tree.lookup, tree.canWrite⟩

end PhpLiteral.Command
