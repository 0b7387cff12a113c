import PhpLiteral.Command

/-!
# The executable

Reads the files that an invocation names and standard input if it needs it, runs the invocation, and carries out
what comes of it.
-/

namespace PhpLiteral.Main

open Command

/-- The text of bytes, if they are UTF-8. -/
def textOf (bytes : ByteArray) : Lookup :=
  let t := bytes.data.toList
  if Utf8.isValid t then .text t else .unreadable

/-- What a path leads to. -/
def look (path : Text) : IO Lookup := do
  try
    return textOf (← IO.FS.readBinFile (Utf8.toString path))
  catch
    | .noFileOrDirectory .. => return .missing
    | _ => return .unreadable

/-- Everything that a stream still holds. -/
partial def readAll (stream : IO.FS.Stream) (done : ByteArray) : IO ByteArray := do
  let more ← stream.read 65536
  if more.isEmpty then return done else readAll stream (done ++ more)

/-- The world that an invocation looks at. -/
def world (i : Invocation) : IO World := do
  let found ← i.paths.mapM fun path => return (path, ← look path)
  let stdin ← if i.readsStdin then readAll (← IO.getStdin) .empty else pure .empty
  return ⟨stdin.data.toList, fun path => (Association.get? path found).getD .missing, fun _ => true⟩

/-- Prints a text as it is. -/
def printTo (stream : IO.FS.Stream) (t : Text) : IO Unit := do
  stream.write ⟨t.toArray⟩
  stream.flush

/-- Prints what went wrong. -/
def report (f : Failure) : IO Unit := do
  let stderr ← IO.getStderr
  let lines :=
    match f with
    | .usage => [utf8 "error: wrong arguments"]
    | .config e => (utf8 "error: " ++ e.message) :: e.help?.toList
    | .messages texts => texts.map (utf8 "error: " ++ ·)
    | .overflow => [utf8 "error: a column is too great"]
  lines.forM fun line => printTo stderr (line ++ [Ascii.lineFeed])

/-- Carries out an outcome and gives the exit status. -/
def carryOut (o : Outcome) : IO UInt32 := do
  for (path, t) in o.written do
    try
      IO.FS.writeBinFile (Utf8.toString path) ⟨t.toArray⟩
    catch _ =>
      report (.messages [utf8 "Failed to write " ++ path])
      return 1
  printTo (← IO.getStdout) o.stdout
  o.failure.forM report
  return o.exit.toUInt32

end PhpLiteral.Main

open PhpLiteral PhpLiteral.Command in
/-- Runs the program with its arguments. -/
def main (args : List String) : IO UInt32 := do
  let args := args.map utf8
  match Invocation.parse .standard args with
  | some i => PhpLiteral.Main.carryOut (i.run .standard (← PhpLiteral.Main.world i))
  | none => PhpLiteral.Main.carryOut (.fail .usage)
