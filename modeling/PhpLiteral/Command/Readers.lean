import PhpLiteral.Command.Arguments
import PhpLiteral.Json
import PhpLiteral.Toml

/-!
# Readers

What the program has its arguments and its texts read with (`Command.Readers`). It can do with any readers, and runs
with the standard ones (`Readers.standard`).
-/

namespace PhpLiteral.Command

/-- Readers of arguments, of JSON texts and of TOML texts. -/
structure Readers where
  /-- The values that arguments give by a signature. -/
  arguments : Signature → List Text → Except Stop Arguments
  /-- The content of a JSON text. -/
  json? : Text → Option Json.Content
  /-- The root table of a TOML text. -/
  toml? : Text → Option Toml.Members

/-- The readers that the program runs with. -/
def Readers.standard : Readers := ⟨Signature.read, Json.parse?, Toml.parse?⟩

end PhpLiteral.Command
