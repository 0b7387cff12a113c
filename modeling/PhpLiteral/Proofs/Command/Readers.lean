import PhpLiteral.Command.Readers
import PhpLiteral.Proofs.Command.Arguments
import PhpLiteral.Proofs.Json.Contents
import PhpLiteral.Proofs.Toml.Items

/-!
# Sound readers

What is relied on of the readers that the program runs with (`Command.Readers.AreSound`), and that the standard ones are
so (`Command.Readers.areSound_standard`).
-/

namespace PhpLiteral.Command.Readers

/-- Options that are read are those of the signature, with values that they take. -/
def AcceptArguments (r : Readers) : Prop :=
  ∀ {s : Signature} {args : List Text} {a : Arguments}, r.arguments s args = .ok a → s.Accepts a

/-- Arguments are read as their signature has it. A table that is read from a text has no name twice, and a list has no
more items than the text has bytes, or one more. -/
structure AreSound (r : Readers) : Prop where
  arguments : r.AcceptArguments
  json? {t : Text} {c : Json.Content} : r.json? t = some c → c.IsSound t.length
  toml? {t : Text} {members : Toml.Members} : r.toml? t = some members →
    Toml.AreSound (t.length + 1) (t.length + 1) members

theorem areSound_standard : standard.AreSound where
  arguments h := Signature.accepts_of_read h
  json? h := Json.isSound_of_parse? h
  toml? h := Toml.areSound_of_parse? h

end PhpLiteral.Command.Readers
