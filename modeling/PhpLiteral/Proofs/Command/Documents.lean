import PhpLiteral.Command
import PhpLiteral.Proofs.Command.Readers
import PhpLiteral.Proofs.Json.Doubles
import PhpLiteral.Proofs.Json.Values
import PhpLiteral.Proofs.Toml.Values

/-!
# Documents are taken over without loss

A document becomes a value with all its members under their own names, in order, and all that is in them
(`Command.becomes_store`). Sound readers give tables without repeated names and lists that are hardly longer than the
text; a text has fewer bytes than a list has indices, as its length is a signed word.

Which double the JSON reader gives for a number with a fraction or an exponent is its own affair: it is the nearest one
only as long as no more than one step of reading rounds.
-/

namespace PhpLiteral.Command

open ArrayStore (indexCount)
open Binary64 (IsRounded)

/-- In a heap, a value is what a text of a format becomes: what readers give for the text becomes the value. -/
def Format.Becomes (r : Readers) (heap : Heap) (t : Text) (v : Value) : Format → Prop
  | json => ∃ c, r.json? t = some c ∧ c.Becomes heap v
  | toml => ∃ members, r.toml? t = some members ∧ (Toml.Item.table .declared members).Becomes heap v

theorem Format.becomes_of_parse? {r : Readers} (hr : r.AreSound) {f : Format} {t : Text} {d : Document}
    (ht : t.length < indexCount) (h : f.parse? r t = some d) (heap : Heap) :
    f.Becomes r (d.store heap).2 t (d.store heap).1 := by
  cases f with
  | json =>
    obtain ⟨c, hc, rfl⟩ := Option.map_eq_some_iff.mp h
    exact ⟨c, hc, ((hr.json? hc).mono (Nat.le_of_lt ht)).becomes heap⟩
  | toml =>
    obtain ⟨members, hm, hd⟩ := Option.bind_eq_some_iff.mp h
    have hs : (Toml.Item.table .declared members).IsSound indexCount indexCount :=
      .ofTable ((hr.toml? hm).mono ht ht)
    rw [← Toml.Item.document?_table] at hd
    exact ⟨members, hm, hs.becomes hd heap⟩

/-- Every JSON content and every TOML item without repeated names becomes a value without loss, and so does every text
that sound readers take. A TOML item has a document exactly if its integers have 64 bits with sign. A number of a JSON
text is read as the integer that it is written as if this has 64 bits, and else as a double, which is the nearest one if
the digits of the number and its power of ten are doubles themselves. -/
theorem becomes_store (heap : Heap) :
    (∀ c : Json.Content, c.IsSound indexCount → c.Becomes (c.document.store heap).2 (c.document.store heap).1) ∧
      (∀ item : Toml.Item, item.IsSound indexCount indexCount →
        (item.document?.isSome = true ↔ item.HasWords) ∧
          ∀ d, item.document? = some d → item.Becomes (d.store heap).2 (d.store heap).1) ∧
      (∀ r : Readers, r.AreSound → ∀ (f : Format) (t : Text) (d : Document), t.length < indexCount →
        f.parse? r t = some d → f.Becomes r (d.store heap).2 t (d.store heap).1) ∧
      (∀ v : Int, Json.IsWord v → ∃ k, Json.parse? (decimalInt v) = some (.number k) ∧ k.value? = some v) ∧
      ∀ (t : Text) (n : Json.Numeral), Json.Numeral.parse? t = some n →
        Json.parse? t = n.number?.map .number ∧
          (∀ v : Int, (∃ k, n.number? = some k ∧ k.value? = some v) ↔ n.value? = some v ∧ Json.IsWord v) ∧
          ((∀ v, n.value? = some v → ¬ Json.IsWord v) → n.significand ≤ 2 ^ 53 → n.writtenExponent.natAbs < 2 ^ 31 →
            n.scale.natAbs ≤ 22 →
              ∃ m, n.number? = some (.float (.ofMagnitude n.isNegative m)) ∧ IsRounded n.absolute m) :=
  ⟨fun _ h => h.becomes heap, fun _ h => ⟨h.isSome_document?_iff, fun _ hd => h.becomes hd heap⟩,
    fun _ hr _ _ _ ht h => Format.becomes_of_parse? hr ht h heap, fun _ hv => Json.exists_parse?_decimalInt hv,
    fun _ _ h => ⟨Json.parse?_numeral h, fun _ => Json.Numeral.exists_number?_iff,
      Json.Numeral.exists_number?_float⟩⟩

/-- A JSON text with a number as a name, twice, and the same number with a leading zero. -/
def numericNames : Text := utf8 "\x7b\"1\":\"a\",\"01\":[-7,true],\"1\":null\x7d"

/-- A TOML text with the same names, and a table of headers in double brackets. -/
def numericTables : Text := utf8 "1 = 'a'\n[[01]]\nb = -7\n"

/-- The documents of both texts. -/
def numericDocument : Format → Document
  | .json => .table [(utf8 "1", .null), (utf8 "01", .list [.int (-7), .bool true])]
  | .toml => .table [(utf8 "1", .text (utf8 "a")), (utf8 "01", .list [.table [(utf8 "b", .int (-7))]])]

theorem becomes_store_numericNames :
    Format.json.Becomes .standard ((numericDocument .json).store .empty).2 numericNames
        ((numericDocument .json).store .empty).1 ∧
      ((numericDocument .json).store .empty).1 = .array 1 ∧
      (((numericDocument .json).store .empty).2.array 1).entries =
        [(.int 1, .atom .null), (.str (utf8 "01"), .array 0)] ∧
      Format.toml.Becomes .standard ((numericDocument .toml).store .empty).2 numericTables
        ((numericDocument .toml).store .empty).1 ∧
      Json.Numeral.parse? (utf8 "0.5") = some ⟨false, [0], some [5], none⟩ ∧
      ∃ m, Json.parse? (utf8 "0.5") = some (.number (.float (.ofMagnitude false m))) ∧ IsRounded (1 / 2) m := by
  have hj : Format.json.parse? .standard numericNames = some (numericDocument .json) := by rfl
  have ht : Format.toml.parse? .standard numericTables = some (numericDocument .toml) := by rfl
  have hn : Json.Numeral.parse? (utf8 "0.5") = some ⟨false, [0], some [5], none⟩ := by decide
  obtain ⟨-, -, texts, -, numbers⟩ := becomes_store .empty
  obtain ⟨hp, -, hf⟩ := numbers _ _ hn
  obtain ⟨m, hm, hr⟩ := hf nofun (by decide) (by decide) (by decide)
  have ha : (⟨false, [0], some [5], none⟩ : Json.Numeral).absolute = 1 / 2 := by
    norm_num [Json.Numeral.absolute, Json.Numeral.significand, Json.Numeral.scale, Json.Numeral.writtenExponent,
      Json.digitsValue]
  refine ⟨texts _ Readers.areSound_standard .json _ _ (by decide) hj, rfl, rfl,
    texts _ Readers.areSound_standard .toml _ _ (by decide) ht, hn, m, ?_, ha ▸ hr⟩
  rw [hp, hm]
  rfl

end PhpLiteral.Command
