import PhpLiteral.Proofs.Data.Layout
import PhpLiteral.Proofs.Holds
import PhpLiteral.Proofs.Render
import PhpLiteral.Proofs.Text.Key

/-!
# Data is read back

A value that holds nothing but null, booleans, integers, strings and arrays stands for data (`Denotes`). The text
that is written for it is a PHP expression for this data (`readExpression_dump`).
-/

namespace PhpLiteral

open Relation (ReflTransGen)
open Syntax (Data)
open Syntax.Data (trees AllNormal)

/-! ## Data on a heap -/

/-- A value that is data as far as it goes itself; a text key in an array names no integer. -/
def Heap.IsDatum (heap : Heap) : Value → Prop
  | .atom .null | .atom (.bool _) | .atom (.int _) | .atom (.string _) => True
  | .array id => ∀ name, .str name ∈ (heap.array id).keys → Key.ofText name = .str name
  | _ => False

/-- Whether a value is null, a boolean, an integer, a string or an array. -/
def Value.isPlain : Value → Bool
  | .atom .null | .atom (.bool _) | .atom (.int _) | .atom (.string _) | .array _ => true
  | _ => false

/-- Whether all arrays of a heap hold such values alone, under keys that PHP takes for themselves. -/
def Heap.isPlain (heap : Heap) : Bool :=
  heap.arrays.all fun a => a.keys.all (fun key => key.normalized = key) && a.values.all Value.isPlain

/-- In such a heap, everything that such a value holds is data. -/
theorem Heap.isDatum_of_isPlain {heap : Heap} (h : heap.isPlain = true) {v w : Value} (hv : v.isPlain = true)
    (hw : ReflTransGen heap.Holds v w) : heap.IsDatum w := by
  have ha : ∀ id, (∀ key ∈ (heap.array id).keys, key.normalized = key) ∧
      ∀ v ∈ (heap.array id).values, v.isPlain = true := by
    intro id
    simp only [isPlain, List.all_eq_true, Bool.and_eq_true, decide_eq_true_eq] at h
    rcases Nat.lt_or_ge id heap.arrays.length with hl | hl
    · have e : heap.array id = heap.arrays[id] := by simp [array, List.getD, hl]
      exact e ▸ h _ (List.getElem_mem hl)
    · have e : heap.array id = .empty := by simp [array, List.getD, hl]
      rw [e]
      exact ⟨fun _ hm => absurd hm List.not_mem_nil, fun _ hm => absurd hm List.not_mem_nil⟩
  have hp : w.isPlain = true := by
    induction hw with
    | refl => exact hv
    | tail _ hh ih =>
      cases hh with
      | entry hm => exact (ha _).2 _ hm
      | property hm => cases ih
      | argument hm => cases ih
  unfold Value.isPlain at hp
  split at hp
  case h_5 id => exact fun name hn => (ha id).1 _ hn
  case h_6 => cases hp
  all_goals trivial

mutual

/-- A value on a heap stands for data. -/
inductive Denotes (heap : Heap) : Value → Data → Prop
  | null : Denotes heap (.atom .null) .null
  | bool (b : Bool) : Denotes heap (.atom (.bool b)) (.bool b)
  | int (i : Int64) : Denotes heap (.atom (.int i)) (.int i)
  | string (bytes : Text) : Denotes heap (.atom (.string bytes)) (.string bytes)
  | array {id : Nat} {entries : List (Key × Data)} :
    DenotesEntries heap (heap.array id).entries entries → Denotes heap (.array id) (.array entries)

/-- Entries on a heap stand for entries with the same keys in the same order. -/
inductive DenotesEntries (heap : Heap) : List (Key × Value) → List (Key × Data) → Prop
  | nil : DenotesEntries heap [] []
  | cons {key : Key} {v : Value} {d : Data} {vs : List (Key × Value)} {ds : List (Key × Data)} :
    Denotes heap v d → DenotesEntries heap vs ds → DenotesEntries heap ((key, v) :: vs) ((key, d) :: ds)

end

theorem DenotesEntries.keys_eq {heap : Heap} : ∀ {vs : List (Key × Value)} {ds : List (Key × Data)},
    DenotesEntries heap vs ds → ds.map Prod.fst = vs.map Prod.fst
  | _, _, .nil => rfl
  | _, _, .cons _ h => by rw [List.map_cons, List.map_cons, h.keys_eq]

variable {heap : Heap} {maxDepth : Nat}

mutual

/-- A value that can be expanded and holds nothing but data stands for data. -/
theorem exists_denotes (chain : List Ref) (depth : Nat) : ∀ (v : Value) {t : Tree},
    (∀ w, ReflTransGen heap.Holds v w → heap.IsDatum w) → v.expand heap maxDepth depth chain = .ok t →
    ∃ d : Data, Denotes heap v d ∧ d.IsNormal ∧ d.tree = t
  | .atom a, t, hv, h => by
    rw [Value.expand] at h
    cases h
    have ha := hv _ .refl
    cases a with
    | null => exact ⟨.null, .null, by rw [Data.IsNormal] <;> simp, by rw [Data.tree]⟩
    | bool b => exact ⟨.bool b, .bool b, by rw [Data.IsNormal] <;> simp, by rw [Data.tree]⟩
    | int i => exact ⟨.int i, .int i, by rw [Data.IsNormal] <;> simp, by rw [Data.tree]⟩
    | string bytes => exact ⟨.string bytes, .string bytes, by rw [Data.IsNormal] <;> simp, by rw [Data.tree]⟩
    | _ => exact ha.elim
  | .array id, t, hv, h => by
    have hk := hv _ .refl
    obtain ⟨he, rfl⟩ | ⟨hc, ts, hts, rfl⟩ := expand_array_cases h
    · have he : (heap.array id).entries = [] := by simpa [ArrayStore.values] using he
      exact ⟨.array [], .array (he ▸ .nil), by simp [Data.IsNormal, AllNormal], by simp [Data.tree, trees]⟩
    · have hw : ∀ u ∈ (heap.array id).values, ∀ w, ReflTransGen heap.Holds u w → heap.IsDatum w :=
        fun u hu w hw => hv w (.head (.entry hu) hw)
      obtain ⟨ds, hds, hn, rfl⟩ :=
        exists_denotesEntries (.array id :: chain) (depth + 1) (heap.array id).entries hw hts
      refine ⟨.array ds, .array hds, ?_, ?_⟩
      · rw [Data.IsNormal, hds.keys_eq]
        exact ⟨(heap.array id).nodup_keys, hk, hn⟩
      · rw [Data.tree, hds.keys_eq, ArrayStore.keys]
  | .object id, t, hv, h => (hv _ .refl).elim
  | .literal text args, t, hv, h => (hv _ .refl).elim
  | .capturing, t, hv, h => (hv _ .refl).elim
  | .resource kind, t, hv, h => (hv _ .refl).elim
termination_by v => (heap.remaining chain, sizeOf v, 1)
decreasing_by exact Heap.enter_lt (And.right ‹_›) Heap.values_array_of_not_mem

theorem exists_denotesEntries (chain : List Ref) (depth : Nat) : ∀ (entries : List (Key × Value)) {ts : List Tree},
    (∀ v ∈ entries.map Prod.snd, ∀ w, ReflTransGen heap.Holds v w → heap.IsDatum w) →
    expandAll heap maxDepth depth chain (entries.map Prod.snd) = .ok ts →
    ∃ ds, DenotesEntries heap entries ds ∧ AllNormal ds ∧ trees ds = ts
  | [], ts, hv, h => by
    rw [List.map_nil, expandAll] at h
    cases h
    exact ⟨[], .nil, by rw [AllNormal]; trivial, by rw [trees]⟩
  | (key, v) :: rest, ts, hv, h => by
    obtain ⟨t, us, ht, hu, rfl⟩ := expandAll_cons_eq_ok.mp h
    obtain ⟨d, hd, hn, rfl⟩ := exists_denotes chain depth v (hv v (by simp)) ht
    obtain ⟨ds, hds, hns, rfl⟩ := exists_denotesEntries chain depth rest (fun w hw => hv w (by simp_all)) hu
    exact ⟨(key, d) :: ds, .cons hd hds, by rw [AllNormal]; exact ⟨hn, hns⟩, by rw [trees]⟩
termination_by entries => (heap.remaining chain, sizeOf (entries.map Prod.snd), 0)

end

/-! ## Round trip -/

/-- The text of data is read as this data, whatever the settings and the column are and however PHP counts on behind
a negative key. -/
theorem readExpression_dump {s : Settings} {v : Value} {column : Nat} {text : Text}
    (hv : ∀ w, ReflTransGen heap.Holds v w → heap.IsDatum w) (h : dump s heap v column = .ok text) :
    ∃ d, Denotes heap v d ∧ ∀ rule, Syntax.readExpression rule text = some d := by
  obtain ⟨t, ht, rfl⟩ := exists_of_dump h
  obtain ⟨d, hd, hn, rfl⟩ := exists_denotes [] 0 v hv ht
  exact ⟨d, hd, fun rule => Syntax.readExpression_eq (reads_layout s d hn 0 column)⟩

/-- An array under the keys -1 and 0 of another one, with the least integer behind it. -/
def twiceHeld : Heap where
  arrays := [.ofEntries [(.str (utf8 "a\n"), .atom (.bool true))],
    .ofEntries [(.int (-1), .array 0), (.int 0, .array 0), (.int 1, .atom (.int Int64.minValue))]]
  objects := []

theorem values_twiceHeld_zero : (twiceHeld.array 0).values = [.atom (.bool true)] := rfl

theorem values_twiceHeld_one :
    (twiceHeld.array 1).values = [.array 0, .array 0, .atom (.int Int64.minValue)] := rfl

theorem dump_twiceHeld : dump { wrapLength := 40 } twiceHeld (.array 1) 0 =
    .ok (utf8 "[\n\t-1 => [\"a\\n\" => true],\n\t[\"a\\n\" => true],\n\t-9223372036854775807-1,\n]") := by
  have he : (Value.array 1).expand twiceHeld 50 0 [] = .ok (.array (twiceHeld.array 1).keys
      [.array (twiceHeld.array 0).keys [.atom (.bool true)], .array (twiceHeld.array 0).keys [.atom (.bool true)],
        .atom (.int Int64.minValue)]) := by
    simp [Value.expand, expandAll, values_twiceHeld_zero, values_twiceHeld_one, Except.map, bind, Except.bind, pure,
      Except.pure]
  rw [dump_of_expand he, if_pos (by decide)]
  refine congrArg Except.ok ?_
  decide

theorem isDatum_twiceHeld {w : Value} (hw : ReflTransGen twiceHeld.Holds (.array 1) w) : twiceHeld.IsDatum w :=
  Heap.isDatum_of_isPlain (by decide) rfl hw

theorem readExpression_dump_twiceHeld : ∃ d, Denotes twiceHeld (.array 1) d ∧ ∀ rule, Syntax.readExpression rule
    (utf8 "[\n\t-1 => [\"a\\n\" => true],\n\t[\"a\\n\" => true],\n\t-9223372036854775807-1,\n]") = some d :=
  readExpression_dump (fun _ => isDatum_twiceHeld) dump_twiceHeld

end PhpLiteral
