import PhpLiteral.Proofs.Text.Decimal

/-!
# Keys and their texts

A text names an integer key exactly if it is the decimal text of this integer (`Key.ofText_eq_int_iff`). A text key
that names an integer is no key that PHP has; the others are (`Key.IsNormal`), and are named by their texts.
-/

namespace PhpLiteral

theorem int64?_toInt (i : Int64) : int64? i.toInt = some i := by
  rw [int64?, if_pos ⟨i.minValue_le_toInt, i.toInt_le⟩, Int64.ofInt_toInt]

theorem int64?_eq_some_iff {n : Int} {i : Int64} : int64? n = some i ↔ n = i.toInt := by
  refine ⟨fun h => ?_, fun h => h ▸ int64?_toInt i⟩
  rw [int64?] at h
  split at h
  · rename_i hn
    cases h
    rw [Int64.toInt_ofInt_of_le hn.1 (Int.lt_of_le_of_lt hn.2 (by decide))]
  · cases h

namespace Key

/-- A text names an integer key exactly if it is the decimal text of the integer. -/
theorem ofText_eq_int_iff {t : Text} {i : Int64} : ofText t = .int i ↔ t = decimalInt i.toInt := by
  rw [← canonicalInt?_eq_some_iff, ofText]
  cases hc : canonicalInt? t with
  | none => simp
  | some n =>
    rw [Option.bind_some, Option.some.injEq, ← int64?_eq_some_iff]
    cases int64? n <;> simp

/-- A text that names no integer key names itself. -/
theorem ofText_eq_str_iff {t name : Text} : ofText t = .str name ↔ t = name ∧ ∀ i : Int64, t ≠ decimalInt i.toInt := by
  simp only [ne_eq, ← ofText_eq_int_iff]
  unfold ofText
  split <;> simp

@[simp]
theorem text_ofText (t : Text) : (ofText t).text = t := by
  cases h : ofText t with
  | int i => exact (ofText_eq_int_iff.mp h).symm
  | str name => exact (ofText_eq_str_iff.mp h).1.symm

theorem ofText_injective : Function.Injective ofText := fun t u h => by
  rw [← text_ofText t, h, text_ofText]

/-- A text names a key that has this text, and no other text names it. The key is an integer exactly if the text is the
one decimal form of this integer, and every integer is named by the text of its key. -/
theorem ofText_canonical (t : Text) :
    (ofText t).text = t ∧ (∀ i : Int64, ofText t = .int i ↔ IsCanonicalDecimal t i.toInt) ∧
      (∀ i : Int64, ofText (int i).text = .int i) ∧ ∀ u, ofText t = ofText u ↔ t = u := by
  refine ⟨text_ofText t, fun i => ?_, fun i => ofText_eq_int_iff.mpr rfl, fun u => ofText_injective.eq_iff⟩
  rw [isCanonicalDecimal_iff, ofText_eq_int_iff]

/-- A key that PHP has: a text that is the decimal text of an integer is none, as PHP takes it for the integer. -/
def IsNormal : Key → Prop
  | int _ => True
  | str name => ∀ i : Int64, name ≠ decimalInt i.toInt

theorem isNormal_ofText (t : Text) : (ofText t).IsNormal := by
  cases h : ofText t with
  | int i => trivial
  | str name =>
    obtain ⟨rfl, hn⟩ := ofText_eq_str_iff.mp h
    exact hn

/-- The key that PHP takes a key for. -/
def normalized (key : Key) : Key := ofText key.text

theorem normalized_eq_self_iff {key : Key} : key.normalized = key ↔ key.IsNormal := by
  cases key with
  | int i => exact iff_of_true (ofText_eq_int_iff.mpr rfl) trivial
  | str name => exact ofText_eq_str_iff.trans (and_iff_right rfl)

end Key

end PhpLiteral
