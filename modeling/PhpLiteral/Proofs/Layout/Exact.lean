import Mathlib.Algebra.Order.BigOperators.Group.List
import PhpLiteral.Proofs.Layout.Flat

/-!
# Layouts by exact sums

What counting in 64 bits changes. A value is written as by the machine that adds as great numbers as there are, unless
one of the sums leaves 64 bits, which aborts the program. The sums grow with the column and no faster than it
(`exists_sums_le`), so that every value leaves the layout exact up to some column (`dump_eq_exact`); near the greatest
one the program is aborted (`dump_ne_exact`).
-/

namespace PhpLiteral

/-! ## Sums of a layout -/

theorem sumsInline_nil {labels : List Text} {values : List Tree} (h : labels = [] ∨ values = []) (s : Settings)
    (column : Nat) (counted : Bool) (offset : Nat) : sumsInline s column counted offset labels values = [] := by
  rcases h with rfl | rfl
  · rw [sumsInline]
    rintro _ _ _ _ ⟨⟩
  · rw [sumsInline]
    rintro _ _ _ _ - ⟨⟩

theorem length_separator_le (offset : Nat) : (separator offset).length ≤ 2 := by
  unfold separator
  split <;> decide

mutual

/-- The layouts of a tree at all columns are shorter than some length. -/
theorem exists_length_layout_le (s : Settings) (level : Nat) : ∀ t : Tree,
    ∃ bound, ∀ column, (t.layout s level column).length ≤ bound
  | .atom a => ⟨a.code.length, fun column => by rw [Tree.layout]⟩
  | .array keys values => by
    by_cases he : values = []
    · refine ⟨(utf8 "[]").length, fun column => ?_⟩
      rw [he, Tree.layout, if_pos List.isEmpty_nil]
    obtain ⟨bound, hb⟩ := exists_length_layoutInline_le s true (entryLabels keys) values
    let lines := layoutLines s level (arrayLines s level) (entryLabels keys) values
    refine ⟨max (bound + 2) (linesArray s level lines).length, fun column => ?_⟩
    rw [layout_array_eq he]
    split
    · rw [length_inlineArray]
      exact Nat.le_trans (Nat.add_le_add_right (hb column 0) 2) (Nat.le_max_left ..)
    · exact Nat.le_max_right ..
  | .object className names values => ⟨_, fun column => by rw [Tree.layout]⟩
  | .code text => ⟨_, fun column => by rw [Tree.layout]⟩
  | .template lead slots => ⟨_, fun column => by rw [Tree.layout]⟩

theorem exists_length_layoutInline_le (s : Settings) (counted : Bool) : ∀ (labels : List Text) (values : List Tree),
    ∃ bound, ∀ column offset, (layoutInline s column counted offset labels values).length ≤ bound
  | [], values => ⟨0, fun column offset => by rw [layoutInline_nil (.inl rfl), List.length_nil]⟩
  | _ :: _, [] => ⟨0, fun column offset => by rw [layoutInline_nil (.inr rfl), List.length_nil]⟩
  | label :: labels, t :: rest => by
    obtain ⟨bound, hb⟩ := exists_length_layout_le s 0 t
    obtain ⟨more, hm⟩ := exists_length_layoutInline_le s counted labels rest
    refine ⟨2 + label.length + bound + more, fun column offset => ?_⟩
    rw [layoutInline]
    simp only [List.length_append]
    have hs := length_separator_le offset
    have hl := hb (column + ((separator offset).length + offset + labelRoom counted label))
    have hr := hm column (offset + ((separator offset).length + label.length +
      (t.layout s 0 (column + ((separator offset).length + offset + labelRoom counted label))).length))
    omega

end

mutual

/-- The sums for a tree leave each column behind by no more than some length. -/
theorem exists_sums_le (s : Settings) (level : Nat) : ∀ t : Tree,
    ∃ bound, ∀ column, ∀ n ∈ t.sums s level column, n ≤ column + bound
  | .atom a => ⟨0, fun column n hn => by rw [Tree.sums] at hn; cases hn⟩
  | .array keys values => by
    obtain ⟨bound, hb⟩ := exists_sumsInline_le s true (entryLabels keys) values
    obtain ⟨length, hl⟩ := exists_length_layoutInline_le s true (entryLabels keys) values
    generalize hw : (sumsLines s level (arrayLines s level) (entryLabels keys) values).sum = lines
    refine ⟨bound + (level * s.indent.width + length + bracketRoom) + lines, fun column n hn => ?_⟩
    rw [Tree.sums] at hn
    split at hn
    · cases hn
    rcases List.mem_append.mp hn with hn | hn
    · have := hb column 0 n hn
      omega
    rcases List.mem_cons.mp hn with rfl | hn
    · have := hl column 0
      rw [Settings.arrayBudget]
      omega
    split at hn
    · cases hn
    · -- On lines of their own, the entries do not look at the column.
      have := List.le_sum_of_mem hn
      omega
  | .object className names values => ⟨_, fun column n hn => by
    rw [Tree.sums] at hn
    exact Nat.le_add_left_of_le (List.le_sum_of_mem hn)⟩
  | .code text => ⟨0, fun column n hn => by rw [Tree.sums] at hn; cases hn⟩
  | .template lead slots => ⟨_, fun column n hn => by
    rw [Tree.sums] at hn
    exact Nat.le_add_left_of_le (List.le_sum_of_mem hn)⟩

theorem exists_sumsInline_le (s : Settings) (counted : Bool) : ∀ (labels : List Text) (values : List Tree),
    ∃ bound, ∀ column offset, ∀ n ∈ sumsInline s column counted offset labels values, n ≤ column + offset + bound
  | [], values => ⟨0, fun column offset n hn => by rw [sumsInline_nil (.inl rfl)] at hn; cases hn⟩
  | _ :: _, [] => ⟨0, fun column offset n hn => by rw [sumsInline_nil (.inr rfl)] at hn; cases hn⟩
  | label :: labels, t :: rest => by
    obtain ⟨length, hl⟩ := exists_length_layout_le s 0 t
    obtain ⟨bound, hb⟩ := exists_sums_le s 0 t
    obtain ⟨more, hm⟩ := exists_sumsInline_le s counted labels rest
    refine ⟨2 + label.length + length + bound + more, fun column offset n hn => ?_⟩
    have hs := length_separator_le offset
    have hr : labelRoom counted label ≤ label.length := by
      unfold labelRoom
      split
      · exact Nat.le_refl _
      · exact Nat.zero_le _
    rw [sumsInline] at hn
    generalize hc : column + ((separator offset).length + offset + labelRoom counted label) = start at hn
    rcases List.mem_append.mp hn with hn | hn
    · rcases List.mem_cons.mp hn with rfl | hn
      · omega
      · have := hb start n hn
        omega
    · have := hm _ _ n hn
      have := hl start
      simp only [List.length_append] at *
      omega

end

/-! ## Exact layouts -/

/-- A value is written as by the machine that adds as great numbers as there are, if none of its sums leaves 64 bits,
and else the program is aborted. If the value can be written at all, these sums are those for its layout, and they stay
within 64 bits at all columns that leave enough room before the greatest one. -/
theorem dump_eq_exact (s : Settings) (heap : Heap) (v : Value) :
    (∀ column, dump s heap v column =
      if InRange s heap v column then (v.renderWith .exact s heap [] ⟨0, 0, column⟩).mapError .error
      else .error .overflow) ∧
    ∀ t, v.expand heap s.maxDepth 0 [] = .ok t →
      (∀ column, v.renderWith .exact s heap [] ⟨0, 0, column⟩ = .ok (t.layout s 0 column) ∧
        v.sums s heap column = t.sums s 0 column) ∧
      ∃ room, ∀ column, column + room < UInt64.size → InRange s heap v column := by
  refine ⟨dump_eq_if v, fun t ht => ⟨fun column => ⟨?_, sums_eq_of_expand ht column⟩, ?_⟩⟩
  · rw [renderWith_exact_eq, ht]
    rfl
  · obtain ⟨room, hr⟩ := exists_sums_le s 0 t
    refine ⟨room, fun column hc n hn => ?_⟩
    rw [sums_eq_of_expand ht] at hn
    exact Nat.lt_of_le_of_lt (hr column n hn) hc

/-- Far to the right, an array is put on lines of its own as exact sums demand, and the one inside back on one line. -/
theorem dump_eq_exact_nestedPair :
    InRange {} nestedPair (.array 1) (UInt64.size - 32) ∧
      dump {} nestedPair (.array 1) (UInt64.size - 32) = .ok (utf8 "[\n\t[1, true],\n\t'ab',\n]") := by
  obtain ⟨hd, ht⟩ := dump_eq_exact {} nestedPair (.array 1)
  obtain ⟨hx, -⟩ := ht _ expand_nestedPair
  obtain ⟨hl, hs⟩ := hx (UInt64.size - 32)
  have hr : InRange {} nestedPair (.array 1) (UInt64.size - 32) := by
    rw [InRange, hs]
    decide
  refine ⟨hr, ?_⟩
  rw [hd, if_pos hr, hl]
  refine congrArg Except.ok ?_
  decide

/-- Near the greatest column, a sum leaves 64 bits, and an array is not written that exact sums put on several lines. -/
theorem dump_ne_exact :
    dump {} nestedPair (.array 2) (UInt64.size - 2) = .error .overflow ∧
      UInt64.size + 2 ∈ (Value.array 2).sums {} nestedPair (UInt64.size - 2) ∧
      (Value.array 2).renderWith .exact {} nestedPair [] ⟨0, 0, UInt64.size - 2⟩ = .ok (utf8 "[\n\t1,\n]") := by
  refine ⟨?_, ?_, ?_⟩
  · rw [dump_of_expand expand_nestedPair_single, if_neg (by decide)]
  · rw [sums_eq_of_expand expand_nestedPair_single]
    decide
  · rw [renderWith_exact_eq]
    refine (congrArg (Except.map _) expand_nestedPair_single).trans (congrArg Except.ok ?_)
    decide

end PhpLiteral
