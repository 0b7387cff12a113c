import PhpLiteral.Proofs.Layout.Flat

/-!
# The column where a text starts

What the column of a value changes. Wherever a tree starts, as long as nothing in it is put on a new line it has one
and the same text, and it has this text at every column where that fits (`layout_eq_of_not_hasLineFeed`). An object or
raw code does not look at the column at all. So only the choice of the outermost array is left, and there is one column
up to which it stays on one line (`layout_array_column`, `dump_column`).
-/

namespace PhpLiteral

/-! ## Two columns -/

mutual

/-- A tree that has no line feed at one column has the same text at each column where it has no line feed either, or
where this text, with one more byte, fits. -/
theorem layout_eq_of_not_hasLineFeed {s : Settings} : ∀ {t : Tree} {c c' : Nat},
    hasLineFeed (t.layout s 0 c) = false →
    (hasLineFeed (t.layout s 0 c') = false ∨ c' + (t.layout s 0 c).length + 1 ≤ s.wrapLength) →
    t.layout s 0 c' = t.layout s 0 c
  | .atom a, _, _, _, _ => by rw [Tree.layout, Tree.layout]
  | .code text, _, _, _, _ => by rw [Tree.layout, Tree.layout]
  | .template lead slots, _, _, _, _ => by rw [Tree.layout, Tree.layout]
  | .object className names values, _, _, _, _ => by rw [Tree.layout, Tree.layout]
  | .array keys values, c, c', h, h' => by
    by_cases he : values = []
    · rw [he, Tree.layout, Tree.layout, if_pos List.isEmpty_nil, if_pos List.isEmpty_nil]
    obtain ⟨e, hi⟩ := layout_array_of_not_hasLineFeed h
    rw [e, length_inlineArray] at h'
    rw [e]
    rcases h' with h' | h'
    · obtain ⟨e', hi'⟩ := layout_array_of_not_hasLineFeed h'
      rw [e', layoutInline_eq_of_not_hasLineFeed hi (.inl hi')]
    · rw [layout_array_eq he, layoutInline_eq_of_not_hasLineFeed hi (.inr (by rw [bracketRoom]; omega)),
        if_pos (keepsArray_iff.mpr ⟨hi, by rw [bracketRoom]; omega⟩)]

/-- The same of trees on the line of an array. -/
theorem layoutInline_eq_of_not_hasLineFeed {s : Settings} : ∀ {labels : List Text} {values : List Tree}
    {c c' offset : Nat}, hasLineFeed (layoutInline s c true offset labels values) = false →
    (hasLineFeed (layoutInline s c' true offset labels values) = false ∨
      c' + offset + (layoutInline s c true offset labels values).length + bracketRoom ≤ s.wrapLength) →
    layoutInline s c' true offset labels values = layoutInline s c true offset labels values
  | [], _, _, _, _, _, _ => by rw [layoutInline_nil (.inl rfl), layoutInline_nil (.inl rfl)]
  | _ :: _, [], _, _, _, _, _ => by rw [layoutInline_nil (.inr rfl), layoutInline_nil (.inr rfl)]
  | label :: labels, t :: rest, c, c', offset, h, h' => by
    rw [layoutInline] at h h' ⊢
    rw [layoutInline] at h' ⊢
    simp only [hasLineFeed_append, Bool.or_eq_false_iff, List.length_append, labelRoom, if_true] at h h' ⊢
    have ht : t.layout s 0 (c' + ((separator offset).length + offset + label.length)) =
        t.layout s 0 (c + ((separator offset).length + offset + label.length)) := by
      refine layout_eq_of_not_hasLineFeed h.1.2 (h'.imp (fun h' => h'.1.2) fun h' => ?_)
      -- The brackets of the array leave the one more byte that is asked for.
      rw [bracketRoom] at h'
      omega
    rw [ht] at h' ⊢
    rw [layoutInline_eq_of_not_hasLineFeed h.2 (h'.imp (fun h' => h'.2) fun h' => by omega)]

end

/-! ## The outermost array -/

/-- An array with entries stays on one line exactly up to one column, or it never does. On one line it has the same text
at all columns. -/
theorem layout_array_column (s : Settings) (keys : List Key) {values : List Tree} (he : values ≠ []) :
    let lines := linesArray s 0 (layoutLines s 0 (arrayLines s 0) (entryLabels keys) values)
    (∀ column, (Tree.array keys values).layout s 0 column = lines) ∨
      ∃ first threshold, hasLineFeed first = false ∧ ∀ column,
        (Tree.array keys values).layout s 0 column = if column ≤ threshold then first else lines := by
  intro lines
  let inline := fun column => layoutInline s column true 0 (entryLabels keys) values
  have hl : ∀ column, (Tree.array keys values).layout s 0 column =
      if s.keepsArray 0 column (inline column) then inlineArray (inline column) else lines :=
    fun column => layout_array_eq he s 0 column keys
  have hk : ∀ column, s.keepsArray 0 column (inline column) = true ↔
      hasLineFeed (inline column) = false ∧ column + (inline column).length + bracketRoom ≤ s.wrapLength := by
    intro column
    rw [keepsArray_iff, Nat.zero_mul, Nat.zero_add]
  have hi : ∀ c column, hasLineFeed (inline c) = false → (hasLineFeed (inline column) = false ∨
      column + (inline c).length + bracketRoom ≤ s.wrapLength) → inline column = inline c :=
    fun _ _ h h' => layoutInline_eq_of_not_hasLineFeed h h'
  by_cases hc : ∃ c, hasLineFeed (inline c) = false ∧ (inline c).length + bracketRoom ≤ s.wrapLength
  · obtain ⟨c, hf, hw⟩ := hc
    refine .inr ⟨inlineArray (inline c), s.wrapLength - ((inline c).length + bracketRoom),
      by rw [hasLineFeed_inlineArray, hf], fun column => ?_⟩
    rw [hl]
    by_cases hle : column ≤ s.wrapLength - ((inline c).length + bracketRoom)
    · have e := hi c column hf (.inr (by omega))
      have hw' : column + (inline column).length + bracketRoom ≤ s.wrapLength := by
        rw [congrArg List.length e]
        omega
      rw [if_pos ((hk column).mpr ⟨e ▸ hf, hw'⟩), if_pos hle, e]
    · rw [if_neg hle, if_neg]
      intro h
      obtain ⟨hf', hw'⟩ := (hk column).mp h
      have e := hi c column hf (.inl hf')
      rw [e] at hw'
      omega
  · refine .inl fun column => ?_
    rw [hl, if_neg]
    intro h
    obtain ⟨hf, hw⟩ := (hk column).mp h
    exact hc ⟨column, hf, by omega⟩

/-! ## The column of a value -/

/-- The text of a value other than an array does not depend on the column. -/
theorem layout_column_eq {s : Settings} {heap : Heap} {maxDepth depth level c c' : Nat} {chain : List Ref} {v : Value}
    {t : Tree} (hv : ∀ id, v ≠ .array id) (h : v.expand heap maxDepth depth chain = .ok t) :
    t.layout s level c = t.layout s level c' := by
  cases v with
  | array id => exact absurd rfl (hv id)
  | atom a =>
    rw [Value.expand] at h
    cases h
    rw [Tree.layout, Tree.layout]
  | object id =>
    obtain ⟨-, ts, -, rfl⟩ := exists_of_expand_object h
    rw [Tree.layout, Tree.layout]
  | literal code args => obtain ⟨-, rfl⟩ | ⟨slots, -, rfl⟩ := expand_literal_cases h <;> rw [Tree.layout, Tree.layout]
  | capturing =>
    rw [Value.expand] at h
    cases h
  | resource kind =>
    rw [Value.expand] at h
    cases h

/-- The column only moves the choice for the outermost array. As it grows, as long as no sum leaves 64 bits, a value is
always refused with the same error, or it always has the same text, or it has one text without a line feed up to some
column and one other text behind it; raw code in the first one may still hold a carriage return. The other text is an
array with its entries on lines of their own, and no text on these lines depends on the column. -/
theorem dump_column (s : Settings) (heap : Heap) (v : Value) :
    (∃ e, ∀ column, dump s heap v column = .error (if InRange s heap v column then .error e else .overflow)) ∨
      (∃ text, ∀ column, dump s heap v column = if InRange s heap v column then .ok text else .error .overflow) ∨
      ∃ first second threshold, hasLineFeed first = false ∧ hasLineFeed second = true ∧
        (∀ column, dump s heap v column =
          if InRange s heap v column then .ok (if column ≤ threshold then first else second) else .error .overflow) ∧
        ∃ id lines, v = .array id ∧ second = linesArray s 0 lines ∧
          ∀ column, renderLinesWith .exact s heap [.array id] ⟨0, 0, column⟩ (arrayLines s 0)
            (entryLabels (heap.array id).keys) (heap.array id).values = .ok lines := by
  cases ht : v.expand heap s.maxDepth 0 [] with
  | error e => exact .inl ⟨e, dump_of_expand_error ht⟩
  | ok t =>
    have hd : ∀ column, dump s heap v column =
        if InRange s heap v column then .ok (t.layout s 0 column) else .error .overflow :=
      fun column => by rw [dump_eq, ht]; rfl
    cases v with
    | array id =>
      obtain ⟨-, rfl⟩ | ⟨-, ts, hts, rfl⟩ := expand_array_cases ht
      · exact .inr (.inl ⟨utf8 "[]", fun column => by rw [hd, Tree.layout, if_pos List.isEmpty_nil]⟩)
      have hl : (entryLabels (heap.array id).keys).length = (heap.array id).values.length := by
        rw [length_entryLabels, length_keys]
      by_cases he : ts = []
      · exact .inr (.inl ⟨utf8 "[]", fun column => by rw [hd, he, Tree.layout, if_pos List.isEmpty_nil]⟩)
      rcases layout_array_column s (heap.array id).keys he with hc | ⟨first, threshold, hf, hc⟩
      · exact .inr (.inl ⟨_, fun column => by rw [hd, hc column]⟩)
      · have hlines : ∀ column, renderLinesWith .exact s heap [.array id] ⟨0, 0, column⟩ (arrayLines s 0)
            (entryLabels (heap.array id).keys) (heap.array id).values =
              .ok (layoutLines s 0 (arrayLines s 0) (entryLabels (heap.array id).keys) ts) := fun column => by
          rw [renderLinesWith_exact_eq _ _ _ hl, hts]
          rfl
        exact .inr (.inr ⟨first, linesArray s 0 _, threshold, hf, hasLineFeed_linesArray ..,
          fun column => by rw [hd, hc column], id, _, rfl, rfl, hlines⟩)
    | _ => exact .inr (.inl ⟨t.layout s 0 0, fun column => by rw [hd, layout_column_eq (by simp) ht]⟩)

/-- With 20 bytes on a line, the third byte before the pair moves it to several lines. -/
example : dump { wrapLength := 20 } nestedPair (.array 1) 2 = .ok (utf8 "[[1, true], 'ab']") ∧
    dump { wrapLength := 20 } nestedPair (.array 1) 3 = .ok (utf8 "[\n\t[1, true],\n\t'ab',\n]") := by
  rw [dump_of_expand expand_nestedPair, dump_of_expand expand_nestedPair, if_pos (by decide), if_pos (by decide)]
  exact ⟨congrArg Except.ok (by decide), congrArg Except.ok (by decide)⟩

end PhpLiteral
