import PhpLiteral.Proofs.Syntax.Lexeme
import PhpLiteral.Proofs.Text.Lines
import PhpLiteral.Proofs.Tree

/-!
# Equations of layouts

What units of indentation consist of, and the equations by which arrays and entries are laid out.
-/

namespace PhpLiteral

/-! ## Indentation -/

theorem unit_length_pos (i : Indent) : 0 < i.unit.length := by
  cases i with
  | tab => decide
  | spaces count =>
    simp only [Indent.unit, List.length_replicate]
    split
    · rename_i h
      simp only [Indent.isCount, Bool.and_eq_true, decide_eq_true_eq] at h
      omega
    · decide

theorem levels_succ (i : Indent) (n : Nat) : i.levels n ++ i.unit = i.levels (n + 1) := by
  simp [Indent.levels, List.replicate_succ']

theorem length_levels (i : Indent) (n : Nat) : (i.levels n).length = n * i.unit.length := by
  simp [Indent.levels]

theorem mem_unit_of_mem_levels {i : Indent} {n : Nat} {b : UInt8} (h : b ∈ i.levels n) : b ∈ i.unit := by
  obtain ⟨u, hu, hb⟩ := List.mem_flatten.mp h
  rwa [List.eq_of_mem_replicate hu] at hb

theorem hasLineFeed_levels (i : Indent) (n : Nat) : hasLineFeed (i.levels n) = false := by
  rw [hasLineFeed_eq_false]
  intro h
  have := mem_unit_of_mem_levels h
  cases i with
  | tab => exact absurd this (by decide)
  | spaces count => exact absurd (List.eq_of_mem_replicate this) (by decide)

theorem isSpace_of_mem_unit {i : Indent} {b : UInt8} (h : b ∈ i.unit) : Syntax.isSpace b = true := by
  cases i with
  | spaces count => rw [List.eq_of_mem_replicate h]; rfl
  | tab => rw [List.mem_singleton.mp h]; rfl

theorem isSpace_of_mem_levels {i : Indent} {n : Nat} {b : UInt8} (h : b ∈ i.levels n) : Syntax.isSpace b = true :=
  isSpace_of_mem_unit (mem_unit_of_mem_levels h)

/-! ## Containers -/

theorem hasLineFeed_inlineArray (inline : Text) : hasLineFeed (inlineArray inline) = hasLineFeed inline := by
  have ho : hasLineFeed (utf8 "[") = false := rfl
  have hc : hasLineFeed (utf8 "]") = false := rfl
  rw [inlineArray, hasLineFeed_append, hasLineFeed_append, ho, hc, Bool.false_or, Bool.or_false]

theorem hasLineFeed_linesArray (s : Settings) (level : Nat) (lines : Text) :
    hasLineFeed (linesArray s level lines) = true := by
  rw [linesArray, hasLineFeed_append, hasLineFeed_append, hasLineFeed_append]
  rfl

theorem hasLineFeed_objectText (s : Settings) (level : Nat) (className lines : Text) :
    hasLineFeed (objectText s level className lines) = true := by
  have hb : hasLineFeed (utf8 "\n") = true := rfl
  simp [objectText, hb]

theorem length_inlineArray (inline : Text) : (inlineArray inline).length = inline.length + 2 := by
  rw [inlineArray, List.length_append, List.length_append]
  show 1 + inline.length + 1 = _
  omega

/-! ## Entries -/

theorem layoutInline_nil {labels : List Text} {values : List Tree} (h : labels = [] ∨ values = []) (s : Settings)
    (column : Nat) (counted : Bool) (offset : Nat) : layoutInline s column counted offset labels values = [] := by
  rcases h with rfl | rfl
  · rw [layoutInline]
    rintro _ _ _ _ ⟨⟩
  · rw [layoutInline]
    rintro _ _ _ _ - ⟨⟩

theorem layoutLines_nil {labels : List Text} {values : List Tree} (h : labels = [] ∨ values = []) (s : Settings)
    (level : Nat) (style : LineStyle) : layoutLines s level style labels values = [] := by
  rcases h with rfl | rfl
  · rw [layoutLines]
    rintro _ _ _ _ ⟨⟩
  · rw [layoutLines]
    rintro _ _ _ _ - ⟨⟩

theorem exists_layoutInline_cons (s : Settings) (column : Nat) (counted : Bool) (offset : Nat) (label : Text)
    (labels : List Text) (t : Tree) (rest : List Tree) :
    ∃ c o, layoutInline s column counted offset (label :: labels) (t :: rest) =
        separator offset ++ (label ++ t.layout s 0 c) ++ layoutInline s column counted o labels rest ∧
      o = offset + (separator offset).length + label.length + (t.layout s 0 c).length := by
  refine ⟨column + ((separator offset).length + offset + labelRoom counted label), _, ?_, rfl⟩
  rw [layoutInline, List.append_assoc (separator offset)]
  simp only [List.length_append, Nat.add_assoc]

/-- An array with entries is on one line exactly if its entries on one line may stay there. -/
theorem layout_array_eq {values : List Tree} (he : values ≠ []) (s : Settings) (level column : Nat)
    (keys : List Key) :
    (Tree.array keys values).layout s level column =
      if s.keepsArray level column (layoutInline s column true 0 (entryLabels keys) values) then
        inlineArray (layoutInline s column true 0 (entryLabels keys) values)
      else linesArray s level (layoutLines s level (arrayLines s level) (entryLabels keys) values) := by
  rw [Tree.layout, if_neg (by rwa [List.isEmpty_iff])]

/-- An array is laid out on one line or on several. -/
theorem layout_array_cases (s : Settings) (level column : Nat) (keys : List Key) (values : List Tree) :
    (Tree.array keys values).layout s level column =
        inlineArray (layoutInline s column true 0 (entryLabels keys) values) ∨
      (Tree.array keys values).layout s level column =
        linesArray s level (layoutLines s level (arrayLines s level) (entryLabels keys) values) := by
  by_cases he : values = []
  · rw [he, Tree.layout, if_pos List.isEmpty_nil, layoutInline_nil (.inr rfl)]
    exact .inl rfl
  · rw [layout_array_eq he]
    split
    · exact .inl rfl
    · exact .inr rfl

theorem layout_array_of_not_hasLineFeed {s : Settings} {level column : Nat} {keys : List Key} {values : List Tree}
    (h : hasLineFeed ((Tree.array keys values).layout s level column) = false) :
    (Tree.array keys values).layout s level column =
        inlineArray (layoutInline s column true 0 (entryLabels keys) values) ∧
      hasLineFeed (layoutInline s column true 0 (entryLabels keys) values) = false := by
  rcases layout_array_cases s level column keys values with e | e
  · rw [e, hasLineFeed_inlineArray] at h
    exact ⟨e, h⟩
  · rw [e, hasLineFeed_linesArray] at h
    cases h

end PhpLiteral
