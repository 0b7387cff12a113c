import PhpLiteral.Proofs.Every
import PhpLiteral.Proofs.Layout.Basic
import PhpLiteral.Proofs.Layout.Pieces

/-!
# One-line forms

An array is written on one line exactly if its one-line form fits. The one-line form (`Tree.flat`) puts every array
inside on one line, too, and no width plays a part in it. The values inside are first tried at running columns, and
each of them chooses its layout for itself; that these choices agree with the one-line form as a whole is
`layoutInline_eq_joined`, and `render_array_eq` is the choice itself.
-/

namespace PhpLiteral

open Relation (ReflTransGen)

/-! ## One-line forms -/

mutual

/-- The text of a tree with every array on one line, however long this line gets. -/
def Tree.flat (s : Settings) : Tree → Text
  | .atom a => a.code
  | .array keys values => inlineArray ((utf8 ", ").intercalate (flatEntries s (entryLabels keys) values))
  | .object className names values =>
    objectText s 0 className ((flatEntries s (names.map propertyLabel) values).flatMap
      fun entry => s.indent.unit ++ entry ++ utf8 ",\n")
  | .code text => (Tree.code text).layout s 0 0
  | .template lead slots => (Tree.template lead slots).layout s 0 0

/-- Entries with every array on one line, each behind its label. -/
def flatEntries (s : Settings) : List Text → List Tree → List Text
  | label :: labels, t :: rest => (label ++ t.flat s) :: flatEntries s labels rest
  | _, _ => []

end

/-! ## Separators -/

/-- Entries behind others. -/
def further (entries : List Text) : Text := entries.flatMap (utf8 ", " ++ ·)

/-- Entries behind others, or the first ones; `offset` counts the bytes written before. -/
def joined (offset : Nat) (entries : List Text) : Text :=
  if offset = 0 then (utf8 ", ").intercalate entries else further entries

theorem intercalate_cons (entry : Text) (entries : List Text) :
    (utf8 ", ").intercalate (entry :: entries) = entry ++ further entries := by
  induction entries generalizing entry with
  | nil => simp [List.intercalate, further]
  | cons e entries ih =>
    have := ih e
    simp only [List.intercalate, further] at this ⊢
    rw [List.intersperse_cons_cons, List.flatten_cons, List.flatten_cons, this]
    simp

theorem joined_cons (offset : Nat) (entry : Text) (entries : List Text) :
    joined offset (entry :: entries) = separator offset ++ entry ++ further entries := by
  unfold joined separator
  split
  · rw [intercalate_cons, List.nil_append]
  · rw [further, List.flatMap_cons, further]

theorem joined_nil (offset : Nat) : joined offset [] = [] := by
  unfold joined
  split <;> rfl

/-! ## Texts of values -/

theorem code_ne_nil (a : Atom) : a.code ≠ [] := by
  cases a with
  | null => decide
  | bool b => cases b <;> decide
  | int i => exact (Syntax.isTerm_intLiteral i).ne_nil
  | float x => exact (Syntax.isTerm_floatLiteral x).ne_nil
  | string bytes => exact (Syntax.isTerm_stringLiteral bytes).ne_nil
  | dateTime d => exact (isTerm_dateTime d).ne_nil
  | enumCase className caseName => exact List.cons_ne_nil _ _
  | serialized payload => exact List.cons_ne_nil _ _
  | function name => exact List.append_ne_nil_of_right_ne_nil _ (List.cons_ne_nil _ _)
  | method className name => exact List.append_ne_nil_of_right_ne_nil _ (List.cons_ne_nil _ _)

/-- Only raw code can be laid out as nothing. -/
theorem layout_ne_nil_of_not_isCode (s : Settings) (level column : Nat) {t : Tree} (h : t.isCode = false) :
    t.layout s level column ≠ [] := by
  cases t with
  | atom a =>
    rw [Tree.layout]
    exact code_ne_nil a
  | array keys values =>
    rw [Tree.layout]
    split
    · exact List.cons_ne_nil _ _
    · simp only
      split <;> exact List.cons_ne_nil _ _
  | object className names values =>
    rw [Tree.layout]
    intro e
    have := hasLineFeed_objectText s level className
      (layoutLines s level (objectLines s level) (names.map propertyLabel) values)
    rw [e] at this
    cases this
  | code text => cases h
  | template lead slots => cases h

theorem layout_ne_nil (s : Settings) (level column : Nat) {t : Tree} (h : t.IsCodeFree) :
    t.layout s level column ≠ [] := by
  refine layout_ne_nil_of_not_isCode s level column ?_
  cases t with
  | code text => simp [Tree.IsCodeFree, Tree.Every] at h
  | template lead slots => simp [Tree.IsCodeFree, Tree.Every] at h
  | _ => rfl

/-! ## Arrays that stay on one line -/

theorem flatEntries_nil {labels : List Text} {values : List Tree} (h : labels = [] ∨ values = []) (s : Settings) :
    flatEntries s labels values = [] := by
  rcases h with rfl | rfl
  · rw [flatEntries]
    rintro _ _ _ _ ⟨⟩
  · rw [flatEntries]
    rintro _ _ _ _ - ⟨⟩

theorem keepsArray_iff {s : Settings} {level column : Nat} {inline : Text} :
    s.keepsArray level column inline = true ↔ hasLineFeed inline = false ∧
      level * s.indent.width + column + inline.length + bracketRoom ≤ s.wrapLength := by
  rw [Settings.keepsArray, Settings.fits, Settings.arrayBudget, Bool.and_eq_true, Bool.not_eq_true', decide_eq_true_eq]

mutual

/-- On the line of its parent, a tree without a line feed is written in its one-line form; so is a tree whose one-line
form has no line feed and, with one more byte, fits. -/
theorem layout_eq_flat (s : Settings) : ∀ t : Tree, t.IsCodeFree → ∀ column,
    (hasLineFeed (t.layout s 0 column) = false ∨
      hasLineFeed (t.flat s) = false ∧ column + (t.flat s).length + 1 ≤ s.wrapLength) →
    t.layout s 0 column = t.flat s
  | .atom a, _, column, _ => by rw [Tree.layout, Tree.flat]
  | .array keys values, h, column, hc => by
    rw [Tree.IsCodeFree, Tree.Every] at h
    have hf : (Tree.array keys values).flat s = inlineArray (joined 0 (flatEntries s (entryLabels keys) values)) := by
      rw [Tree.flat, joined, if_pos rfl]
    rw [hf, hasLineFeed_inlineArray, length_inlineArray] at hc
    rw [hf]
    by_cases he : values = []
    · rw [he, Tree.layout, if_pos List.isEmpty_nil, flatEntries_nil (.inr rfl), joined_nil]
      rfl
    rcases hc with hc | ⟨hc, hw⟩
    · obtain ⟨e, hi⟩ := layout_array_of_not_hasLineFeed hc
      rw [e, layoutInline_eq_joined s (entryLabels keys) values h column 0 (.inl hi)]
    · rw [layout_array_eq he,
        layoutInline_eq_joined s (entryLabels keys) values h column 0 (.inr ⟨hc, by rw [bracketRoom]; omega⟩),
        if_pos (keepsArray_iff.mpr ⟨hc, by rw [bracketRoom]; omega⟩)]
  | .object className names values, _, column, hc => by
    rw [Tree.layout, Tree.flat, hasLineFeed_objectText, hasLineFeed_objectText] at hc
    rcases hc with hc | hc
    · cases hc
    · cases hc.1
  | .code text, h, _, _ => by simp [Tree.IsCodeFree, Tree.Every] at h
  | .template lead slots, h, _, _ => by simp [Tree.IsCodeFree, Tree.Every] at h

theorem layoutInline_eq_joined (s : Settings) : ∀ (labels : List Text) (values : List Tree),
    EveryTree (fun _ => True) (fun _ => True) values → ∀ column offset,
    (hasLineFeed (layoutInline s column true offset labels values) = false ∨
      hasLineFeed (joined offset (flatEntries s labels values)) = false ∧
        column + offset + (joined offset (flatEntries s labels values)).length + bracketRoom ≤ s.wrapLength) →
    layoutInline s column true offset labels values = joined offset (flatEntries s labels values)
  | [], values, _, column, offset, _ => by
    rw [layoutInline_nil (.inl rfl), flatEntries_nil (.inl rfl), joined_nil]
  | _ :: _, [], _, column, offset, _ => by
    rw [layoutInline_nil (.inr rfl), flatEntries_nil (.inr rfl), joined_nil]
  | label :: labels, t :: rest, h, column, offset, hc => by
    rw [EveryTree] at h
    rw [flatEntries, joined_cons] at hc ⊢
    rw [layoutInline] at hc ⊢
    generalize hd : column + ((separator offset).length + offset + labelRoom true label) = c at hc ⊢
    have ht : t.layout s 0 c = t.flat s := by
      refine layout_eq_flat s t h.1 c (hc.imp ?_ ?_) <;> simp only [hasLineFeed_append, Bool.or_eq_false_iff]
      · exact fun hf => hf.1.2
      · rintro ⟨hf, hw⟩
        -- The brackets of the parent leave the one more byte that is asked for.
        simp only [List.length_append, labelRoom, if_true, bracketRoom] at hd hw
        exact ⟨hf.1.2.2, by omega⟩
    rw [ht] at hc ⊢
    have hn : 0 < (t.flat s).length := List.length_pos_iff.mpr (ht ▸ layout_ne_nil s 0 c h.1)
    have ho : offset + (separator offset ++ label ++ t.flat s).length ≠ 0 := by
      rw [List.length_append]
      omega
    have hr := layoutInline_eq_joined s labels rest h.2 column (offset + (separator offset ++ label ++ t.flat s).length)
    rw [joined, if_neg ho] at hr
    rw [hr, List.append_assoc (separator offset)]
    refine hc.imp ?_ ?_ <;> simp only [hasLineFeed_append, Bool.or_eq_false_iff]
    · exact fun hf => hf.2
    · rintro ⟨hf, hw⟩
      simp only [List.length_append] at hw ⊢
      exact ⟨hf.2, by omega⟩

end

/-! ## The choice -/

/-- The body of an array on one line, with every array inside on this line. -/
def flatBody (s : Settings) (keys : List Key) (values : List Tree) : Text :=
  (utf8 ", ").intercalate (flatEntries s (entryLabels keys) values)

theorem layoutInline_eq_flatBody {s : Settings} {column : Nat} {keys : List Key} {values : List Tree}
    (h : EveryTree (fun _ => True) (fun _ => True) values)
    (hc : hasLineFeed (layoutInline s column true 0 (entryLabels keys) values) = false ∨
      hasLineFeed (flatBody s keys values) = false ∧
        column + (flatBody s keys values).length + bracketRoom ≤ s.wrapLength) :
    layoutInline s column true 0 (entryLabels keys) values = flatBody s keys values :=
  layoutInline_eq_joined s (entryLabels keys) values h column 0 hc

/-- An array with entries is laid out in its one-line form exactly if this form has no line feed and fits. -/
theorem layout_array_eq_flat {s : Settings} {level column : Nat} {keys : List Key} {values : List Tree}
    (he : values ≠ []) (h : EveryTree (fun _ => True) (fun _ => True) values) :
    (Tree.array keys values).layout s level column =
      if hasLineFeed (flatBody s keys values) = false ∧
          level * s.indent.width + column + (flatBody s keys values).length + bracketRoom ≤ s.wrapLength then
        inlineArray (flatBody s keys values)
      else linesArray s level (layoutLines s level (arrayLines s level) (entryLabels keys) values) := by
  rw [layout_array_eq he]
  split
  · rename_i hk
    have e := layoutInline_eq_flatBody h (.inl (keepsArray_iff.mp hk).1)
    rw [e] at hk ⊢
    rw [if_pos (keepsArray_iff.mp hk)]
  · rename_i hk
    rw [if_neg]
    rintro ⟨hf, hle⟩
    apply hk
    rw [layoutInline_eq_flatBody h (.inr ⟨hf, by omega⟩), keepsArray_iff]
    exact ⟨hf, hle⟩

/-- The width of a line up to the separator behind an array on it, with the level and the column of its place and
its body on one line. -/
def Settings.arrayWidth (s : Settings) (f : Frame) (flat : Text) : Nat :=
  f.level * s.indent.width + f.column + flat.length + 3

/-- An array at a place in its one-line form if this form has no line feed and fits, and else on several lines. -/
def chosenArray (s : Settings) (f : Frame) (flat lines : Text) : Text :=
  if hasLineFeed flat = false ∧ s.arrayWidth f flat ≤ s.wrapLength then utf8 "[" ++ flat ++ utf8 "]"
  else utf8 "[\n" ++ s.indent.levels f.level ++ lines ++ utf8 "]"

/-- At every place where it can be written, an array with entries is written in its one-line form if this form has no
line feed and fits, and on several lines otherwise. -/
theorem render_array_eq {s : Settings} {heap : Heap} {chain : List Ref} {f : Frame} {id : Nat} {text : Text}
    (hv : ∀ w, ReflTransGen heap.Holds (.array id) w → w.kind ≠ .literal) (hn : (heap.array id).values ≠ [])
    (h : (Value.array id).render s heap chain f = .ok text) :
    ∃ trees lines,
      expandAll heap s.maxDepth (f.depth + 1) (.array id :: chain) (heap.array id).values = .ok trees ∧
      renderLinesWith .exact s heap (.array id :: chain) f (arrayLines s f.level) (entryLabels (heap.array id).keys)
        (heap.array id).values = .ok lines ∧
      text = chosenArray s f (flatBody s (heap.array id).keys trees) lines := by
  obtain ⟨t, ht, rfl⟩ := exists_of_render h
  have hc := every_of_expand chain f.depth (.array id) (fun w hw => meets_of_kind_ne (hv w hw)) ht
  rw [Value.expand, if_neg (by simpa using hn)] at ht
  split at ht
  · obtain ⟨trees, htrees, rfl⟩ := map_eq_ok.mp ht
    rw [Tree.Every] at hc
    have hl : (entryLabels (heap.array id).keys).length = (heap.array id).values.length := by
      rw [length_entryLabels, length_keys]
    have hne : trees ≠ [] := by
      rintro rfl
      exact hn (List.length_eq_zero_iff.mp (length_of_expandAll htrees).symm)
    exact ⟨trees, _, htrees, by rw [renderLinesWith_exact_eq _ _ f hl, htrees]; rfl, layout_array_eq_flat hne hc⟩
  · cases ht

/-- An array in an array, and an array of one entry. -/
def nestedPair : Heap where
  arrays := [.ofList [.atom (.int 1), .atom (.bool true)], .ofList [.array 0, .atom (.string (utf8 "ab"))],
    .ofList [.atom (.int 1)]]
  objects := []

theorem values_nestedPair :
    (nestedPair.array 0).values = [.atom (.int 1), .atom (.bool true)] ∧
      (nestedPair.array 1).values = [.array 0, .atom (.string (utf8 "ab"))] ∧
      (nestedPair.array 2).values = [.atom (.int 1)] := ⟨rfl, rfl, rfl⟩

theorem kind_ne_literal_nestedPair {w : Value} (hw : ReflTransGen nestedPair.Holds (.array 1) w) :
    w.kind ≠ .literal := by
  obtain ⟨h₀, h₁, -⟩ := values_nestedPair
  have : w = .array 1 ∨ w = .array 0 ∨ ∃ a, w = .atom a := by
    induction hw with
    | refl => exact .inl rfl
    | tail _ h ih =>
      rcases ih with rfl | rfl | ⟨a, rfl⟩ <;> cases h <;> rename_i hm
      · rw [h₁] at hm
        simp only [List.mem_cons, List.not_mem_nil, or_false] at hm
        rcases hm with rfl | rfl <;> simp
      · rw [h₀] at hm
        simp only [List.mem_cons, List.not_mem_nil, or_false] at hm
        rcases hm with rfl | rfl <;> simp
  rcases this with rfl | rfl | ⟨a, rfl⟩
  · simp [Value.kind]
  · simp [Value.kind]
  · cases a <;> simp [Value.kind, Atom.kind]

theorem expand_nestedPair : (Value.array 1).expand nestedPair 50 0 [] = .ok (.array (nestedPair.array 1).keys
    [.array (nestedPair.array 0).keys [.atom (.int 1), .atom (.bool true)], .atom (.string (utf8 "ab"))]) := by
  obtain ⟨h₀, h₁, -⟩ := values_nestedPair
  simp [Value.expand, expandAll, h₀, h₁, Except.map, bind, Except.bind, pure, Except.pure]

/-- One byte is missing for the one-line form. -/
theorem render_nestedPair : (Value.array 1).render { wrapLength := 22 } nestedPair [] ⟨1, 0, 1⟩ =
    .ok (utf8 "[\n\t\t[1, true],\n\t\t'ab',\n\t]") := by
  rw [render_of_expand expand_nestedPair, if_pos (by decide)]
  refine congrArg Except.ok ?_
  decide

theorem render_array_eq_nestedPair : ∃ trees lines,
    expandAll nestedPair 50 1 [.array 1] (nestedPair.array 1).values = .ok trees ∧
    renderLinesWith .exact { wrapLength := 22 } nestedPair [.array 1] ⟨1, 0, 1⟩ (arrayLines { wrapLength := 22 } 1)
      (entryLabels (nestedPair.array 1).keys) (nestedPair.array 1).values = .ok lines ∧
    utf8 "[\n\t\t[1, true],\n\t\t'ab',\n\t]" = chosenArray { wrapLength := 22 } ⟨1, 0, 1⟩
      (flatBody { wrapLength := 22 } (nestedPair.array 1).keys trees) lines :=
  render_array_eq (fun _ => kind_ne_literal_nestedPair) (by decide) render_nestedPair

theorem expandAll_nestedPair_single :
    expandAll nestedPair 50 1 [.array 2] (nestedPair.array 2).values = .ok [.atom (.int 1)] := by
  rw [values_nestedPair.2.2]
  simp [Value.expand, expandAll, bind, Except.bind, pure, Except.pure]

theorem expand_nestedPair_single :
    (Value.array 2).expand nestedPair 50 0 [] = .ok (.array (nestedPair.array 2).keys [.atom (.int 1)]) := by
  have hn : (nestedPair.array 2).values.isEmpty = false := rfl
  simp [Value.expand, hn, expandAll_nestedPair_single, Except.map]

end PhpLiteral
