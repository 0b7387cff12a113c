import PhpLiteral.Proofs.Layout.Flat
import PhpLiteral.Proofs.Template
import PhpLiteral.Proofs.Walk

/-!
# Lines before a template

What lines without placeholders before a template change. They stay as they are, and what follows them is filled as
on its own, but for its first line: behind a line feed a column is one more than the number of bytes since, so that
this line is laid out as if it started at column 1 (`format_lines_append`). This shows only if a width on it is the
greatest one that fits (`Tree.isTight`, `slotsTight`).
-/

namespace PhpLiteral

/-! ## Marks behind lines -/

theorem question_mem_spelling : ∀ m ∈ Mark.all, Ascii.question ∈ m.spelling ∧ Ascii.lineFeed ∉ m.spelling := by
  decide

/-- No mark starts before a line feed that comes before all question marks. -/
theorem start?_eq_none {q : Text} (hq : Ascii.question ∉ q) (hl : Ascii.lineFeed ∈ q) (t : Text) :
    Mark.start? (q ++ t) = none := by
  rw [Mark.start?, List.find?_eq_none]
  intro m hm hp
  obtain ⟨hq', hl'⟩ := question_mem_spelling m hm
  rcases List.prefix_or_prefix_of_prefix (List.isPrefixOf_iff_prefix.mp hp) (List.prefix_append q t) with h | h
  · exact hq (h.subset hq')
  · exact hl' (h.subset hl)

/-- Lines without question marks are text of a template. -/
theorem parse_append {p : Text} (hq : Ascii.question ∉ p) (hl : ∀ b ∈ p.getLast?, b = Ascii.lineFeed) (t : Text) :
    Template.parse (p ++ t) = ⟨p ++ (Template.parse t).lead, (Template.parse t).slots⟩ := by
  induction p with
  | nil => rfl
  | cons b p ih =>
    have hm : Ascii.lineFeed ∈ b :: p := by
      have hc := List.getLast?_eq_some_getLast (List.cons_ne_nil b p)
      rw [← hl _ hc]
      exact List.getLast_mem _
    have hs := start?_eq_none hq hm t
    have ih := ih (fun h => hq (List.mem_cons_of_mem b h)) fun c hc => hl c <| by
      rw [List.getLast?_cons, Option.mem_def.mp hc]
      rfl
    rw [List.cons_append] at hs ⊢
    rw [Template.parse] at ih ⊢
    rw [Token.scan_byte hs, ofTokens_consByte, ih, List.cons_append]

/-! ## Columns -/

theorem columnAfter_of_hasLineFeed {t : Text} (h : hasLineFeed t = true) (column : Nat) :
    columnAfter column t = (lineBefore t).length + 1 := by
  rw [columnAfter, if_pos h, lineBefore, List.length_reverse]

theorem columnAfter_of_not_hasLineFeed {t : Text} (h : hasLineFeed t = false) (column : Nat) :
    columnAfter column t = column + t.length := by
  rw [columnAfter, if_neg (by rw [h]; exact Bool.false_ne_true)]

/-- The column behind two texts is the column behind the second one from the column behind the first one. -/
theorem columnAfter_append (column : Nat) (t u : Text) :
    columnAfter column (t ++ u) = columnAfter (columnAfter column t) u := by
  cases hu : hasLineFeed u with
  | true =>
    rw [columnAfter_of_hasLineFeed (by simp [hu]), columnAfter_of_hasLineFeed hu, lineBefore_append_of_hasLineFeed t hu]
  | false =>
    rw [columnAfter_of_not_hasLineFeed hu]
    cases ht : hasLineFeed t with
    | true =>
      rw [columnAfter_of_hasLineFeed (by simp [ht]), columnAfter_of_hasLineFeed ht,
        lineBefore_append_of_not_hasLineFeed t hu, List.length_append]
      omega
    | false =>
      rw [columnAfter_of_not_hasLineFeed (by simp [ht, hu]), columnAfter_of_not_hasLineFeed ht, List.length_append,
        Nat.add_assoc]

/-! ## One column further -/

/-- Whether an array with these entries on one line stays on this line, but not with one more byte before it, or the
other way around. -/
def Settings.isTightArray (s : Settings) (level column : Nat) (inline : Text) : Bool :=
  s.keepsArray level (column + 1) inline != s.keepsArray level column inline

/-- The same of arguments. -/
def Settings.areTightArguments (s : Settings) (column count : Nat) (inline : Text) : Bool :=
  s.keepsArguments (column + 1) count inline != s.keepsArguments column count inline

mutual

/-- Whether one more byte before a tree changes whether an array on its first line stays there. -/
def Tree.isTight (s : Settings) (level column : Nat) : Tree → Bool
  | .array keys values =>
    !values.isEmpty && (inlineTight s column true 0 (entryLabels keys) values ||
      s.isTightArray level column (layoutInline s column true 0 (entryLabels keys) values))
  | _ => false

/-- The same of trees on the line of their parent. -/
def inlineTight (s : Settings) (column : Nat) (counted : Bool) (offset : Nat) : List Text → List Tree → Bool
  | label :: labels, tree :: rest =>
    let before := (separator offset).length + offset + labelRoom counted label
    let entry := separator offset ++ label ++ tree.layout s 0 (column + before)
    tree.isTight s 0 (column + before) || inlineTight s column counted (offset + entry.length) labels rest
  | _, _ => false

end

/-- The same of a filled place. -/
def Slot.isTight (s : Settings) (column : Nat) : Slot → Bool
  | .value tree => tree.isTight s 0 column
  | .name _ _ => false
  | .member _ _ => false
  | .arguments named keys values =>
    let labels := keys.map (argumentLabel named)
    inlineTight s column false 0 labels values ||
      s.areTightArguments column values.length (layoutInline s column false 0 labels values)

/-- The same of the filled places of a template, the first one at a column. -/
def slotsTight (s : Settings) (column : Nat) : List (Slot × Text) → Bool
  | [] => false
  | (slot, after) :: rest =>
    let filled := slot.layout s column ++ after
    slot.isTight s column || (!hasLineFeed filled && slotsTight s (columnAfter column filled) rest)

mutual

/-- A tree of which nothing is tight has the same layout one column further. -/
theorem layout_succ {s : Settings} : ∀ {t : Tree} {level column : Nat}, t.isTight s level column = false →
    t.layout s level (column + 1) = t.layout s level column
  | .atom _, _, _, _ => by rw [Tree.layout, Tree.layout]
  | .code _, _, _, _ => by rw [Tree.layout, Tree.layout]
  | .object _ _ _, _, _, _ => by rw [Tree.layout, Tree.layout]
  | .template _ _, _, _, _ => by rw [Tree.layout, Tree.layout]
  | .array keys values, level, column, h => by
    by_cases he : values = []
    · rw [he, Tree.layout, Tree.layout, if_pos List.isEmpty_nil, if_pos List.isEmpty_nil]
    rw [Tree.isTight, List.isEmpty_eq_false_iff.mpr he, Bool.not_false, Bool.true_and, Bool.or_eq_false_iff] at h
    have hk := h.2
    rw [Settings.isTightArray, bne_eq_false_iff_eq] at hk
    rw [layout_array_eq he, layout_array_eq he, layoutInline_succ h.1, hk]

theorem layoutInline_succ {s : Settings} {counted : Bool} : ∀ {labels : List Text} {values : List Tree}
    {column offset : Nat}, inlineTight s column counted offset labels values = false →
      layoutInline s (column + 1) counted offset labels values = layoutInline s column counted offset labels values
  | [], _, _, _, _ => by rw [layoutInline_nil (.inl rfl), layoutInline_nil (.inl rfl)]
  | _ :: _, [], _, _, _ => by rw [layoutInline_nil (.inr rfl), layoutInline_nil (.inr rfl)]
  | label :: labels, t :: rest, column, offset, h => by
    rw [inlineTight, Bool.or_eq_false_iff] at h
    rw [layoutInline, layoutInline, Nat.add_right_comm column 1, layout_succ h.1]
    simp only [layoutInline_succ h.2]

end

theorem slotLayout_succ {s : Settings} {slot : Slot} {column : Nat} (h : slot.isTight s column = false) :
    slot.layout s (column + 1) = slot.layout s column := by
  cases slot with
  | value t =>
    rw [Slot.isTight] at h
    rw [Slot.layout, Slot.layout, layout_succ h]
  | name connective name => rw [Slot.layout, Slot.layout]
  | member connective t => rw [Slot.layout, Slot.layout]
  | arguments named keys values =>
    rw [Slot.isTight, Bool.or_eq_false_iff] at h
    have hk := h.2
    rw [Settings.areTightArguments, bne_eq_false_iff_eq] at hk
    rw [Slot.layout, Slot.layout]
    simp only [layoutInline_succ h.1, hk]

/-- Filled places of which nothing on the first line is tight have the same layout one column further. -/
theorem layoutSlots_succ {s : Settings} {slots : List (Slot × Text)} {column : Nat}
    (h : slotsTight s column slots = false) : layoutSlots s (column + 1) slots = layoutSlots s column slots := by
  induction slots generalizing column with
  | nil => rw [layoutSlots, layoutSlots]
  | cons entry rest ih =>
    obtain ⟨slot, after⟩ := entry
    rw [slotsTight, Bool.or_eq_false_iff, Bool.and_eq_false_iff] at h
    rw [layoutSlots, layoutSlots, slotLayout_succ h.1]
    refine congrArg _ ?_
    rcases h.2 with hl | hr
    · -- Behind a line feed the column before it does not matter.
      rw [Bool.not_eq_false'] at hl
      rw [columnAfter_of_hasLineFeed hl, columnAfter_of_hasLineFeed hl]
    · cases hl : hasLineFeed (slot.layout s column ++ after) with
      | true => rw [columnAfter_of_hasLineFeed hl, columnAfter_of_hasLineFeed hl]
      | false =>
        rw [columnAfter_of_not_hasLineFeed hl, Nat.add_right_comm, ← columnAfter_of_not_hasLineFeed hl, ih hr]

/-! ## Templates behind lines -/

/-- A template filled with values, the first line of which starts at a column. -/
def formatFrom (s : Settings) (heap : Heap) (column : Nat) (template : Text) (args : List Value) :
    Except DumpError Text :=
  let t := Template.parse template
  (renderSlotsWith .exact s heap [] 0 (columnAfter column t.lead) t.slots args).map (t.lead ++ ·)

theorem formatFrom_eq (s : Settings) (heap : Heap) (column : Nat) (template : Text) (args : List Value) :
    formatFrom s heap column template args =
      (expandSlots heap s.maxDepth 0 [] (Template.parse template).slots args).map fun slots =>
        (Template.parse template).lead ++ layoutSlots s (columnAfter column (Template.parse template).lead) slots := by
  rw [formatFrom, renderSlotsWith_exact_eq, map_map]

/-- Filled with values, a template has a first line on which something is tight. -/
def FillsTightly (s : Settings) (heap : Heap) (template : Text) (args : List Value) : Prop :=
  hasLineFeed (Template.parse template).lead = false ∧
    ∃ slots, expandSlots heap s.maxDepth 0 [] (Template.parse template).slots args = .ok slots ∧
      slotsTight s (Template.parse template).lead.length slots = true

theorem formatFrom_one {s : Settings} {heap : Heap} {template : Text} {args : List Value}
    (h : ¬ FillsTightly s heap template args) :
    formatFrom s heap 1 template args = format s heap template args := by
  rw [formatFrom_eq, format_eq]
  cases hs : expandSlots heap s.maxDepth 0 [] (Template.parse template).slots args with
  | error e => rfl
  | ok slots =>
    refine congrArg (Except.ok <| _ ++ ·) ?_
    cases hl : hasLineFeed (Template.parse template).lead with
    | true => rw [columnAfter_of_hasLineFeed hl, columnAfter_of_hasLineFeed hl]
    | false =>
      have ht : slotsTight s (Template.parse template).lead.length slots = false :=
        Bool.eq_false_iff.mpr fun ht => h ⟨hl, slots, hs, ht⟩
      rw [columnAfter_of_not_hasLineFeed hl, columnAfter_of_not_hasLineFeed hl, Nat.zero_add, Nat.add_comm 1,
        layoutSlots_succ ht]

/-- Lines without question marks before a template stay as they are, and the template is filled as if its first line
started at column 1. So there is a text or an error if there is one without these lines. It is the same behind them,
unless one more byte before the template changes its first line. -/
theorem format_lines_append {p : Text} (hq : Ascii.question ∉ p) (hl : p.getLast? = some Ascii.lineFeed)
    (s : Settings) (heap : Heap) (template : Text) (args : List Value) :
    format s heap (p ++ template) args = (formatFrom s heap 1 template args).map (p ++ ·) ∧
      (format s heap (p ++ template) args).map (fun _ => ()) = (format s heap template args).map (fun _ => ()) ∧
      (¬ FillsTightly s heap template args →
        format s heap (p ++ template) args = (format s heap template args).map (p ++ ·)) := by
  have hp := parse_append hq (by simp [hl]) template
  have hc : columnAfter 0 p = 1 := by
    obtain ⟨q, rfl⟩ := List.getLast?_eq_some_iff.mp hl
    rw [columnAfter_of_hasLineFeed (by simp), lineBefore_append (t := []) rfl]
    rfl
  have he : format s heap (p ++ template) args = (formatFrom s heap 1 template args).map (p ++ ·) := by
    rw [format_eq, formatFrom_eq, hp, map_map, columnAfter_append, hc]
    simp only [List.append_assoc]
  refine ⟨he, ?_, fun ht => by rw [he, formatFrom_one ht]⟩
  rw [format_outcome, format_outcome, hp]

theorem parse_assignment : Template.parse (utf8 "$x = ?;") = ⟨utf8 "$x = ", [(.value, utf8 ";")]⟩ := by decide

theorem expandSlot_nestedPair : expandSlot nestedPair 50 0 [] .value (.array 1) =
    .ok (.value (.array (nestedPair.array 1).keys [.array (nestedPair.array 0).keys [.atom (.int 1),
      .atom (.bool true)], .atom (.string (utf8 "ab"))])) := by
  rw [expandSlot, expand_nestedPair]
  rfl

/-- One byte more than needed is left behind the array. -/
theorem format_lines_append_nestedPair :
    format { wrapLength := 24 } nestedPair (utf8 "// a pair that holds a pair
" ++ utf8 "$x = ?;") [.array 1] =
      .ok (utf8 "// a pair that holds a pair
$x = [[1, true], 'ab'];") := by
  have ht : ¬ FillsTightly { wrapLength := 24 } nestedPair (utf8 "$x = ?;") [.array 1] := by
    rintro ⟨-, slots, hs, ht⟩
    rw [parse_assignment, expandSlots_singleton expandSlot_nestedPair] at hs
    cases hs
    revert ht
    decide
  rw [(format_lines_append (by decide) (by decide) _ _ _ _).2.2 ht, format_singleton parse_assignment
    expandSlot_nestedPair]
  refine congrArg Except.ok ?_
  decide

/-- An array that just fits is written on several lines behind a line feed. -/
theorem format_tight_lines :
    format { wrapLength := 4 } nestedPair (utf8 "?") [.array 2] = .ok (utf8 "[1]") ∧
      format { wrapLength := 4 } nestedPair (utf8 "\n" ++ utf8 "?") [.array 2] = .ok (utf8 "\n[\n\t1,\n]") ∧
      utf8 "\n[\n\t1,\n]" ≠ utf8 "\n" ++ utf8 "[1]" := by
  have he : expandSlot nestedPair 50 0 [] .value (.array 2) =
      .ok (.value (.array (nestedPair.array 2).keys [.atom (.int 1)])) := by
    rw [expandSlot, expand_nestedPair_single]
    rfl
  have h₁ : Template.parse (utf8 "?") = ⟨[], [(.value, [])]⟩ := by decide
  have h₂ : Template.parse (utf8 "\n" ++ utf8 "?") = ⟨utf8 "\n", [(.value, [])]⟩ := by decide
  refine ⟨?_, ?_, by decide⟩
  · rw [format_singleton h₁ he]
    refine congrArg Except.ok ?_
    decide
  · rw [format_singleton h₂ he]
    refine congrArg Except.ok ?_
    decide

end PhpLiteral
