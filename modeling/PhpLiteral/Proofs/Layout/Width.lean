import PhpLiteral.Proofs.Layout.Flat
import PhpLiteral.Proofs.Layout.Spots

/-!
# The width of lines

No line with an array on it is wider than the settings allow. Each spot has room on its line: the line is the first one
of the text (`Spot.FitsFirst`), or an indented one that ends with a comma (`Spot.FitsBelow`). This goes from entries on
lines of their own to the whole text (`fits_of_mem_spots`), and gives the widths of the lines in the text
(`lineWidth_dump_le`).
-/

namespace PhpLiteral

/-! ## Lines -/

/-- The width of a line: its bytes, where each unit of indentation at its start counts for its width. -/
def Indent.lineWidth (i : Indent) (line : Text) : Nat :=
  let units := (line.takeWhile (i.unit.contains ·)).length / i.unit.length
  units * i.width + (line.length - units * i.unit.length)

theorem lineWidth_levels (i : Indent) (n : Nat) {rest : Text} (h : ∀ b ∈ rest.head?, b ∉ i.unit) :
    i.lineWidth (i.levels n ++ rest) = n * i.width + rest.length := by
  have ht : (i.levels n ++ rest).takeWhile (i.unit.contains ·) = i.levels n :=
    Syntax.takeWhile_append_of_stops (fun b hb => by simpa using mem_unit_of_mem_levels hb) (by simpa using h)
  rw [Indent.lineWidth, ht, length_levels, Nat.mul_div_cancel _ (unit_length_pos i)]
  simp [length_levels]

namespace Spot

/-- The line that the spot stands on. -/
def line (x : Spot) : Text := lineBefore x.before ++ x.array ++ lineBehind x.after

/-- The width of the line that the spot stands on, when the text starts at a column. -/
def lineWidth (i : Indent) (column : Nat) (x : Spot) : Nat :=
  (if hasLineFeed x.before then 0 else column) + i.lineWidth x.line

end Spot

/-! ## Labels -/

/-- What may stand at the start of a line behind its indentation: a text without line feeds that begins with no white
space. -/
structure IsLabel (t : Text) : Prop where
  noLineFeed : hasLineFeed t = false
  head : ∀ b ∈ t.head?, Syntax.isSpace b = false

theorem mem_intLiteral {i : Int64} {b : UInt8} (h : b ∈ intLiteral i) :
    Ascii.isDigit b = true ∨ b = Ascii.minus := by
  have hd : ∀ {j : Int}, b ∈ decimalInt j → Ascii.isDigit b = true ∨ b = Ascii.minus := by
    intro j hb
    unfold decimalInt at hb
    split at hb
    · rcases List.mem_cons.mp hb with rfl | hb
      · exact .inr rfl
      · exact .inl (isDigit_of_mem_decimal hb)
    · exact .inl (isDigit_of_mem_decimal hb)
  unfold intLiteral at h
  split at h
  · rcases List.mem_append.mp h with h | h
    · exact hd h
    · rcases List.mem_cons.mp (show b ∈ [Ascii.minus, 0x31] from h) with rfl | h
      · exact .inr rfl
      · rw [List.mem_singleton.mp h]
        exact .inl rfl
  · exact hd h

theorem isLabel_nil : IsLabel [] := ⟨rfl, by simp⟩

/-- A key and an arrow. -/
theorem isLabel_arrow {w : Text} (hw : IsLabel w) (hn : w ≠ []) : IsLabel (w ++ utf8 " => ") where
  noLineFeed := by
    rw [hasLineFeed_append, hw.noLineFeed]
    rfl
  head := by
    obtain ⟨b, w, rfl⟩ := List.exists_cons_of_ne_nil hn
    exact hw.head

theorem isLabel_stringLiteral (bytes : Text) : IsLabel (stringLiteral bytes) where
  noLineFeed := hasLineFeed_eq_false.mpr fun hm => (Syntax.not_mem_stringLiteral hm).1 rfl
  head := by
    obtain ⟨q, w, hw, hq⟩ := Syntax.exists_stringLiteral_cons bytes
    rw [hw]
    rintro b ⟨⟩
    rcases hq with rfl | rfl <;> rfl

theorem isLabel_intLiteral (i : Int64) : IsLabel (intLiteral i) := by
  have h : ∀ b ∈ intLiteral i, Syntax.isSpace b = false := by
    intro b hb
    rcases mem_intLiteral hb with hd | rfl
    · exact (Syntax.not_space_not_quote (List.all_iff_forall_prop.mp (by decide)) hd).1
    · rfl
  refine ⟨hasLineFeed_eq_false.mpr fun hm => ?_, fun b hb => h b (List.mem_of_mem_head? hb)⟩
  cases h _ hm

theorem isLabel_propertyLabel (name : Text) : IsLabel (propertyLabel name) :=
  isLabel_arrow (isLabel_stringLiteral name) (Syntax.isTerm_stringLiteral name).ne_nil

theorem isLabel_of_mem_entryLabels {label : Text} {keys : List Key} (h : label ∈ entryLabels keys) :
    IsLabel label := by
  obtain ⟨m, key, rfl⟩ := exists_keyPart_of_mem h
  unfold Numbering.keyPart
  split
  · exact isLabel_nil
  · cases key with
    | int i => exact isLabel_arrow (isLabel_intLiteral i) (Syntax.isTerm_intLiteral i).ne_nil
    | str name => exact isLabel_propertyLabel name

/-! ## Room on lines -/

theorem IsLabel.append {t u : Text} (ht : IsLabel t) (hu : IsLabel u) : IsLabel (t ++ u) where
  noLineFeed := by rw [hasLineFeed_append, ht.noLineFeed, hu.noLineFeed]; rfl
  head := by
    cases t with
    | nil => exact hu.head
    | cons b t => exact ht.head

namespace Spot

variable {s : Settings} {x : Spot} {level column : Nat}

/-- The text around a spot is one line, and it fits at a level and a column, with one more byte behind it. -/
structure FitsFirst (s : Settings) (level column : Nat) (x : Spot) : Prop where
  isLabel : IsLabel x.text
  fits : s.fits (level * s.indent.width + column + x.text.length + 1) = true

/-- A spot stands behind a line feed and some levels of indentation, the rest of its line ends with a comma, and the
line fits. -/
structure FitsIndented (s : Settings) (n : Nat) (b lead rest a : Text) (x : Spot) : Prop where
  before : x.before = b ++ Ascii.lineFeed :: (s.indent.levels n ++ lead)
  after : x.after = rest ++ Ascii.comma :: Ascii.lineFeed :: a
  isLabel : IsLabel (lead ++ x.array ++ rest)
  fits : s.fits (n * s.indent.width + (lead ++ x.array ++ rest).length + 1) = true

/-- A spot stands on an indented line, and fits. -/
def FitsBelow (s : Settings) (x : Spot) : Prop := ∃ n b lead rest a, x.FitsIndented s n b lead rest a

theorem FitsBelow.within (h : x.FitsBelow s) (lead rest : Text) : (x.within lead rest).FitsBelow s := by
  obtain ⟨n, b, l, r, a, h⟩ := h
  refine ⟨n, lead ++ b, l, r, a ++ rest, ?_, ?_, h.isLabel, h.fits⟩
  · simp [Spot.within, h.before]
  · simp [Spot.within, h.after]

end Spot

/-- How a style puts entries on lines at a level, where `pre` stands before the first of them on its line: each begins
one level deeper, and behind it a comma ends its line. -/
structure LineStyle.Indents (style : LineStyle) (i : Indent) (level : Nat) (pre : Text) : Prop where
  before : pre ++ style.before = i.levels (level + 1)
  after : style.after = Ascii.comma :: Ascii.lineFeed :: pre
  counted : style.counted = true

theorem indents_arrayLines (s : Settings) (level : Nat) :
    (arrayLines s level).Indents s.indent level (s.indent.levels level) where
  before := levels_succ s.indent level
  after := rfl
  counted := rfl

theorem indents_objectLines (s : Settings) (level : Nat) : (objectLines s level).Indents s.indent level [] where
  before := levels_succ s.indent level
  after := rfl
  counted := rfl

/-- A first line that fits behind its label fits as an indented line, too. -/
theorem LineStyle.Indents.fitsBelow {s : Settings} {style : LineStyle} {level : Nat} {pre label : Text} {x : Spot}
    (h : style.Indents s.indent level pre) (hl : IsLabel label) (hx : x.FitsFirst s (level + 1) label.length)
    (b more : Text) :
    (x.within (b ++ Ascii.lineFeed :: pre ++ (style.before ++ label)) (style.after ++ more)).FitsBelow s := by
  refine ⟨level + 1, b, label ++ x.before, x.after, pre ++ more, ?_, ?_, ?_, ?_⟩
  · simp [Spot.within, ← h.before]
  · simp [Spot.within, h.after]
  · have := hl.append hx.isLabel
    simpa [Spot.text, Spot.within] using this
  · have := hx.fits
    simp only [Spot.text, List.length_append] at this
    simp only [Spot.within, List.length_append]
    rw [← this]
    congr 1
    omega

mutual

/-- Every spot fits on its line. -/
theorem fits_of_mem_spots (s : Settings) : ∀ (t : Tree) (level column : Nat), ∀ x ∈ t.spots s level column,
    x.FitsFirst s level column ∨ x.FitsBelow s
  | .atom _, _, _, x, hx => by simp [Tree.spots] at hx
  | .code _, _, _, x, hx => by simp [Tree.spots] at hx
  | .template _ _, _, _, x, hx => by simp [Tree.spots] at hx
  | .array keys values, level, column, x, hx => by
    have ht := text_of_mem_spots s _ level column x hx
    rw [Tree.spots] at hx
    split at hx
    · cases hx
    rename_i he
    rw [layout_array_eq (by rwa [List.isEmpty_iff] at he)] at ht
    extract_lets labels inline at hx
    split at hx
    · -- Whether the spot is the array itself or one inside it, its line is that of the array.
      rename_i hk
      rw [if_pos hk] at ht
      rw [keepsArray_iff] at hk
      refine .inl ⟨⟨?_, ?_⟩, ?_⟩
      · rw [ht, hasLineFeed_inlineArray]
        exact hk.1
      · rw [ht]
        rintro b ⟨⟩
        rfl
      · rw [ht, length_inlineArray, Settings.fits, decide_eq_true_eq]
        exact hk.2
    · obtain ⟨y, hy, rfl⟩ := List.mem_map.mp hx
      exact .inr (fitsBelow_of_mem_spotsLines s labels values (indents_arrayLines s level)
        (fun _ => isLabel_of_mem_entryLabels) y hy [Ascii.openBracket] _)
  | .object className names values, level, column, x, hx => by
    rw [Tree.spots] at hx
    obtain ⟨y, hy, rfl⟩ := List.mem_map.mp hx
    have hl : ∀ label ∈ names.map propertyLabel, IsLabel label := by
      intro label hm
      obtain ⟨name, -, rfl⟩ := List.mem_map.mp hm
      exact isLabel_propertyLabel name
    exact .inr (fitsBelow_of_mem_spotsLines s _ values (indents_objectLines s level) hl y hy (objectHead s className) _)

theorem fitsBelow_of_mem_spotsLines (s : Settings) : ∀ (labels : List Text) (values : List Tree) {level : Nat}
    {style : LineStyle} {pre : Text}, style.Indents s.indent level pre → (∀ label ∈ labels, IsLabel label) →
    ∀ x ∈ spotsLines s level style labels values, ∀ b rest,
      (x.within (b ++ Ascii.lineFeed :: pre) rest).FitsBelow s
  | [], values, level, style, pre, hs, hl, x, hx, b, rest => by
    simp [spotsLines] at hx
  | _ :: _, [], level, style, pre, hs, hl, x, hx, b, rest => by
    simp [spotsLines] at hx
  | label :: labels, t :: values, level, style, pre, hs, hl, x, hx, b, rest => by
    rw [List.forall_mem_cons] at hl
    rw [spotsLines] at hx
    rcases List.mem_append.mp hx with hx | hx <;> obtain ⟨y, hy, rfl⟩ := List.mem_map.mp hx
    · rw [Spot.within_within, List.append_assoc style.after]
      rcases fits_of_mem_spots s t _ _ y hy with h | h
      · rw [labelRoom, if_pos hs.counted] at h
        exact hs.fitsBelow hl.1 h b _
      · exact h.within _ _
    · have := fitsBelow_of_mem_spotsLines s labels values hs hl.2 y hy
        (b ++ Ascii.lineFeed :: pre ++ style.before ++ label ++
          t.layout s (level + 1) (labelRoom style.counted label) ++ [Ascii.comma]) rest
      rw [Spot.within_within]
      simpa [hs.after] using this

end

/-! ## Widths -/

theorem IsLabel.not_mem_unit {t : Text} (h : IsLabel t) (i : Indent) : ∀ b ∈ t.head?, b ∉ i.unit := by
  intro b hb hm
  have := isSpace_of_mem_unit hm
  rw [h.head b hb] at this
  cases this

namespace Spot

variable {s : Settings} {x : Spot} {column : Nat}

theorem FitsFirst.hasLineFeed_array {level : Nat} (h : x.FitsFirst s level column) : hasLineFeed x.array = false := by
  have := h.isLabel.noLineFeed
  simp only [text, hasLineFeed_append, Bool.or_eq_false_iff] at this
  exact this.1.2

theorem FitsFirst.lineWidth_eq (h : x.FitsFirst s 0 column) : x.lineWidth s.indent column = column + x.text.length := by
  have hn := h.isLabel.noLineFeed
  simp only [text, hasLineFeed_append, Bool.or_eq_false_iff] at hn
  have hl : x.line = s.indent.levels 0 ++ x.text := by
    rw [line, lineBefore_eq_self hn.1.1, lineBehind_eq_self hn.2]
    rfl
  rw [Spot.lineWidth, hn.1.1, hl, lineWidth_levels _ _ (h.isLabel.not_mem_unit _), Nat.zero_mul, Nat.zero_add]
  rfl

theorem FitsFirst.lineWidth_le (h : x.FitsFirst s 0 column) : x.lineWidth s.indent column ≤ s.wrapLength := by
  have hf := h.fits
  rw [h.lineWidth_eq]
  rw [Settings.fits, Nat.zero_mul, Nat.zero_add, decide_eq_true_eq] at hf
  exact Nat.le_of_succ_le hf

variable {n : Nat} {b lead rest a : Text}

theorem FitsIndented.hasLineFeed_eq (h : x.FitsIndented s n b lead rest a) :
    (hasLineFeed lead = false ∧ hasLineFeed x.array = false) ∧ hasLineFeed rest = false := by
  have := h.isLabel.noLineFeed
  simpa only [hasLineFeed_append, Bool.or_eq_false_iff] using this

theorem FitsIndented.lineWidth_eq (h : x.FitsIndented s n b lead rest a) :
    x.lineWidth s.indent column = n * s.indent.width + (lead ++ x.array ++ rest).length + 1 := by
  obtain ⟨⟨hl, -⟩, hr⟩ := h.hasLineFeed_eq
  have hb : lineBefore x.before = s.indent.levels n ++ lead := by
    rw [h.before, lineBefore_append]
    rw [hasLineFeed_append, hasLineFeed_levels, hl]
    rfl
  have ha : lineBehind x.after = rest ++ [Ascii.comma] := by
    have hc : hasLineFeed (rest ++ [Ascii.comma]) = false := by
      rw [hasLineFeed_append, hr]
      rfl
    have := lineBehind_append hc a
    rwa [List.append_assoc, List.singleton_append, ← h.after] at this
  have hline : x.line = s.indent.levels n ++ (lead ++ x.array ++ rest ++ [Ascii.comma]) := by
    rw [line, hb, ha]
    simp only [List.append_assoc]
  have hd : ∀ c ∈ (lead ++ x.array ++ rest ++ [Ascii.comma]).head?, c ∉ s.indent.unit :=
    (h.isLabel.append ⟨rfl, by rintro _ ⟨⟩; rfl⟩).not_mem_unit _
  have hf : hasLineFeed x.before = true := by
    rw [h.before, hasLineFeed_append, hasLineFeed_lineFeed_cons, Bool.or_true]
  rw [Spot.lineWidth, hf, if_pos rfl, Nat.zero_add, hline, lineWidth_levels _ _ hd]
  simp only [List.length_append, List.length_singleton, Nat.add_assoc]

theorem FitsIndented.lineWidth_le (h : x.FitsIndented s n b lead rest a) :
    x.lineWidth s.indent column ≤ s.wrapLength := by
  have hf := h.fits
  rwa [Settings.fits, decide_eq_true_eq, ← h.lineWidth_eq] at hf

end Spot

/-- Each array with entries that is written on one line, wherever it stands, has a line that is no wider than the
settings allow. -/
theorem lineWidth_dump_le {s : Settings} {heap : Heap} {v : Value} {column : Nat} {text : Text}
    (h : dump s heap v column = .ok text) :
    ∃ t, v.expand heap s.maxDepth 0 [] = .ok t ∧ ∀ x ∈ t.spots s 0 column,
      x.text = text ∧ hasLineFeed x.array = false ∧ x.lineWidth s.indent column ≤ s.wrapLength := by
  obtain ⟨t, ht, rfl⟩ := exists_of_dump h
  refine ⟨t, ht, fun x hx => ⟨text_of_mem_spots s t 0 column x hx, ?_⟩⟩
  rcases fits_of_mem_spots s t 0 column x hx with h | ⟨n, b, lead, rest, a, h⟩
  · exact ⟨h.hasLineFeed_array, h.lineWidth_le⟩
  · exact ⟨h.hasLineFeed_eq.1.2, h.lineWidth_le⟩

example : (Tree.array (nestedPair.array 1).keys [.array (nestedPair.array 0).keys [.atom (.int 1),
      .atom (.bool true)], .atom (.string (utf8 "ab"))]).spots { wrapLength := 14 } 0 0 =
    [⟨utf8 "[\n\t", utf8 "[1, true]", utf8 ",\n\t'ab',\n]"⟩] := by decide

/-- The line of the inner array is as wide as the settings allow. -/
theorem dump_nestedPair : dump { wrapLength := 14 } nestedPair (.array 1) 0 =
    .ok (utf8 "[\n\t[1, true],\n\t'ab',\n]") := by
  rw [dump_of_expand expand_nestedPair, if_pos (by decide)]
  refine congrArg Except.ok ?_
  decide

theorem lineWidth_dump_le_nestedPair : ∃ t, (Value.array 1).expand nestedPair 50 0 [] = .ok t ∧
    ∀ x ∈ t.spots { wrapLength := 14 } 0 0,
      x.text = utf8 "[\n\t[1, true],\n\t'ab',\n]" ∧ hasLineFeed x.array = false ∧ x.lineWidth .tab 0 ≤ 14 :=
  lineWidth_dump_le dump_nestedPair

end PhpLiteral
