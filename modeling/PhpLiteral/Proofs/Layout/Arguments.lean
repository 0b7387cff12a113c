import PhpLiteral.Proofs.Layout.Width

/-!
# The width of lists of arguments

Where arrays on one line end in a list of arguments. They keep to the width that the settings allow if no argument has
a name, and if several arguments stay on one line; the name before an array does not count when its layout is chosen,
so that otherwise the array may end behind this width, by no more than the length of the name (`endColumn_le`).
-/

namespace PhpLiteral

/-! ## Columns behind arrays -/

namespace Spot

/-- The column behind the array, when the text starts at a column. Indentation of lines counts for its width. -/
def endColumn (i : Indent) (column : Nat) (x : Spot) : Nat :=
  if hasLineFeed x.before then i.lineWidth (lineBefore x.before ++ x.array)
  else column + (x.before ++ x.array).length

end Spot

theorem IsLabel.of_append {t u : Text} (h : IsLabel (t ++ u)) : IsLabel t where
  noLineFeed := by
    have := h.noLineFeed
    rw [hasLineFeed_append, Bool.or_eq_false_iff] at this
    exact this.1
  head := by
    intro b hb
    refine h.head b ?_
    cases t with
    | nil => cases hb
    | cons c t => exact hb

namespace Spot

variable {s : Settings} {x : Spot} {column : Nat}

theorem endColumn_of_indented {n : Nat} {b lead : Text}
    (hb : x.before = b ++ Ascii.lineFeed :: (s.indent.levels n ++ lead)) (hl : IsLabel (lead ++ x.array)) :
    x.endColumn s.indent column = n * s.indent.width + (lead ++ x.array).length := by
  have hn := hl.noLineFeed
  rw [hasLineFeed_append, Bool.or_eq_false_iff] at hn
  have hf : hasLineFeed x.before = true := by
    rw [hb, hasLineFeed_append, hasLineFeed_lineFeed_cons, Bool.or_true]
  rw [endColumn, if_pos hf, hb, lineBefore_append (by rw [hasLineFeed_append, hasLineFeed_levels, hn.1]; rfl),
    List.append_assoc, lineWidth_levels _ _ (hl.not_mem_unit _)]

theorem FitsBelow.endColumn_lt (h : x.FitsBelow s) : x.endColumn s.indent column + 1 ≤ s.wrapLength := by
  obtain ⟨n, b, lead, rest, a, h⟩ := h
  have hle : x.lineWidth s.indent column ≤ s.wrapLength := h.lineWidth_le
  rw [h.lineWidth_eq, List.length_append] at hle
  rw [endColumn_of_indented h.before h.isLabel.of_append]
  omega

theorem length_text (x : Spot) : x.text.length = x.before.length + x.array.length + x.after.length := by
  rw [text, List.length_append, List.length_append]

/-- Text on one line that fits behind `p` goes further to the right by its label, if it has one. -/
theorem FitsFirst.endColumn_within_le {p label rest : Text} (h : x.FitsFirst s 0 (column + p.length))
    (hn : hasLineFeed (p ++ label) = false) :
    (x.within (p ++ label) rest).endColumn s.indent column + 1 ≤ s.wrapLength + label.length := by
  have hx := h.isLabel.noLineFeed
  have hb : hasLineFeed (x.within (p ++ label) rest).before = false := by
    simp only [text, hasLineFeed_append, Bool.or_eq_false_iff] at hx
    rw [within, hasLineFeed_append, hn, hx.1.1]
    rfl
  have hf := h.fits
  rw [Settings.fits, decide_eq_true_eq, Nat.zero_mul, Nat.zero_add, length_text] at hf
  rw [endColumn, hb, if_neg Bool.false_ne_true, within]
  simp only [List.length_append]
  omega

/-- Text on one line that fits at a level of indentation goes further to the right by its label, if it has one. -/
theorem FitsFirst.endColumn_below_le {n : Nat} {b label rest : Text} (h : x.FitsFirst s n 0) (hl : IsLabel label) :
    (x.within (b ++ Ascii.lineFeed :: (s.indent.levels n ++ label)) rest).endColumn s.indent column + 1 ≤
      s.wrapLength + label.length := by
  have hla : IsLabel (label ++ x.before ++ x.array) := by
    have := hl.append h.isLabel
    rw [text, ← List.append_assoc, ← List.append_assoc] at this
    exact this.of_append
  have hb : (x.within (b ++ Ascii.lineFeed :: (s.indent.levels n ++ label)) rest).before =
      b ++ Ascii.lineFeed :: (s.indent.levels n ++ (label ++ x.before)) := by
    simp [within]
  have hf := h.fits
  rw [Settings.fits, decide_eq_true_eq, length_text] at hf
  rw [endColumn_of_indented hb hla, within]
  simp only [List.length_append]
  omega

end Spot

/-! ## Arguments -/

/-- The names before the arguments for a placeholder. -/
def argumentLabels (placeholder : Placeholder) (keys : List Key) : List Text :=
  keys.map (argumentLabel (placeholder == .namedSpread))

/-- The spots in arguments on one line. -/
def spotsArguments (s : Settings) (column offset : Nat) : List Text → List Tree → List Spot
  | label :: labels, tree :: rest =>
    let before := (separator offset).length + offset + labelRoom false label
    let entry := separator offset ++ label ++ tree.layout s 0 (column + before)
    let more := layoutInline s column false (offset + entry.length) labels rest
    (tree.spots s 0 (column + before)).map (·.within (separator offset ++ label) more) ++
      (spotsArguments s column (offset + entry.length) labels rest).map (·.within entry [])
  | _, _ => []

/-- The arrays with entries that a list of arguments has on one line. -/
def argumentSpots (s : Settings) (column : Nat) (labels : List Text) (values : List Tree) : List Spot :=
  if s.keepsArguments column values.length (layoutInline s column false 0 labels values) then
    spotsArguments s column 0 labels values
  else (spotsLines s 0 (argumentLines s) labels values).map (·.within [] (utf8 "\n"))

theorem text_of_mem_spotsArguments {s : Settings} {column : Nat} : ∀ {labels : List Text} {values : List Tree}
    {offset : Nat}, ∀ x ∈ spotsArguments s column offset labels values,
      x.text = layoutInline s column false offset labels values
  | [], values, offset, x, hx => by simp [spotsArguments] at hx
  | _ :: _, [], offset, x, hx => by simp [spotsArguments] at hx
  | label :: labels, t :: rest, offset, x, hx => by
    rw [spotsArguments] at hx
    rw [layoutInline]
    rcases List.mem_append.mp hx with hx | hx <;> obtain ⟨y, hy, rfl⟩ := List.mem_map.mp hx
    · rw [Spot.text_within, text_of_mem_spots s t _ _ y hy]
    · rw [Spot.text_within, text_of_mem_spotsArguments y hy, List.append_nil]

/-- A spot in arguments on one line is a spot of an argument behind what is before this argument and its label. -/
theorem exists_of_mem_spotsArguments {s : Settings} {column : Nat} : ∀ {labels : List Text} {values : List Tree}
    {offset : Nat}, ∀ x ∈ spotsArguments s column offset labels values,
      ∃ label ∈ labels, ∃ (t : Tree) (p q : Text) (y : Spot), y ∈ t.spots s 0 (column + offset + p.length) ∧
        x = y.within (p ++ label) q ∧ (values.length ≤ 1 → offset = 0 → p = [])
  | [], values, offset, x, hx => by simp [spotsArguments] at hx
  | _ :: _, [], offset, x, hx => by simp [spotsArguments] at hx
  | label :: labels, t :: rest, offset, x, hx => by
    rw [spotsArguments] at hx
    generalize hb : (separator offset).length + offset + labelRoom false label = before at hx
    generalize separator offset ++ label ++ t.layout s 0 (column + before) = entry at hx
    rcases List.mem_append.mp hx with hx | hx <;> obtain ⟨y, hy, rfl⟩ := List.mem_map.mp hx
    · refine ⟨label, List.mem_cons_self, t, separator offset, _, y, ?_, rfl, ?_⟩
      · have hc : column + offset + (separator offset).length = column + before := by
          rw [← hb, labelRoom, if_neg Bool.false_ne_true]
          omega
        rwa [hc]
      · rintro - rfl
        rfl
    · obtain ⟨l, hl, u, p, q, z, hz, rfl, -⟩ := exists_of_mem_spotsArguments y hy
      refine ⟨l, List.mem_cons_of_mem _ hl, u, entry ++ p, q ++ [], z, ?_, ?_, fun h => ?_⟩
      · rwa [List.length_append, ← Nat.add_assoc, Nat.add_assoc column]
      · simp only [Spot.within_within, List.append_assoc]
      · -- A spot behind the first argument is a spot of another one.
        rw [List.length_eq_zero_iff.mp (Nat.le_zero.mp (Nat.le_of_succ_le_succ h))] at hy
        cases labels <;> simp [spotsArguments] at hy

/-- A spot in entries on lines of their own is a spot of an entry behind its label. -/
theorem exists_of_mem_spotsLines {s : Settings} {level : Nat} {style : LineStyle} : ∀ {labels : List Text}
    {values : List Tree}, ∀ x ∈ spotsLines s level style labels values,
      ∃ label ∈ labels, ∃ (t : Tree) (b q : Text) (y : Spot),
        y ∈ t.spots s (level + 1) (labelRoom style.counted label) ∧
          x = y.within (b ++ (style.before ++ label)) (style.after ++ q)
  | [], values, x, hx => by simp [spotsLines] at hx
  | _ :: _, [], x, hx => by simp [spotsLines] at hx
  | label :: labels, t :: rest, x, hx => by
    rw [spotsLines] at hx
    generalize style.before ++ label ++ t.layout s (level + 1) (labelRoom style.counted label) ++ style.after =
      entry at hx
    rcases List.mem_append.mp hx with hx | hx <;> obtain ⟨y, hy, rfl⟩ := List.mem_map.mp hx
    · exact ⟨label, List.mem_cons_self, t, [], _, y, hy, rfl⟩
    · obtain ⟨l, hl, u, b, q, z, hz, rfl⟩ := exists_of_mem_spotsLines y hy
      refine ⟨l, List.mem_cons_of_mem _ hl, u, entry ++ b, q, z, hz, ?_⟩
      rw [Spot.within_within, List.append_nil, ← List.append_assoc]

theorem text_of_mem_argumentSpots {s : Settings} {column : Nat} {labels : List Text} {values : List Tree} {x : Spot}
    (hx : x ∈ argumentSpots s column labels values) :
    x.text =
      if s.keepsArguments column values.length (layoutInline s column false 0 labels values) then
        layoutInline s column false 0 labels values
      else layoutLines s 0 (argumentLines s) labels values ++ utf8 "\n" := by
  rw [argumentSpots] at hx
  split at hx
  · rw [if_pos ‹_›, text_of_mem_spotsArguments x hx]
  · rw [if_neg ‹_›]
    obtain ⟨y, hy, rfl⟩ := List.mem_map.mp hx
    rw [Spot.text_within, text_of_mem_spotsLines s labels values 0 _ y hy, List.nil_append]

theorem hasLineFeed_array_of_mem_spots {s : Settings} {t : Tree} {level column : Nat} {x : Spot}
    (hx : x ∈ t.spots s level column) : hasLineFeed x.array = false := by
  rcases fits_of_mem_spots s t level column x hx with h | ⟨n, b, lead, rest, a, h⟩
  · exact h.hasLineFeed_array
  · exact h.hasLineFeed_eq.1.2

theorem hasLineFeed_array_of_mem_argumentSpots {s : Settings} {column : Nat} {labels : List Text} {values : List Tree}
    {x : Spot} (hx : x ∈ argumentSpots s column labels values) : hasLineFeed x.array = false := by
  rw [argumentSpots] at hx
  split at hx
  · obtain ⟨label, -, t, p, q, y, hy, rfl, -⟩ := exists_of_mem_spotsArguments x hx
    exact hasLineFeed_array_of_mem_spots (x := y) hy
  · obtain ⟨z, hz, rfl⟩ := List.mem_map.mp hx
    obtain ⟨label, -, t, b, q, y, hy, rfl⟩ := exists_of_mem_spotsLines z hz
    exact hasLineFeed_array_of_mem_spots (x := y) hy

/-- Whatever the layout of arguments, an array on one line in them ends behind the width that the settings allow by no
more than the room for a name. -/
theorem endColumn_argumentSpots {s : Settings} {column room : Nat} {labels : List Text} {values : List Tree}
    (hl : ∀ label ∈ labels, IsLabel label ∧ label.length ≤ room) {x : Spot}
    (hx : x ∈ argumentSpots s column labels values) : x.endColumn s.indent column + 1 ≤ s.wrapLength + room := by
  rw [argumentSpots] at hx
  split at hx
  · rename_i hk
    obtain ⟨label, hm, t, p, q, y, hy, rfl, hp⟩ := exists_of_mem_spotsArguments x hx
    rcases fits_of_mem_spots s t 0 _ y hy with hf | hf
    · -- Before a second argument there is no line feed, and before the first one there is nothing.
      have hn : hasLineFeed (p ++ label) = false := by
        have ht := text_of_mem_spotsArguments _ hx
        rw [Settings.keepsArguments, Bool.or_eq_true, decide_eq_true_eq, Bool.and_eq_true, Bool.not_eq_true'] at hk
        rcases hk with hk | hk
        · rw [hp hk rfl, List.nil_append]
          exact (hl label hm).1.noLineFeed
        · rw [← ht] at hk
          simp only [Spot.text_within, hasLineFeed_append, Bool.or_eq_false_iff] at hk ⊢
          exact hk.1.1.1
      exact Nat.le_trans (hf.endColumn_within_le hn) (Nat.add_le_add_left (hl label hm).2 _)
    · exact Nat.le_add_right_of_le ((hf.within _ _).endColumn_lt)
  · obtain ⟨z, hz, rfl⟩ := List.mem_map.mp hx
    obtain ⟨label, hm, t, b, q, y, hy, rfl⟩ := exists_of_mem_spotsLines z hz
    rw [Spot.within_within, List.nil_append]
    rcases fits_of_mem_spots s t 1 _ y hy with hf | hf
    · have hb : b ++ ((argumentLines s).before ++ label) = b ++ Ascii.lineFeed :: (s.indent.levels 1 ++ label) := by
        rw [Indent.levels, List.replicate_one, List.flatten_singleton]
        rfl
      rw [hb]
      exact Nat.le_trans (hf.endColumn_below_le (hl label hm).1) (Nat.add_le_add_left (hl label hm).2 _)
    · exact Nat.le_add_right_of_le ((hf.within _ _).endColumn_lt)

/-- Several arguments that stay on one line keep to the width that the settings allow, whatever their names are. -/
theorem endColumn_argumentSpots_of_not_hasLineFeed {s : Settings} {column : Nat} {labels : List Text}
    {values : List Tree} (hc : 2 ≤ values.length) {x : Spot} (hx : x ∈ argumentSpots s column labels values)
    (hn : hasLineFeed x.text = false) : x.endColumn s.indent column + x.after.length ≤ s.wrapLength := by
  have ht := text_of_mem_argumentSpots hx
  split at ht
  · rename_i hk
    rw [← ht, Settings.keepsArguments, Bool.or_eq_true, decide_eq_true_eq, hn, Bool.not_false, Bool.true_and,
      Settings.fits, decide_eq_true_eq] at hk
    have hf := hk.resolve_left (by omega)
    simp only [Spot.text, hasLineFeed_append, Bool.or_eq_false_iff] at hn
    rw [Spot.endColumn, hn.1.1, if_neg Bool.false_ne_true]
    rw [Spot.length_text] at hf
    rw [List.length_append]
    omega
  · rw [ht, hasLineFeed_append, Bool.or_eq_false_iff] at hn
    cases hn.2

/-- Arrays on one line in a list of arguments, each with a byte behind it, end within the width that the settings
allow if no argument has a name. So they do, the last byte of the list aside, if several arguments stay on one line.
Else they may end behind this width, by no more than the length of the longest name. -/
theorem endColumn_le {s : Settings} {heap : Heap} {chain : List Ref} {depth column id : Nat}
    {placeholder : Placeholder} {text : Text} (hp : placeholder.isSpread = true)
    (h : renderSlot s heap chain depth column placeholder (.array id) = .ok text) :
    ∃ trees, expandAll heap s.maxDepth (depth + 1) (.array id :: chain) (heap.array id).values = .ok trees ∧
      ∀ x ∈ argumentSpots s column (argumentLabels placeholder (heap.array id).keys) trees,
        x.text = text ∧ hasLineFeed x.array = false ∧
          ((∀ label ∈ argumentLabels placeholder (heap.array id).keys, label = []) →
            x.endColumn s.indent column + 1 ≤ s.wrapLength) ∧
          (2 ≤ trees.length → hasLineFeed text = false →
            x.endColumn s.indent column + (if x.after = [] then 0 else 1) ≤ s.wrapLength) ∧
          ∀ room, (∀ label ∈ argumentLabels placeholder (heap.array id).keys, IsLabel label ∧ label.length ≤ room) →
            x.endColumn s.indent column + 1 ≤ s.wrapLength + room := by
  obtain ⟨slot, hs, rfl⟩ := exists_of_renderSlot h
  rw [expandSlot_arguments hp] at hs
  split at hs
  · obtain ⟨trees, ht, rfl⟩ := map_eq_ok.mp hs
    refine ⟨trees, ht, fun x hx => ?_⟩
    have hx' : x.text = (Slot.arguments (placeholder == .namedSpread) (heap.array id).keys trees).layout s column := by
      rw [text_of_mem_argumentSpots hx, Slot.layout]
      rfl
    refine ⟨hx', hasLineFeed_array_of_mem_argumentSpots hx, fun hl => ?_, fun hc hn => ?_, fun room hl => ?_⟩
    · have hn : ∀ label ∈ argumentLabels placeholder (heap.array id).keys, IsLabel label ∧ label.length ≤ 0 := by
        intro label hm
        rw [hl label hm]
        exact ⟨isLabel_nil, Nat.le_refl 0⟩
      exact endColumn_argumentSpots hn hx
    · have := endColumn_argumentSpots_of_not_hasLineFeed hc hx (hx' ▸ hn)
      split
      · omega
      · have := List.length_pos_iff.mpr ‹x.after ≠ []›
        omega
    · exact endColumn_argumentSpots hl hx
  · cases hs

theorem expandAll_nestedPair : expandAll nestedPair 50 1 [.array 1] (nestedPair.array 1).values =
    .ok [.array (nestedPair.array 0).keys [.atom (.int 1), .atom (.bool true)], .atom (.string (utf8 "ab"))] := by
  obtain ⟨h₀, h₁, -⟩ := values_nestedPair
  simp [Value.expand, expandAll, h₀, h₁, Except.map, bind, Except.bind, pure, Except.pure]

/-- The line of the inner array is as wide as the settings allow. -/
theorem renderSlot_nestedPair : renderSlot { wrapLength := 14 } nestedPair [] 0 0 .spread (.array 1) =
    .ok (utf8 "\n\t[1, true],\n\t'ab',\n") := by
  have hs : expandSlot nestedPair 50 0 [] .spread (.array 1) =
      .ok (.arguments false (nestedPair.array 1).keys [.array (nestedPair.array 0).keys [.atom (.int 1),
        .atom (.bool true)], .atom (.string (utf8 "ab"))]) := by
    rw [expandSlot_arguments rfl, if_pos (by simp), expandAll_nestedPair]
    rfl
  rw [renderSlot_of_expandSlot hs, if_pos (by decide)]
  refine congrArg Except.ok ?_
  decide

theorem endColumn_le_nestedPair :
    ⟨utf8 "\n\t", utf8 "[1, true]", utf8 ",\n\t'ab',\n"⟩ ∈ argumentSpots { wrapLength := 14 } 0
        (argumentLabels .spread (nestedPair.array 1).keys) [.array (nestedPair.array 0).keys [.atom (.int 1),
          .atom (.bool true)], .atom (.string (utf8 "ab"))] ∧
      Spot.endColumn .tab 0 ⟨utf8 "\n\t", utf8 "[1, true]", utf8 ",\n\t'ab',\n"⟩ + 1 ≤ 14 := by
  obtain ⟨trees, ht, h⟩ := endColumn_le rfl renderSlot_nestedPair
  obtain rfl := Except.ok.inj (expandAll_nestedPair.symm.trans ht)
  have hx : ⟨utf8 "\n\t", utf8 "[1, true]", utf8 ",\n\t'ab',\n"⟩ ∈ argumentSpots { wrapLength := 14 } 0
      (argumentLabels .spread (nestedPair.array 1).keys) [.array (nestedPair.array 0).keys [.atom (.int 1),
        .atom (.bool true)], .atom (.string (utf8 "ab"))] := by decide
  exact ⟨hx, (h _ hx).2.2.1 (by decide)⟩

/-- An array under a name. -/
def named : Heap where
  arrays := [.ofList [.atom (.int 1)], .ofEntries [(.str (utf8 "name"), .array 0)]]
  objects := []

/-- Behind a name, an array stays on a line that is too wide for it. -/
theorem endColumn_named :
    format { wrapLength := 4 } named (utf8 "...?:") [.array 1] = .ok (utf8 "name: [1]") ∧
      renderSlot { wrapLength := 4 } named [] 0 0 .namedSpread (.array 1) = .ok (utf8 "name: [1]") ∧
      expandAll named 50 1 [.array 1] (named.array 1).values =
        .ok [.array (named.array 0).keys [.atom (.int 1)]] ∧
      ⟨utf8 "name: ", utf8 "[1]", []⟩ ∈ argumentSpots { wrapLength := 4 } 0
        (argumentLabels .namedSpread (named.array 1).keys) [.array (named.array 0).keys [.atom (.int 1)]] ∧
      ¬ Spot.endColumn .tab 0 ⟨utf8 "name: ", utf8 "[1]", []⟩ ≤ 4 := by
  have h₀ : (named.array 0).values = [.atom (.int 1)] := rfl
  have h₁ : (named.array 1).values = [.array 0] := rfl
  have he : expandAll named 50 1 [.array 1] (named.array 1).values =
      .ok [.array (named.array 0).keys [.atom (.int 1)]] := by
    simp [Value.expand, expandAll, h₀, h₁, Except.map, bind, Except.bind, pure, Except.pure]
  have hs : expandSlot named 50 0 [] .namedSpread (.array 1) =
      .ok (.arguments true (named.array 1).keys [.array (named.array 0).keys [.atom (.int 1)]]) := by
    rw [expandSlot_arguments rfl, if_pos (by simp), he]
    rfl
  have hp : Template.parse (utf8 "...?:") = ⟨[], [(.namedSpread, [])]⟩ := by decide
  refine ⟨?_, ?_, he, by decide, by decide⟩
  · rw [format_singleton hp hs]
    refine congrArg Except.ok ?_
    decide
  · rw [renderSlot_of_expandSlot hs, if_pos (by decide)]
    refine congrArg Except.ok ?_
    decide

end PhpLiteral
