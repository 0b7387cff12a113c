import PhpLiteral.Proofs.Layout.Basic

/-!
# Arrays on one line

A spot is an array with entries that stands on one line, with the text before it and the text behind it. The spots of
a layout (`Tree.spots`) are found by the same recursion that writes the layout, also inside other arrays on one line,
on lines of their own and in objects; each of them is a part of the whole text (`text_of_mem_spots`).
-/

namespace PhpLiteral

/-- A part of a text, with the text before it and behind it. -/
structure Spot where
  before : Text
  array : Text
  after : Text
  deriving DecidableEq, Repr

namespace Spot

/-- The whole text. -/
def text (x : Spot) : Text := x.before ++ x.array ++ x.after

/-- The spot in a longer text. -/
def within (lead rest : Text) (x : Spot) : Spot := ⟨lead ++ x.before, x.array, x.after ++ rest⟩

@[simp] theorem text_within (lead rest : Text) (x : Spot) : (x.within lead rest).text = lead ++ x.text ++ rest := by
  simp [text, within]

@[simp] theorem within_within (lead lead' rest rest' : Text) (x : Spot) :
    (x.within lead rest).within lead' rest' = x.within (lead' ++ lead) (rest ++ rest') := by
  simp [within]

end Spot

mutual

/-- The arrays with entries that a layout has on one line. -/
def Tree.spots (s : Settings) (level column : Nat) : Tree → List Spot
  | .array keys values =>
    if values.isEmpty then []
    else
      let labels := entryLabels keys
      let inline := layoutInline s column true 0 labels values
      if s.keepsArray level column inline then
        ⟨[], inlineArray inline, []⟩ :: (spotsInline s column 0 labels values).map (·.within (utf8 "[") (utf8 "]"))
      else
        (spotsLines s level (arrayLines s level) labels values).map
          (·.within (utf8 "[\n" ++ s.indent.levels level) (utf8 "]"))
  | .object className names values =>
    (spotsLines s level (objectLines s level) (names.map propertyLabel) values).map
      (·.within (objectHead s className ++ utf8 "\n") (s.indent.levels level ++ objectTail className))
  | .atom _ => []
  | .code _ => []
  | .template _ _ => []

/-- The spots in entries on the line of their parent. -/
def spotsInline (s : Settings) (column offset : Nat) : List Text → List Tree → List Spot
  | label :: labels, tree :: rest =>
    let before := (separator offset).length + offset + labelRoom true label
    let entry := separator offset ++ label ++ tree.layout s 0 (column + before)
    let more := layoutInline s column true (offset + entry.length) labels rest
    (tree.spots s 0 (column + before)).map (·.within (separator offset ++ label) more) ++
      (spotsInline s column (offset + entry.length) labels rest).map (·.within entry [])
  | _, _ => []

/-- The spots in entries on lines of their own. -/
def spotsLines (s : Settings) (level : Nat) (style : LineStyle) : List Text → List Tree → List Spot
  | label :: labels, tree :: rest =>
    let room := labelRoom style.counted label
    let entry := style.before ++ label ++ tree.layout s (level + 1) room ++ style.after
    let more := layoutLines s level style labels rest
    (tree.spots s (level + 1) room).map (·.within (style.before ++ label) (style.after ++ more)) ++
      (spotsLines s level style labels rest).map (·.within entry [])
  | _, _ => []

end

mutual

/-- A spot is a part of the layout. -/
theorem text_of_mem_spots (s : Settings) : ∀ (t : Tree) (level column : Nat), ∀ x ∈ t.spots s level column,
    x.text = t.layout s level column
  | .atom _, _, _, x, hx => by simp [Tree.spots] at hx
  | .code _, _, _, x, hx => by simp [Tree.spots] at hx
  | .template _ _, _, _, x, hx => by simp [Tree.spots] at hx
  | .array keys values, level, column, x, hx => by
    rw [Tree.spots] at hx
    split at hx
    · cases hx
    rename_i he
    rw [layout_array_eq (by rwa [List.isEmpty_iff] at he)]
    extract_lets labels inline at hx
    split at hx
    · rw [if_pos ‹_›]
      rcases List.mem_cons.mp hx with rfl | hx
      · simp [Spot.text, inline, labels]
      · obtain ⟨y, hy, rfl⟩ := List.mem_map.mp hx
        rw [Spot.text_within, text_of_mem_spotsInline s labels values column 0 y hy]
        rfl
    · rw [if_neg ‹_›]
      obtain ⟨y, hy, rfl⟩ := List.mem_map.mp hx
      rw [Spot.text_within, text_of_mem_spotsLines s labels values level _ y hy]
      rfl
  | .object className names values, level, column, x, hx => by
    rw [Tree.spots] at hx
    obtain ⟨y, hy, rfl⟩ := List.mem_map.mp hx
    rw [Spot.text_within, text_of_mem_spotsLines s _ values level _ y hy, Tree.layout, objectText]
    simp only [List.append_assoc]

theorem text_of_mem_spotsInline (s : Settings) : ∀ (labels : List Text) (values : List Tree) (column offset : Nat),
    ∀ x ∈ spotsInline s column offset labels values, x.text = layoutInline s column true offset labels values
  | [], values, column, offset, x, hx => by
    simp [spotsInline] at hx
  | _ :: _, [], column, offset, x, hx => by
    simp [spotsInline] at hx
  | label :: labels, t :: rest, column, offset, x, hx => by
    rw [spotsInline] at hx
    rw [layoutInline]
    rcases List.mem_append.mp hx with hx | hx <;> obtain ⟨y, hy, rfl⟩ := List.mem_map.mp hx
    · rw [Spot.text_within, text_of_mem_spots s t _ _ y hy]
    · rw [Spot.text_within, text_of_mem_spotsInline s labels rest _ _ y hy, List.append_nil]

theorem text_of_mem_spotsLines (s : Settings) : ∀ (labels : List Text) (values : List Tree) (level : Nat)
    (style : LineStyle), ∀ x ∈ spotsLines s level style labels values, x.text = layoutLines s level style labels values
  | [], values, level, style, x, hx => by
    simp [spotsLines] at hx
  | _ :: _, [], level, style, x, hx => by
    simp [spotsLines] at hx
  | label :: labels, t :: rest, level, style, x, hx => by
    rw [spotsLines] at hx
    rw [layoutLines]
    rcases List.mem_append.mp hx with hx | hx <;> obtain ⟨y, hy, rfl⟩ := List.mem_map.mp hx
    · rw [Spot.text_within, text_of_mem_spots s t _ _ y hy]
      simp only [List.append_assoc]
    · rw [Spot.text_within, text_of_mem_spotsLines s labels rest _ _ y hy, List.append_nil]

end

end PhpLiteral
