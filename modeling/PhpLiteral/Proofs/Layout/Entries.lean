import Mathlib.Data.List.Forall2
import PhpLiteral.Proofs.Layout.Arguments

/-!
# Entries on one line

On one line, entries are joined by commas, each of them a label and a value (`inline_entries`). A comma is written
before an entry if anything stands before it, so that empty entries at the start leave none behind them; only raw code
can leave an entry empty (`render_ne_nil`).
-/

namespace PhpLiteral

/-! ## Joining -/

/-- Entries joined by commas, from the first one on that is not empty. -/
def joinEntries (entries : List Text) : Text := (utf8 ", ").intercalate (entries.dropWhile List.isEmpty)

theorem joinEntries_nil_cons (entries : List Text) : joinEntries ([] :: entries) = joinEntries entries := rfl

theorem joinEntries_eq_intercalate {entries : List Text} (h : entries.head? ≠ some []) :
    joinEntries entries = (utf8 ", ").intercalate entries := by
  cases entries with
  | nil => rfl
  | cons entry entries =>
    have he : entry.isEmpty = false := by
      rw [List.isEmpty_eq_false_iff]
      rintro rfl
      exact h rfl
    rw [joinEntries, List.dropWhile_cons, he, if_neg Bool.false_ne_true]

theorem joinEntries_cons {entry : Text} (h : entry ≠ []) (entries : List Text) :
    joinEntries (entry :: entries) = entry ++ further entries := by
  rw [joinEntries_eq_intercalate (by simpa using h), intercalate_cons]

/-- Entries joined to what stands before them. -/
def joinBehind (front : Text) (entries : List Text) : Text :=
  if front = [] then joinEntries entries else further entries

theorem joinBehind_nil (front : Text) : joinBehind front [] = [] := by
  unfold joinBehind
  split <;> rfl

theorem joinBehind_cons (front entry : Text) (entries : List Text) :
    joinBehind front (entry :: entries) =
      separator front.length ++ entry ++ joinBehind (front ++ (separator front.length ++ entry)) entries := by
  by_cases hf : front = []
  · subst hf
    have hs : separator ([] : Text).length = [] := rfl
    rw [hs, List.nil_append, List.nil_append, joinBehind, joinBehind, if_pos rfl]
    by_cases he : entry = []
    · rw [if_pos he, he, joinEntries_nil_cons, List.nil_append]
    · rw [if_neg he, joinEntries_cons he]
  · rw [joinBehind, joinBehind, if_neg hf, if_neg (List.append_ne_nil_of_left_ne_nil hf _), separator,
      if_neg (mt List.length_eq_zero_iff.mp hf), further, List.flatMap_cons, further]

/-! ## Entries -/

variable {s : Settings} {heap : Heap} {chain : List Ref} {f : Frame}

/-- A text is an entry of a body on one line: the label, and the value as it is written at its column in the body. The
label counts for this column if `counted`. -/
def IsEntry (s : Settings) (heap : Heap) (chain : List Ref) (f : Frame) (counted : Bool) (body : Text)
    (labelled : Text × Value) (entry : Text) : Prop :=
  ∃ front text rest, entry = labelled.1 ++ text ∧ body = front ++ entry ++ rest ∧
    labelled.2.render s heap chain (f.inlineChild (f.column + (front.length + labelRoom counted labelled.1))) = .ok text

theorem renderInline_nil {labels : List Text} {values : List Value} (h : labels = [] ∨ values = []) (counted : Bool)
    (offset : Nat) : renderInlineWith .checked s heap chain f counted offset labels values = .ok [] := by
  rcases h with rfl | rfl
  · rw [renderInlineWith]
    · rfl
    · rintro _ _ _ _ ⟨⟩
  · rw [renderInlineWith]
    · rfl
    · rintro _ _ _ _ - ⟨⟩

theorem eq_of_sum_eq_ok {n k : Nat} (h : Machine.checked.sum n = .ok k) : k = n := by
  simp only [Machine.checked] at h
  split at h <;> cases h
  rfl

theorem renderInline_cons_of_eq_ok {counted : Bool} {offset : Nat} {label more : Text} {labels : List Text} {v : Value}
    {rest : List Value}
    (h : renderInlineWith .checked s heap chain f counted offset (label :: labels) (v :: rest) = .ok more) :
    ∃ text, v.render s heap chain
        (f.inlineChild (f.column + ((separator offset).length + offset + labelRoom counted label))) = .ok text ∧
      ∃ others,
        renderInlineWith .checked s heap chain f counted (offset + (separator offset ++ label ++ text).length) labels
            rest = .ok others ∧
          separator offset ++ label ++ text ++ others = more := by
  rw [renderInlineWith] at h
  obtain ⟨column, hc, h⟩ := bind_eq_ok.mp h
  obtain rfl := eq_of_sum_eq_ok hc
  simpa only [bind_eq_ok, pure, Except.pure, Except.ok.injEq] using h

/-- What is written for entries behind `front` is these entries, joined to it. -/
theorem exists_inlineEntries {counted : Bool} : ∀ {labels : List Text} {values : List Value} {front more : Text},
    renderInlineWith .checked s heap chain f counted front.length labels values = .ok more →
      ∃ entries, List.Forall₂ (IsEntry s heap chain f counted (front ++ more)) (labels.zip values) entries ∧
        more = joinBehind front entries
  | [], values, front, more, h => by
    rw [renderInline_nil (.inl rfl)] at h
    cases h
    exact ⟨[], .nil, (joinBehind_nil front).symm⟩
  | _ :: _, [], front, more, h => by
    rw [renderInline_nil (.inr rfl)] at h
    cases h
    exact ⟨[], .nil, (joinBehind_nil front).symm⟩
  | label :: labels, v :: rest, front, more, h => by
    obtain ⟨text, ht, others, ho, rfl⟩ := renderInline_cons_of_eq_ok h
    rw [← List.length_append] at ho
    obtain ⟨entries, he, hj⟩ := exists_inlineEntries ho
    rw [← List.append_assoc]
    refine ⟨(label ++ text) :: entries, .cons ?_ (by rwa [List.append_assoc] at he ⊢), ?_⟩
    · refine ⟨front ++ separator front.length, text, others, rfl, by simp, ?_⟩
      rwa [List.length_append, Nat.add_comm front.length]
    · rw [joinBehind_cons, hj, List.append_assoc (separator front.length) label]

/-- Only raw code can be written as nothing. -/
theorem render_ne_nil {v : Value} (hv : v.kind ≠ .literal) {text : Text} (h : v.render s heap chain f = .ok text) :
    text ≠ [] := by
  obtain ⟨t, ht, rfl⟩ := exists_of_render h
  exact layout_ne_nil_of_not_isCode s f.level f.column (isCode_of_expand hv ht)

/-- A body is made of labels and values on one line: it is one entry for each of them, joined in order. If the first
entry is not empty, as it is not unless the first value is raw code, no comma is left out. -/
def IsJoined (s : Settings) (heap : Heap) (chain : List Ref) (f : Frame) (counted : Bool) (labels : List Text)
    (values : List Value) (body : Text) : Prop :=
  ∃ entries, entries.length = values.length ∧
    List.Forall₂ (IsEntry s heap chain f counted body) (labels.zip values) entries ∧ body = joinEntries entries ∧
      (entries.head? ≠ some [] ∨ (∀ v ∈ values.head?, v.kind ≠ .literal) → body = (utf8 ", ").intercalate entries)

theorem head?_ne_of_kind_ne {counted : Bool} {body : Text} {labels : List Text} {values : List Value}
    {entries : List Text} (he : List.Forall₂ (IsEntry s heap chain f counted body) (labels.zip values) entries)
    (hv : ∀ v ∈ values.head?, v.kind ≠ .literal) : entries.head? ≠ some [] := by
  cases he' : labels.zip values with
  | nil =>
    rw [he', List.forall₂_nil_left_iff] at he
    rw [he]
    rintro ⟨⟩
  | cons labelled rest =>
    rw [he', List.forall₂_cons_left_iff] at he
    obtain ⟨entry, others, ⟨front, text, more, rfl, -, ht⟩, -, rfl⟩ := he
    have hm : labelled.2 ∈ values.head? := by
      cases labels with
      | nil => cases he'
      | cons label labels =>
        cases values with
        | nil => cases he'
        | cons v values =>
          cases he'
          rfl
    rw [List.head?_cons]
    intro e
    exact render_ne_nil (hv _ hm) ht (List.append_eq_nil_iff.mp (Option.some.inj e)).2

theorem isJoined_of_renderInline {counted : Bool} {labels : List Text} {values : List Value} {body : Text}
    (hl : labels.length = values.length)
    (h : renderInlineWith .checked s heap chain f counted 0 labels values = .ok body) :
    IsJoined s heap chain f counted labels values body := by
  rw [show 0 = ([] : Text).length from rfl] at h
  obtain ⟨entries, he, hj⟩ := exists_inlineEntries h
  rw [List.nil_append] at he
  refine ⟨entries, ?_, he, hj, fun hn => hj.trans (joinEntries_eq_intercalate (hn.elim id fun hv => ?_))⟩
  · rw [← he.length_eq, List.length_zip, hl, Nat.min_self]
  · exact head?_ne_of_kind_ne he hv

theorem length_argumentLabels (placeholder : Placeholder) (a : ArrayStore Value) :
    (argumentLabels placeholder a.keys).length = a.values.length := by
  rw [argumentLabels, List.length_map, length_keys]

/-- Arguments that do not stay on one line are several. -/
theorem lt_of_keepsArguments_eq_false {column count : Nat} {inline : Text}
    (h : Machine.checked.keepsArguments s column count inline = .ok false) : 1 < count := by
  rw [Machine.keepsArguments] at h
  split at h
  · simpa [pure, Except.pure] using h
  · obtain ⟨width, -, h⟩ := bind_eq_ok.mp h
    have := Except.ok.inj h
    rw [Bool.or_eq_false_iff, decide_eq_false_iff_not, Nat.not_le] at this
    exact this.1

/-- On one line, an array with entries and a list of arguments are one entry for each of their values, joined in
order. An array is on one line if its text has no line feed; a list of arguments also if it has fewer than two. -/
theorem inline_entries (s : Settings) (heap : Heap) (chain : List Ref) :
    (∀ (f : Frame) (id : Nat) (text : Text), (Value.array id).render s heap chain f = .ok text →
      (heap.array id).values ≠ [] → hasLineFeed text = false →
        ∃ body, text = utf8 "[" ++ body ++ utf8 "]" ∧
          IsJoined s heap (.array id :: chain) f true (entryLabels (heap.array id).keys) (heap.array id).values body) ∧
    ∀ (depth column : Nat) (placeholder : Placeholder) (id : Nat) (text : Text), placeholder.isSpread = true →
      renderSlot s heap chain depth column placeholder (.array id) = .ok text →
      (hasLineFeed text = false ∨ (heap.array id).values.length ≤ 1) →
        IsJoined s heap (.array id :: chain) ⟨0, depth, column⟩ false (argumentLabels placeholder (heap.array id).keys)
          (heap.array id).values text := by
  refine ⟨fun f id text h hv hn => ?_, fun depth column placeholder id text hp h hn => ?_⟩
  · rw [Value.render, Value.renderWith, if_neg (by rwa [List.isEmpty_iff])] at h
    split at h
    · obtain ⟨body, hb, h⟩ := bind_eq_ok.mp h
      obtain ⟨keeps, -, h⟩ := bind_eq_ok.mp h
      have hl : (entryLabels (heap.array id).keys).length = (heap.array id).values.length := by
        rw [length_entryLabels, length_keys]
      split at h
      · cases h
        exact ⟨body, rfl, isJoined_of_renderInline hl hb⟩
      · obtain ⟨lines, -, h⟩ := bind_eq_ok.mp h
        cases h
        rw [hasLineFeed_linesArray] at hn
        cases hn
    · cases h
  · rw [renderSlot, renderSlotWith_arguments hp] at h
    split at h
    · obtain ⟨body, hb, h⟩ := bind_eq_ok.mp h
      obtain ⟨keeps, hk, h⟩ := bind_eq_ok.mp h
      split at h
      · cases h
        exact isJoined_of_renderInline (length_argumentLabels placeholder (heap.array id)) hb
      · -- The arguments are on lines of their own, which takes several arguments and line feeds.
        rename_i hf
        obtain ⟨lines, -, h⟩ := bind_eq_ok.mp h
        cases h
        rw [Bool.eq_false_of_not_eq_true hf] at hk
        have := lt_of_keepsArguments_eq_false hk
        rcases hn with hn | hn
        · rw [hasLineFeed_append, Bool.or_eq_false_iff] at hn
          cases hn.2
        · omega
    · cases h

/-- An array with empty code before a number, and one with it between two numbers. -/
def emptyCode : Heap where
  arrays := [.ofList [.literal [] [], .atom (.int 1)], .ofList [.atom (.int 1), .literal [] [], .atom (.int 2)]]
  objects := []

theorem values_emptyCode : (emptyCode.array 0).values = [.literal [] [], .atom (.int 1)] ∧
    (emptyCode.array 1).values = [.atom (.int 1), .literal [] [], .atom (.int 2)] := ⟨rfl, rfl⟩

theorem expand_emptyCode_one : (Value.array 1).expand emptyCode 50 0 [] =
    .ok (.array (emptyCode.array 1).keys [.atom (.int 1), .code [], .atom (.int 2)]) := by
  simp [Value.expand, expandAll, values_emptyCode.2, Except.map, bind, Except.bind, pure, Except.pure]

theorem render_emptyCode_one : (Value.array 1).render {} emptyCode [] ⟨0, 0, 0⟩ = .ok (utf8 "[1, , 2]") := by
  rw [render_of_expand expand_emptyCode_one, if_pos (by decide)]
  refine congrArg Except.ok ?_
  decide

/-- Empty code between two numbers keeps its commas. -/
theorem inline_entries_emptyCode :
    ∃ body, utf8 "[1, , 2]" = utf8 "[" ++ body ++ utf8 "]" ∧
      IsJoined {} emptyCode [.array 1] ⟨0, 0, 0⟩ true (entryLabels (emptyCode.array 1).keys)
        (emptyCode.array 1).values body :=
  (inline_entries {} emptyCode []).1 ⟨0, 0, 0⟩ 1 (utf8 "[1, , 2]") render_emptyCode_one (by decide) (by decide)

theorem expandAll_emptyCode_zero : expandAll emptyCode 50 1 [.array 0] (emptyCode.array 0).values =
    .ok [.code [], .atom (.int 1)] := by
  simp [Value.expand, expandAll, values_emptyCode.1, bind, Except.bind, pure, Except.pure]

/-- Empty code before a number leaves no comma: of the two entries of an array, and of a list of arguments, one is to
be seen. -/
theorem dump_emptyCode_zero :
    dump {} emptyCode (.array 0) 0 = .ok (utf8 "[1]") ∧
      format {} emptyCode (utf8 "...?") [.array 0] = .ok (utf8 "1") ∧
      (emptyCode.array 0).values = [.literal [] [], .atom (.int 1)] ∧
      (Value.literal [] []).render {} emptyCode [.array 0] ⟨0, 1, 0⟩ = .ok [] ∧
      (Value.atom (.int 1)).render {} emptyCode [.array 0] ⟨0, 1, 0⟩ = .ok (utf8 "1") ∧
      utf8 "[1]" ≠ utf8 "[" ++ (utf8 ", ").intercalate [[], utf8 "1"] ++ utf8 "]" := by
  have hn : (emptyCode.array 0).values.isEmpty = false := rfl
  have hs : expandSlot emptyCode 50 0 [] .spread (.array 0) =
      .ok (.arguments false (emptyCode.array 0).keys [.code [], .atom (.int 1)]) := by
    rw [expandSlot_arguments rfl, if_pos (by simp), expandAll_emptyCode_zero]
    rfl
  have hp : Template.parse (utf8 "...?") = ⟨[], [(.spread, [])]⟩ := by decide
  refine ⟨?_, ?_, values_emptyCode.1, ?_, ?_, by decide⟩
  · have he : (Value.array 0).expand emptyCode 50 0 [] = .ok (.array (emptyCode.array 0).keys
        [.code [], .atom (.int 1)]) := by
      simp [Value.expand, hn, expandAll_emptyCode_zero, Except.map]
    rw [dump_of_expand he, if_pos (by decide)]
    refine congrArg Except.ok ?_
    decide
  · rw [format_singleton hp hs]
    refine congrArg Except.ok ?_
    decide
  · rw [Value.render, Value.renderWith]
    refine congrArg Except.ok ?_
    decide
  · rw [Value.render, Value.renderWith]
    refine congrArg Except.ok ?_
    decide

end PhpLiteral
