import PhpLiteral.Proofs.Tree

/-!
# Rendering is expansion and layout

Rendering a value expands it, which decides whether it can be rendered, and lays its tree out. Where sums are counted in
64 bits, there is a text exactly if none of the sums for the layout leaves them.

* `render_laysOut`: the text of a value at a place, and the sums for it;
* `exists_of_render`, `render_of_expand`: texts and trees;
* `exists_of_dump`, `dump_of_expand`, `format_eq`: the operations of the library.
-/

namespace PhpLiteral

/-! ## Lengths -/

theorem length_keys {α : Type} (a : ArrayStore α) : a.keys.length = a.values.length := by
  simp [ArrayStore.keys, ArrayStore.values]

theorem length_keptNames {α : Type} (o : ObjectStore α) : o.keptNames.length = o.keptValues.length := by
  simp [ObjectStore.keptNames, ObjectStore.keptValues]

section

variable {heap : Heap} {maxDepth depth : Nat} {chain : List Ref}

theorem expandAll_cons_eq_ok {v : Value} {rest : List Value} {ts : List Tree} :
    expandAll heap maxDepth depth chain (v :: rest) = .ok ts ↔
      ∃ t us, v.expand heap maxDepth depth chain = .ok t ∧ expandAll heap maxDepth depth chain rest = .ok us ∧
        t :: us = ts := by
  rw [expandAll]
  cases v.expand heap maxDepth depth chain with
  | error e => simp [bind, Except.bind]
  | ok t =>
    cases expandAll heap maxDepth depth chain rest with
    | error e => simp [bind, Except.bind]
    | ok us => simp [bind, Except.bind, pure, Except.pure]

theorem length_of_expandAll : ∀ {vs : List Value} {ts : List Tree},
    expandAll heap maxDepth depth chain vs = .ok ts → ts.length = vs.length
  | [], ts, h => by rw [expandAll] at h; cases h; rfl
  | v :: rest, ts, h => by
    obtain ⟨t, us, -, hu, rfl⟩ := expandAll_cons_eq_ok.mp h
    rw [List.length_cons, List.length_cons, length_of_expandAll hu]

end

/-! ## What can be expanded -/

section

variable {heap : Heap} {maxDepth depth : Nat} {chain : List Ref} {id : Nat} {t : Tree}

theorem expand_array_cases (h : (Value.array id).expand heap maxDepth depth chain = .ok t) :
    (heap.array id).values = [] ∧ t = .array [] [] ∨
      (depth ≤ maxDepth ∧ .array id ∉ chain) ∧
        ∃ ts, expandAll heap maxDepth (depth + 1) (.array id :: chain) (heap.array id).values = .ok ts ∧
          t = .array (heap.array id).keys ts := by
  rw [Value.expand] at h
  split at h
  · rename_i he
    cases h
    exact .inl ⟨List.isEmpty_iff.mp he, rfl⟩
  split at h
  · rename_i hc
    obtain ⟨ts, hts, rfl⟩ := map_eq_ok.mp h
    exact .inr ⟨hc, ts, hts, rfl⟩
  · cases h

theorem exists_of_expand_object (h : (Value.object id).expand heap maxDepth depth chain = .ok t) :
    (depth ≤ maxDepth ∧ .object id ∉ chain) ∧
      ∃ ts, expandAll heap maxDepth (depth + 1) (.object id :: chain) (heap.object id).keptValues = .ok ts ∧
        t = .object (heap.object id).className (heap.object id).keptNames ts := by
  rw [Value.expand] at h
  split at h
  · cases h
  split at h
  · rename_i hc
    obtain ⟨ts, hts, rfl⟩ := map_eq_ok.mp h
    exact ⟨hc, ts, hts, rfl⟩
  · cases h

theorem expand_literal_cases {text : Text} {args : List Value}
    (h : (Value.literal text args).expand heap maxDepth depth chain = .ok t) :
    args = [] ∧ t = .code text ∨
      ∃ slots, expandSlots heap maxDepth (depth + 1) chain (Template.parse text).slots args = .ok slots ∧
        t = .template (Template.parse text).lead slots := by
  rw [Value.expand] at h
  split at h
  · rename_i he
    cases h
    exact .inl ⟨List.isEmpty_iff.mp he, rfl⟩
  · obtain ⟨slots, hs, rfl⟩ := map_eq_ok.mp h
    exact .inr ⟨slots, hs, rfl⟩

theorem exists_of_kind_eq_array {v : Value} (h : v.kind = .array) : ∃ id, v = .array id := by
  cases v with
  | array id => exact ⟨id, rfl⟩
  | atom a => cases a <;> cases h
  | _ => cases h

/-- Only raw code expands to raw code. -/
theorem isCode_of_expand {v : Value} (hv : v.kind ≠ .literal) (h : v.expand heap maxDepth depth chain = .ok t) :
    t.isCode = false := by
  cases v with
  | atom a =>
    rw [Value.expand] at h
    cases h
    rfl
  | array id => obtain ⟨-, rfl⟩ | ⟨-, ts, -, rfl⟩ := expand_array_cases h <;> rfl
  | object id =>
    obtain ⟨-, ts, -, rfl⟩ := exists_of_expand_object h
    rfl
  | literal text args => exact absurd rfl hv
  | capturing => rw [Value.expand] at h; cases h
  | resource kind => rw [Value.expand] at h; cases h

end

/-! ## Rendering -/

namespace Measured

variable {α β : Type} {s : Settings}

theorem pure_eq (a : α) : (pure a : Measured α) = ⟨[], .ok a⟩ := rfl

theorem ok_bind (sums : List Nat) (a : α) (f : α → Measured β) :
    (⟨sums, .ok a⟩ : Measured α) >>= f = ⟨sums ++ (f a).sums, (f a).result⟩ := rfl

theorem sum_bind (n : Nat) (f : Nat → Measured β) :
    Machine.measuring.sum n >>= f = ⟨n :: (f n).sums, (f n).result⟩ := rfl

theorem keepsArray_bind (level column : Nat) (inline : Text) (f : Bool → Measured β) :
    Machine.measuring.keepsArray s level column inline >>= f =
      ⟨s.arrayBudget level column inline :: (f (s.keepsArray level column inline)).sums,
        (f (s.keepsArray level column inline)).result⟩ := rfl

theorem keepsArguments_bind (column count : Nat) (inline : Text) (f : Bool → Measured β) :
    Machine.measuring.keepsArguments s column count inline >>= f =
      ⟨(if hasLineFeed inline then [] else [column + inline.length]) ++
          (f (s.keepsArguments column count inline)).sums,
        (f (s.keepsArguments column count inline)).result⟩ := by
  rw [Machine.keepsArguments, Settings.keepsArguments]
  split
  · rename_i h
    simp [pure_eq, ok_bind, h]
  · rename_i h
    simp only [h, Bool.not_false, Bool.true_and]
    rfl

end Measured

/-- A measured result is that of laying out what an expansion gives, with the sums that the layout takes. -/
inductive Measured.LaysOut {α β : Type} (sums : α → List Nat) (text : α → β) : Except DumpError α → Measured β → Prop
  | ok (a : α) : LaysOut sums text (.ok a) ⟨sums a, .ok (text a)⟩
  | error (sums' : List Nat) (e : DumpError) : LaysOut sums text (.error e) ⟨sums', .error e⟩

namespace Measured.LaysOut

variable {α β : Type} {x : Except DumpError α} {sums : α → List Nat} {text : α → β} {r : Measured β}

theorem of_eq {a : α} (h : r = ⟨sums a, .ok (text a)⟩) : LaysOut sums text (.ok a) r := h ▸ .ok a

theorem result_eq (h : LaysOut sums text x r) : r.result = x.map text := by
  cases h <;> rfl

theorem eq_of_ok {a : α} (h : LaysOut sums text (.ok a) r) : r = ⟨sums a, .ok (text a)⟩ := by
  cases h
  rfl

/-- An expansion that is laid out as what it is a part of. -/
theorem map {α' : Type} {g : α → α'} {sums' : α' → List Nat} {text' : α' → β} (h : LaysOut sums text x r)
    (hs : ∀ a, sums' (g a) = sums a) (ht : ∀ a, text' (g a) = text a) : LaysOut sums' text' (x.map g) r := by
  cases h with
  | ok a => exact .of_eq (by rw [hs, ht])
  | error l e => exact .error l e

/-- What follows an expansion and what follows its layout. -/
theorem map_bind {α' β' : Type} {g : α → α'} {sums' : α' → List Nat} {text' : α' → β'} {f : β → Measured β'}
    (h : LaysOut sums text x r)
    (hf : ∀ a, x = .ok a → ⟨sums a ++ (f (text a)).sums, (f (text a)).result⟩ =
      (⟨sums' (g a), .ok (text' (g a))⟩ : Measured β')) : LaysOut sums' text' (x.map g) (r >>= f) := by
  cases h with
  | ok a => exact .of_eq (hf a rfl)
  | error l e => exact .error l e

/-- Two expansions in order, and their layouts, where the second one depends on the text of the first. -/
theorem seq {α' β' γ δ : Type} {y : Except DumpError α'} {sums' : α → α' → List Nat} {text' : α → α' → β'}
    {q : β → Measured β'} {k : α → α' → γ} {w : β → β' → δ} {sums'' : γ → List Nat} {text'' : γ → δ}
    (h : LaysOut sums text x r) (hq : ∀ a, LaysOut (sums' a) (text' a) y (q (text a)))
    (hk : ∀ a c, sums'' (k a c) = sums a ++ sums' a c ∧ text'' (k a c) = w (text a) (text' a c)) :
    LaysOut sums'' text'' (do let a ← x; let c ← y; return k a c) (do let t ← r; let u ← q t; return w t u) := by
  cases h with
  | error l e => exact .error l e
  | ok a =>
    have hq := hq a
    rw [ok_bind]
    generalize q (text a) = u at hq ⊢
    cases hq with
    | error l e => exact .error _ e
    | ok c => exact .of_eq (by rw [(hk a c).1, (hk a c).2, ok_bind, pure_eq, List.append_nil])

/-- A layout that begins with a sum. -/
theorem sum_bind {n : Nat} {f : Nat → Measured β} (h : LaysOut (fun a => (sums a).tail) text x (f n))
    (hs : ∀ a, x = .ok a → (sums a).head? = some n) : LaysOut sums text x (Machine.measuring.sum n >>= f) := by
  rw [bind_of_ok rfl]
  generalize f n = r at h ⊢
  cases h with
  | error l e => exact .error _ e
  | ok a =>
    obtain ⟨l, hl⟩ := List.head?_eq_some_iff.mp (hs a rfl)
    exact .of_eq (by rw [hl]; rfl)

end Measured.LaysOut

variable {s : Settings} {heap : Heap}

mutual

theorem render_laysOut (chain : List Ref) (f : Frame) : ∀ v : Value,
    (Measured.LaysOut (·.sums s f.level f.column) (·.layout s f.level f.column))
      (v.expand heap s.maxDepth f.depth chain) (v.renderWith .measuring s heap chain f)
  | .atom a => by
    rw [Value.renderWith, Value.expand]
    exact .of_eq (by simp only [Tree.sums, Tree.layout]; rfl)
  | .array id => by
    rw [Value.renderWith, Value.expand]
    split
    · exact .of_eq (by simp only [Tree.sums, Tree.layout]; rfl)
    split
    · rename_i he hc
      have hl : (entryLabels (heap.array id).keys).length = (heap.array id).values.length := by
        rw [length_entryLabels, length_keys]
      refine (renderInline_laysOut (.array id :: chain) f hl).map_bind fun ts hts => ?_
      have hlines := renderLines_laysOut (.array id :: chain) f (arrayLines s f.level) hl
      rw [hts] at hlines
      have hn : ¬ ts.isEmpty = true := by
        rwa [List.isEmpty_iff_length_eq_zero, length_of_expandAll hts, ← List.isEmpty_iff_length_eq_zero]
      -- The second pass expands the same values once more, with the same trees.
      simp only [hlines.eq_of_ok, Tree.sums, Tree.layout, if_neg hn, Measured.keepsArray_bind]
      split <;> simp [Measured.ok_bind, Measured.pure_eq]
    · exact .error [] _
  | .object id => by
    rw [Value.renderWith, Value.expand]
    split
    · exact .error [] _
    split
    · have hl : ((heap.object id).keptNames.map propertyLabel).length = (heap.object id).keptValues.length := by
        rw [List.length_map, length_keptNames]
      refine (renderLines_laysOut (.object id :: chain) f (objectLines s f.level) hl).map_bind fun ts _ => ?_
      simp [Tree.sums, Tree.layout, Measured.pure_eq]
    · exact .error [] _
  | .literal text args => by
    rw [Value.renderWith, Value.expand]
    split
    · exact .of_eq (by simp only [Tree.sums, Tree.layout]; rfl)
    · refine (renderSlots_laysOut chain (f.depth + 1) _ args).map_bind fun slots _ => ?_
      simp [Tree.sums, Tree.layout, Measured.pure_eq]
  | .capturing => by
    rw [Value.renderWith, Value.expand]
    exact .error [] _
  | .resource kind => by
    rw [Value.renderWith, Value.expand]
    exact .error [] _
termination_by v => (heap.remaining chain, sizeOf v, 1)
decreasing_by
  · exact Heap.enter_lt (And.right ‹_›) Heap.values_array_of_not_mem
  · exact Heap.enter_lt (And.right ‹_›) Heap.values_array_of_not_mem
  · exact Heap.enter_lt (And.right ‹_›) Heap.keptValues_object_of_not_mem
  · decreasing_tactic

theorem renderInline_laysOut (chain : List Ref) (f : Frame) {counted : Bool} {offset : Nat} :
    ∀ {labels : List Text} {values : List Value}, labels.length = values.length →
      (Measured.LaysOut (sumsInline s f.column counted offset labels) (layoutInline s f.column counted offset labels))
        (expandAll heap s.maxDepth (f.depth + 1) chain values)
        (renderInlineWith .measuring s heap chain f counted offset labels values)
  | [], [], _ => by
    rw [expandAll]
    exact .of_eq (by simp [renderInlineWith, sumsInline, layoutInline, Measured.pure_eq])
  | label :: labels, v :: rest, h => by
    have hl : labels.length = rest.length := by simpa using h
    rw [renderInlineWith, expandAll]
    refine .sum_bind (.seq (render_laysOut chain (f.inlineChild _) v) (fun t => renderInline_laysOut chain f hl)
      fun t ts => ?_) fun ts hts => ?_
    · simp only [sumsInline, layoutInline]
      exact ⟨rfl, rfl⟩
    · rw [← expandAll] at hts
      obtain ⟨t, us, -, -, rfl⟩ := expandAll_cons_eq_ok.mp hts
      rw [sumsInline]
      rfl
termination_by _ values => (heap.remaining chain, sizeOf values, 0)

theorem renderLines_laysOut (chain : List Ref) (f : Frame) (style : LineStyle) :
    ∀ {labels : List Text} {values : List Value}, labels.length = values.length →
      (Measured.LaysOut (sumsLines s f.level style labels) (layoutLines s f.level style labels))
        (expandAll heap s.maxDepth (f.depth + 1) chain values)
        (renderLinesWith .measuring s heap chain f style labels values)
  | [], [], _ => by
    rw [expandAll]
    exact .of_eq (by simp [renderLinesWith, sumsLines, layoutLines, Measured.pure_eq])
  | label :: labels, v :: rest, h => by
    have hl : labels.length = rest.length := by simpa using h
    rw [renderLinesWith, expandAll]
    refine .seq (render_laysOut chain (f.lineChild _) v) (fun t => renderLines_laysOut chain f style hl) fun t ts => ?_
    simp only [sumsLines, layoutLines]
    exact ⟨rfl, rfl⟩
termination_by _ values => (heap.remaining chain, sizeOf values, 0)

theorem renderSlots_laysOut (chain : List Ref) (depth : Nat) {column : Nat} :
    ∀ (slots : List (Placeholder × Text)) (args : List Value),
      (Measured.LaysOut (sumsSlots s column) (layoutSlots s column))
        (expandSlots heap s.maxDepth depth chain slots args)
        (renderSlotsWith .measuring s heap chain depth column slots args)
  | [], [] => by
    rw [renderSlotsWith, expandSlots]
    exact .of_eq (by rw [sumsSlots, layoutSlots]; rfl)
  | [], v :: rest => by
    simp only [renderSlotsWith, expandSlots]
    exact .error [] _
  | _ :: _, [] => by
    rw [renderSlotsWith, expandSlots]
    exact .error [] _
  | (placeholder, after) :: slots, v :: rest => by
    rw [renderSlotsWith, expandSlots]
    refine .seq (renderSlot_laysOut chain depth placeholder v) (fun slot => renderSlots_laysOut chain depth slots rest)
      fun slot filled => ?_
    exact ⟨by rw [sumsSlots], by rw [layoutSlots]⟩
termination_by _ args => (heap.remaining chain, sizeOf args, 0)

theorem renderSlot_laysOut (chain : List Ref) (depth : Nat) {column : Nat} :
    ∀ (placeholder : Placeholder) (v : Value),
      (Measured.LaysOut (·.sums s column) (·.layout s column)) (expandSlot heap s.maxDepth depth chain placeholder v)
        (renderSlotWith .measuring s heap chain depth column placeholder v)
  | placeholder, v => by
    have hv : ∀ column, Measured.LaysOut (·.sums s 0 column) (·.layout s 0 column)
        (v.expand heap s.maxDepth depth chain) (v.renderWith .measuring s heap chain ⟨0, depth, column⟩) :=
      fun column => render_laysOut chain ⟨0, depth, column⟩ v
    by_cases hp : placeholder.isSpread = true
    · by_cases hk : v.kind = .array
      · obtain ⟨id, rfl⟩ := exists_of_kind_eq_array hk
        rw [renderSlotWith_arguments hp, expandSlot_arguments hp]
        split
        · have hl : ((heap.array id).keys.map (argumentLabel (placeholder == .namedSpread))).length =
              (heap.array id).values.length := by rw [List.length_map, length_keys]
          refine (renderInline_laysOut (.array id :: chain) ⟨0, depth, column⟩ hl).map_bind fun ts hts => ?_
          have hlines := renderLines_laysOut (.array id :: chain) ⟨0, depth, column⟩ (argumentLines s) hl
          rw [hts] at hlines
          simp only [hlines.eq_of_ok, Slot.sums, Slot.layout, length_of_expandAll hts, Measured.keepsArguments_bind]
          generalize s.keepsArguments column _ _ = keeps
          cases keeps <;> simp [Measured.ok_bind, Measured.pure_eq]
        · exact .error [] _
      · rw [renderSlotWith_of_ne_array hp _ _ _ _ _ _ hk, expandSlot_of_ne_array hp _ _ _ _ hk]
        exact .error [] _
    · cases placeholder with
      | value =>
        rw [renderSlotWith, expandSlot]
        exact (hv column).map (fun t => by rw [Slot.sums]) fun t => by rw [Slot.layout]
      | member connective =>
        rw [renderSlotWith, expandSlot]
        cases memberName? v with
        | some name => exact .of_eq (by rw [Slot.sums, Slot.layout]; rfl)
        | none => exact (hv 0).map_bind fun t _ => by simp [Slot.sums, Slot.layout, Measured.pure_eq]
      | _ => exact absurd rfl hp
termination_by _ v => (heap.remaining chain, sizeOf v, 2)
decreasing_by
  · decreasing_tactic
  · exact Heap.enter_lt (And.right ‹_›) Heap.values_array_of_not_mem
  · exact Heap.enter_lt (And.right ‹_›) Heap.values_array_of_not_mem

end

/-! ## Texts and trees -/

section

variable {chain : List Ref} {f : Frame} {v : Value} {t : Tree} {text : Text}

theorem renderWith_exact_eq (chain : List Ref) (f : Frame) (v : Value) : v.renderWith .exact s heap chain f =
    (v.expand heap s.maxDepth f.depth chain).map fun t => t.layout s f.level f.column := by
  rw [renderWith_exact_eq_result, (render_laysOut chain f v).result_eq]

/-- A text is that of the layout of a tree. -/
theorem exists_of_render (h : v.render s heap chain f = .ok text) :
    ∃ t, v.expand heap s.maxDepth f.depth chain = .ok t ∧ t.layout s f.level f.column = text := by
  have hx := exact_of_render h
  rw [renderWith_exact_eq] at hx
  exact map_eq_ok.mp hx

/-- A tree is laid out, unless a sum leaves 64 bits. -/
theorem render_of_expand (h : v.expand heap s.maxDepth f.depth chain = .ok t) : v.render s heap chain f =
    if ∀ n ∈ t.sums s f.level f.column, n < UInt64.size then .ok (t.layout s f.level f.column)
    else .error .overflow := by
  have ht := @render_laysOut s heap chain f v
  rw [h] at ht
  rw [render_eq_checked, ht.eq_of_ok]
  rfl

theorem exists_of_dump {column : Nat} (h : dump s heap v column = .ok text) :
    ∃ t, v.expand heap s.maxDepth 0 [] = .ok t ∧ t.layout s 0 column = text := exists_of_render h

theorem sums_eq_of_expand (h : v.expand heap s.maxDepth 0 [] = .ok t) (column : Nat) :
    v.sums s heap column = t.sums s 0 column := by
  have ht := @render_laysOut s heap [] ⟨0, 0, column⟩ v
  rw [h] at ht
  rw [Value.sums, ht.eq_of_ok]

theorem dump_eq (v : Value) (column : Nat) : dump s heap v column =
    if InRange s heap v column then ((v.expand heap s.maxDepth 0 []).map (·.layout s 0 column)).mapError .error
    else .error .overflow := by
  rw [dump_eq_if, renderWith_exact_eq]

/-- A value that cannot be expanded is refused, unless a sum leaves 64 bits before. -/
theorem dump_of_expand_error {e : DumpError} (h : v.expand heap s.maxDepth 0 [] = .error e) (column : Nat) :
    dump s heap v column = .error (if InRange s heap v column then .error e else .overflow) := by
  rw [dump_eq, h]
  split <;> rfl

theorem dump_of_expand (h : v.expand heap s.maxDepth 0 [] = .ok t) (column : Nat) : dump s heap v column =
    if ∀ n ∈ t.sums s 0 column, n < UInt64.size then .ok (t.layout s 0 column) else .error .overflow :=
  render_of_expand (f := ⟨0, 0, column⟩) h

end

section

variable {chain : List Ref} {depth column : Nat} {placeholder : Placeholder} {v : Value} {slot : Slot} {text : Text}

theorem exists_of_renderSlot (h : renderSlot s heap chain depth column placeholder v = .ok text) :
    ∃ slot, expandSlot heap s.maxDepth depth chain placeholder v = .ok slot ∧ slot.layout s column = text := by
  rw [renderSlot_eq_checked, Measured.checked_eq_ok, (renderSlot_laysOut chain depth placeholder v).result_eq] at h
  exact map_eq_ok.mp h.2

theorem renderSlot_of_expandSlot (h : expandSlot heap s.maxDepth depth chain placeholder v = .ok slot) :
    renderSlot s heap chain depth column placeholder v =
      if ∀ n ∈ slot.sums s column, n < UInt64.size then .ok (slot.layout s column) else .error .overflow := by
  have hs := @renderSlot_laysOut s heap chain depth column placeholder v
  rw [h] at hs
  rw [renderSlot_eq_checked, hs.eq_of_ok]
  rfl

end

/-! ## Values in order -/

theorem renderSlotsWith_exact_eq (chain : List Ref) (depth column : Nat) (slots : List (Placeholder × Text))
    (args : List Value) : renderSlotsWith .exact s heap chain depth column slots args =
      (expandSlots heap s.maxDepth depth chain slots args).map (layoutSlots s column) := by
  have hr := renderSlotsWith_related relates_exact (relates_exact.forall₂_related s heap ⟨depth, chain⟩ args) column
    slots
  rw [← hr, (renderSlots_laysOut chain depth slots args).result_eq]

section

variable (r : Ref) (chain : List Ref) (f : Frame) {labels : List Text} {values : List Value}
  (hl : labels.length = values.length)

include hl

theorem renderLinesWith_exact_eq (style : LineStyle) :
    renderLinesWith .exact s heap (r :: chain) f style labels values =
      (expandAll heap s.maxDepth (f.depth + 1) (r :: chain) values).map (layoutLines s f.level style labels) := by
  have hr := renderLinesWith_related relates_exact
    (relates_exact.forall₂_related s heap (Place.inside ⟨f.depth, chain⟩ r) values) f.level f.column style labels
  rw [← (renderLines_laysOut (r :: chain) f style hl).result_eq]
  exact hr.symm

end

/-! ## Templates -/

theorem format_eq (template : Text) (args : List Value) :
    format s heap template args =
      (expandSlots heap s.maxDepth 0 [] (Template.parse template).slots args).map fun slots =>
        (Template.parse template).lead ++ layoutSlots s (columnAfter 0 (Template.parse template).lead) slots := by
  rw [format, renderSlotsWith_exact_eq, map_map]

theorem expandSlots_singleton {maxDepth depth : Nat} {chain : List Ref} {placeholder : Placeholder} {v : Value}
    {slot : Slot} (h : expandSlot heap maxDepth depth chain placeholder v = .ok slot) (after : Text) :
    expandSlots heap maxDepth depth chain [(placeholder, after)] [v] = .ok [(slot, after)] := by
  rw [expandSlots, h, expandSlots]
  rfl

/-- A template with one place. -/
theorem format_singleton {template lead after : Text} {placeholder : Placeholder} {v : Value} {slot : Slot}
    (hp : Template.parse template = ⟨lead, [(placeholder, after)]⟩)
    (h : expandSlot heap s.maxDepth 0 [] placeholder v = .ok slot) :
    format s heap template [v] = .ok (lead ++ layoutSlots s (columnAfter 0 lead) [(slot, after)]) := by
  rw [format_eq, hp, expandSlots_singleton h]
  rfl

end PhpLiteral
