import PhpLiteral.Dump

/-!
# Rendering inside a bounded number of containers

A renderer that does what `Value.renderWith` does but gives up as soon as a value stands inside more containers than a
bound allows. It needs no other reason to end than this bound, and with one place for each container of the heap it
never gives up (`renderWithin_eq`).
-/

namespace PhpLiteral

variable {m : Type → Type} [Monad m]

/-- An outcome of rendering, or none where the renderer gave up. -/
abbrev Bounded (m : Type → Type) := OptionT m

/-- An outcome of the renderer that never gives up. -/
def returned {α : Type} (x : m α) : Bounded m α := OptionT.lift x

/-- No outcome. -/
def giveUp {α : Type} : Bounded m α := OptionT.fail

/-! ## The renderer -/

mutual

/-- The text of a value at a place, with no value in it inside more than `n` further containers. -/
def Value.renderWithin (M : Machine m) (s : Settings) (heap : Heap) (n : Nat) (chain : List Ref) (f : Frame) :
    Value → Bounded m Text
  | .atom a => return a.code
  | .array id =>
    if (heap.array id).values.isEmpty then return utf8 "[]"
    else if f.depth ≤ s.maxDepth ∧ .array id ∉ chain then do
      let labels := entryLabels (heap.array id).keys
      let values := (heap.array id).values
      let inline ← renderInlineWithin M s heap n (.array id :: chain) f true 0 labels values
      if ← returned (M.keepsArray s f.level f.column inline) then return inlineArray inline
      else
        let lines ← renderLinesWithin M s heap n (.array id :: chain) f (arrayLines s f.level) labels values
        return linesArray s f.level lines
    else returned (M.fail .recursion)
  | .object id =>
    if (heap.object id).isAnonymous then returned (M.fail (.unsupported .anonymousClass))
    else if f.depth ≤ s.maxDepth ∧ .object id ∉ chain then do
      let labels := (heap.object id).keptNames.map propertyLabel
      let values := (heap.object id).keptValues
      let lines ← renderLinesWithin M s heap n (.object id :: chain) f (objectLines s f.level) labels values
      return objectText s f.level (heap.object id).className lines
    else returned (M.fail .recursion)
  | .literal text args =>
    if args.isEmpty then return placeCode s f.level text
    else do
      let t := Template.parse text
      let filled ← renderSlotsWithin M s heap n chain (f.depth + 1) (columnAfter 0 t.lead) t.slots args
      return placeCode s f.level (t.lead ++ filled)
  | .capturing => returned (M.fail (.unsupported .closure))
  | .resource kind => returned (M.fail (.unsupported (.resource kind)))
termination_by v => (2 * n + 1, sizeOf v, 0)

/-- The values in a container on the line of their parent; `n` counts this container, too. -/
def renderInlineWithin (M : Machine m) (s : Settings) (heap : Heap) (n : Nat) (chain : List Ref) (f : Frame)
    (counted : Bool) (offset : Nat) : List Text → List Value → Bounded m Text
  | label :: labels, value :: rest =>
    match n with
    | 0 => giveUp
    | n + 1 => do
      let before := (separator offset).length + offset + labelRoom counted label
      let column ← returned (M.sum (f.column + before))
      let text ← value.renderWithin M s heap n chain (f.inlineChild column)
      let entry := separator offset ++ label ++ text
      let more ← renderInlineWithin M s heap (n + 1) chain f counted (offset + entry.length) labels rest
      return entry ++ more
  | _, _ => return []
termination_by _ values => (2 * n, sizeOf values, 0)

/-- The values in a container on lines of their own; `n` counts this container, too. -/
def renderLinesWithin (M : Machine m) (s : Settings) (heap : Heap) (n : Nat) (chain : List Ref) (f : Frame)
    (style : LineStyle) : List Text → List Value → Bounded m Text
  | label :: labels, value :: rest =>
    match n with
    | 0 => giveUp
    | n + 1 => do
      let text ← value.renderWithin M s heap n chain (f.lineChild (labelRoom style.counted label))
      let more ← renderLinesWithin M s heap (n + 1) chain f style labels rest
      return style.before ++ label ++ text ++ style.after ++ more
  | _, _ => return []
termination_by _ values => (2 * n, sizeOf values, 0)

/-- The placeholders of a template filled with arguments. -/
def renderSlotsWithin (M : Machine m) (s : Settings) (heap : Heap) (n : Nat) (chain : List Ref) (depth column : Nat) :
    List (Placeholder × Text) → List Value → Bounded m Text
  | [], [] => return []
  | [], unused => returned (M.fail (.tooManyArguments unused.length))
  | _ :: _, [] => returned (M.fail .insufficientArguments)
  | (placeholder, after) :: slots, value :: rest => do
    let text ← renderSlotWithin M s heap n chain depth column placeholder value
    let more ← renderSlotsWithin M s heap n chain depth (columnAfter column (text ++ after)) slots rest
    return text ++ after ++ more
termination_by _ args => (2 * n + 1, sizeOf args, 0)

/-- A placeholder filled with its argument. -/
def renderSlotWithin (M : Machine m) (s : Settings) (heap : Heap) (n : Nat) (chain : List Ref) (depth column : Nat) :
    Placeholder → Value → Bounded m Text
  | .value, value => value.renderWithin M s heap n chain ⟨0, depth, column⟩
  | .member connective, value =>
    match memberName? value with
    | some name => return connective.text ++ name
    | none => do
      let text ← value.renderWithin M s heap n chain ⟨0, depth, 0⟩
      return bracedMember connective text
  | placeholder, .array id =>
    if depth ≤ s.maxDepth ∧ .array id ∉ chain then do
      let f : Frame := ⟨0, depth, column⟩
      let labels := (heap.array id).keys.map (argumentLabel (placeholder == .namedSpread))
      let values := (heap.array id).values
      let inline ← renderInlineWithin M s heap n (.array id :: chain) f false 0 labels values
      if ← returned (M.keepsArguments s column values.length inline) then return inline
      else
        let lines ← renderLinesWithin M s heap n (.array id :: chain) f (argumentLines s) labels values
        return lines ++ utf8 "\n"
    else returned (M.fail .recursion)
  | placeholder, value => returned (M.fail (.invalidArgument placeholder value.kind))
termination_by _ value => (2 * n + 1, sizeOf value, 1)

end

/-! ## It never gives up -/

section

variable [LawfulMonad m]

theorem returned_pure {α : Type} (a : α) : returned (pure a : m α) = pure a :=
  OptionT.ext (by simp [returned])

theorem returned_bind {α β : Type} {x : m α} {f : α → Bounded m β} {g : α → m β} (h : ∀ a, f a = returned (g a)) :
    returned x >>= f = returned (x >>= g) := by
  rw [funext h]
  exact OptionT.ext (by simp [returned])

end

theorem remaining_lt_of_ne_nil {heap : Heap} {r : Ref} {chain : List Ref} {n : Nat} {contents : List Value}
    (hc : r ∉ chain) (he : r ∉ heap.refs → contents = []) (hn : heap.remaining chain ≤ n) (hne : contents ≠ []) :
    heap.remaining (r :: chain) < n := by
  have hr : r ∈ heap.refs := Decidable.byContradiction fun hr => hne (he hr)
  exact Nat.lt_of_lt_of_le (Heap.remaining_cons_lt hr hc) hn

section

variable [LawfulMonad m] {M : Machine m} {s : Settings} {heap : Heap}

mutual

/-- With one place for each container outside of the chain, the renderer never gives up. -/
theorem renderWithin_eq {n : Nat} {chain : List Ref} (f : Frame) (hn : heap.remaining chain ≤ n) : ∀ v : Value,
    v.renderWithin M s heap n chain f = returned (v.renderWith M s heap chain f)
  | .atom a => by rw [Value.renderWithin, Value.renderWith, returned_pure]
  | .array id => by
    rw [Value.renderWithin, Value.renderWith]
    split
    · rw [returned_pure]
    split
    · rename_i hc
      have hr : (heap.array id).values ≠ [] → heap.remaining (.array id :: chain) < n :=
        remaining_lt_of_ne_nil hc.2 Heap.values_array_of_not_mem hn
      simp only [renderInlineWithin_eq f hr, renderLinesWithin_eq f _ hr]
      refine returned_bind fun inline => returned_bind fun keeps => ?_
      -- Both renderers decide by the same text.
      split
      · rw [returned_pure]
      · exact returned_bind fun lines => (returned_pure _).symm
    · rfl
  | .object id => by
    rw [Value.renderWithin, Value.renderWith]
    split
    · rfl
    split
    · rename_i hc
      have hr : (heap.object id).keptValues ≠ [] → heap.remaining (.object id :: chain) < n :=
        remaining_lt_of_ne_nil hc.2 Heap.keptValues_object_of_not_mem hn
      simp only [renderLinesWithin_eq f _ hr]
      exact returned_bind fun lines => (returned_pure _).symm
    · rfl
  | .literal text args => by
    rw [Value.renderWithin, Value.renderWith]
    split
    · rw [returned_pure]
    · simp only [renderSlotsWithin_eq (f.depth + 1) hn _ args]
      exact returned_bind fun filled => (returned_pure _).symm
  | .capturing => by rw [Value.renderWithin, Value.renderWith]
  | .resource kind => by rw [Value.renderWithin, Value.renderWith]
termination_by v => (2 * n + 1, sizeOf v, 0)

theorem renderInlineWithin_eq {chain : List Ref} (f : Frame) {counted : Bool} :
    ∀ {n offset : Nat} {labels : List Text} {values : List Value}, (values ≠ [] → heap.remaining chain < n) →
      renderInlineWithin M s heap n chain f counted offset labels values =
        returned (renderInlineWith M s heap chain f counted offset labels values)
  | _, _, [], _, _ => by rw [renderInlineWithin, renderInlineWith, returned_pure] <;> simp
  | _, _, _ :: _, [], _ => by rw [renderInlineWithin, renderInlineWith, returned_pure] <;> simp
  | 0, _, _ :: _, v :: rest, hn => absurd (hn (List.cons_ne_nil v rest)) (Nat.not_lt_zero _)
  | n + 1, offset, label :: labels, v :: rest, hn => by
    have hn := hn (List.cons_ne_nil v rest)
    rw [renderInlineWithin, renderInlineWith]
    refine returned_bind fun column => ?_
    simp only [renderWithin_eq _ (Nat.le_of_lt_succ hn) v]
    refine returned_bind fun text => ?_
    rw [renderInlineWithin_eq f fun _ => hn]
    exact returned_bind fun more => (returned_pure _).symm
termination_by n _ _ values => (2 * n, sizeOf values, 0)

theorem renderLinesWithin_eq {chain : List Ref} (f : Frame) (style : LineStyle) :
    ∀ {n : Nat} {labels : List Text} {values : List Value}, (values ≠ [] → heap.remaining chain < n) →
      renderLinesWithin M s heap n chain f style labels values =
        returned (renderLinesWith M s heap chain f style labels values)
  | _, [], _, _ => by rw [renderLinesWithin, renderLinesWith, returned_pure] <;> simp
  | _, _ :: _, [], _ => by rw [renderLinesWithin, renderLinesWith, returned_pure] <;> simp
  | 0, _ :: _, v :: rest, hn => absurd (hn (List.cons_ne_nil v rest)) (Nat.not_lt_zero _)
  | n + 1, label :: labels, v :: rest, hn => by
    have hn := hn (List.cons_ne_nil v rest)
    rw [renderLinesWithin, renderLinesWith]
    simp only [renderWithin_eq _ (Nat.le_of_lt_succ hn) v]
    refine returned_bind fun text => ?_
    rw [renderLinesWithin_eq f style fun _ => hn]
    exact returned_bind fun more => (returned_pure _).symm
termination_by n _ values => (2 * n, sizeOf values, 0)

theorem renderSlotsWithin_eq {n : Nat} {chain : List Ref} (depth : Nat) (hn : heap.remaining chain ≤ n) :
    ∀ {column : Nat} (slots : List (Placeholder × Text)) (args : List Value),
      renderSlotsWithin M s heap n chain depth column slots args =
        returned (renderSlotsWith M s heap chain depth column slots args)
  | _, [], [] => by rw [renderSlotsWithin, renderSlotsWith, returned_pure]
  | _, [], _ :: _ => by rw [renderSlotsWithin, renderSlotsWith] <;> simp
  | _, _ :: _, [] => by rw [renderSlotsWithin, renderSlotsWith]
  | column, (placeholder, after) :: slots, v :: rest => by
    rw [renderSlotsWithin, renderSlotsWith, renderSlotWithin_eq depth hn placeholder v]
    refine returned_bind fun text => ?_
    rw [renderSlotsWithin_eq depth hn slots rest]
    exact returned_bind fun more => (returned_pure _).symm
termination_by _ _ args => (2 * n + 1, sizeOf args, 0)

theorem renderSlotWithin_eq {n : Nat} {chain : List Ref} (depth : Nat) {column : Nat}
    (hn : heap.remaining chain ≤ n) : ∀ (placeholder : Placeholder) (v : Value),
      renderSlotWithin M s heap n chain depth column placeholder v =
        returned (renderSlotWith M s heap chain depth column placeholder v)
  | placeholder, v => by
    unfold renderSlotWith
    split
    · rw [renderSlotWithin, renderWithin_eq _ hn v]
    · rw [renderSlotWithin]
      cases memberName? v with
      | some name => rw [returned_pure]
      | none =>
        simp only [renderWithin_eq _ hn v]
        exact returned_bind fun text => (returned_pure _).symm
    · rename_i id _ _
      rw [renderSlotWithin] <;> try assumption
      split
      · rename_i hc
        have hr : (heap.array id).values ≠ [] → heap.remaining (.array id :: chain) < n :=
          remaining_lt_of_ne_nil hc.2 Heap.values_array_of_not_mem hn
        simp only [renderInlineWithin_eq ⟨0, depth, column⟩ hr, renderLinesWithin_eq ⟨0, depth, column⟩ _ hr]
        refine returned_bind fun inline => returned_bind fun keeps => ?_
        split
        · rw [returned_pure]
        · exact returned_bind fun lines => (returned_pure _).symm
      · rfl
    · rw [renderSlotWithin] <;> assumption
termination_by _ v => (2 * n + 1, sizeOf v, 1)

end

end

/-! ## The operations of the library -/

/-- The PHP expression for a value, with no value in it inside more than `n` containers. -/
def dumpWithin (s : Settings) (heap : Heap) (n : Nat) (v : Value) (column : Nat) : Bounded (Except Stop) Text :=
  v.renderWithin .checked s heap n [] ⟨0, 0, column⟩

/-- A template filled with values, with no value in it inside more than `n` containers. -/
def formatWithin (s : Settings) (heap : Heap) (n : Nat) (template : Text) (args : List Value) :
    Bounded (Except DumpError) Text := do
  let t := Template.parse template
  let filled ← renderSlotsWithin .exact s heap n [] 0 (columnAfter 0 t.lead) t.slots args
  return t.lead ++ filled

theorem remaining_nil (heap : Heap) : heap.remaining [] = heap.arrays.length + heap.objects.length := by
  rw [Heap.remaining, List.filter_eq_self.mpr (by simp), Heap.length_refs]

variable {s : Settings} {heap : Heap}

theorem dumpWithin_eq {n : Nat} (hn : heap.arrays.length + heap.objects.length ≤ n) (v : Value) (column : Nat) :
    dumpWithin s heap n v column = returned (dump s heap v column) := by
  rw [← remaining_nil] at hn
  rw [dumpWithin, dump, renderWithin_eq _ hn]

theorem formatWithin_eq {n : Nat} (hn : heap.arrays.length + heap.objects.length ≤ n) (template : Text)
    (args : List Value) :
    formatWithin s heap n template args = returned (format s heap template args) := by
  rw [← remaining_nil] at hn
  simp only [formatWithin, format, renderSlotsWithin_eq 0 hn]
  cases renderSlotsWith .exact s heap [] 0 _ (Template.parse template).slots args <;> rfl

end PhpLiteral
