import PhpLiteral.DumpError
import PhpLiteral.Layout

/-!
# Rendering values

How a value is written at a place. Entries are first written on one line: an array stands on one line if this text
has no line feed and fits the width that is left, and else its entries are written once more, each on a line of its
own; the same goes for a list of arguments. An object always has one property on each line.

The containers that enclose a place are kept in a chain, and none of them may be entered again. This is why
rendering ends: a container is entered only if it makes the number of containers outside of the chain smaller.

What becomes of sums of columns and lengths is up to a machine (`Machine`): one that counts in 64 bits stops at a sum
that leaves them (`Machine.checked`), another one adds as great numbers as there are (`Machine.exact`).

* `Value.renderWith`: the text of a value, or why there is none;
* `renderInlineWith`, `renderLinesWith`: the two ways to write entries;
* `renderSlotsWith`: the filled places of a template.

`Value.render` and the others without a machine in their names are those that count in 64 bits.
-/

namespace PhpLiteral

/-- A place for a value: the level of indentation of its line, how deep it is nested, and the column. -/
structure Frame where
  level : Nat := 0
  depth : Nat := 0
  column : Nat := 0
  deriving DecidableEq, Repr

namespace Frame

/-- The place of a child on the line of its parent. -/
def inlineChild (f : Frame) (column : Nat) : Frame := ⟨0, f.depth + 1, column⟩

/-- The place of a child on a line of its own. -/
def lineChild (f : Frame) (column : Nat) : Frame := ⟨f.level + 1, f.depth + 1, column⟩

@[simp] theorem inlineChild_level (f : Frame) (column : Nat) : (f.inlineChild column).level = 0 := rfl

@[simp] theorem inlineChild_depth (f : Frame) (column : Nat) : (f.inlineChild column).depth = f.depth + 1 := rfl

@[simp] theorem inlineChild_column (f : Frame) (column : Nat) : (f.inlineChild column).column = column := rfl

@[simp] theorem lineChild_level (f : Frame) (column : Nat) : (f.lineChild column).level = f.level + 1 := rfl

@[simp] theorem lineChild_depth (f : Frame) (column : Nat) : (f.lineChild column).depth = f.depth + 1 := rfl

@[simp] theorem lineChild_column (f : Frame) (column : Nat) : (f.lineChild column).column = column := rfl

end Frame

/-! ## Why rendering ends -/

namespace Heap

variable {h : Heap} {r : Ref} {chain : List Ref}

theorem remaining_cons_lt (hr : r ∈ h.refs) (hc : r ∉ chain) : h.remaining (r :: chain) < h.remaining chain := by
  have e : h.refs.filter (· ∉ r :: chain) = (h.refs.filter (· ∉ chain)).filter (· ≠ r) := by
    simp [List.filter_filter]
  rw [remaining, remaining, e, List.length_filter_lt_length_iff_exists]
  exact ⟨r, by simp [hr, hc], by simp⟩

theorem remaining_cons_of_not_mem (hr : r ∉ h.refs) : h.remaining (r :: chain) = h.remaining chain := by
  rw [remaining, remaining]
  congr 1
  refine List.filter_congr fun x hx => ?_
  have : x ≠ r := fun e => hr (e ▸ hx)
  simp [this]

theorem values_array_of_not_mem {id : Nat} (hr : .array id ∉ h.refs) : (h.array id).values = [] := by
  rw [mem_refs_array, Nat.not_lt] at hr
  rw [array, List.getD, List.getElem?_eq_none hr]
  rfl

theorem keptValues_object_of_not_mem {id : Nat} (hr : .object id ∉ h.refs) : (h.object id).keptValues = [] := by
  rw [mem_refs_object, Nat.not_lt] at hr
  rw [object, List.getD, List.getElem?_eq_none hr]
  rfl

/-- A container that does not enclose the place leads to a smaller task: fewer containers remain, or it is not
there and has no contents. -/
theorem enter_lt {contents : List Value} {v : Value} {k : Nat} (hc : r ∉ chain) (he : r ∉ h.refs → contents = []) :
    Prod.Lex (· < ·) (Prod.Lex (· < ·) (· < ·)) (h.remaining (r :: chain), sizeOf contents, 0)
      (h.remaining chain, sizeOf v, k + 1) := by
  have hv : 1 ≤ sizeOf v := by cases v <;> simp +arith
  by_cases hr : r ∈ h.refs
  · exact .left _ _ (remaining_cons_lt hr hc)
  · -- Nothing is there, so that the number of containers stays and the task shrinks to an empty list.
    rw [remaining_cons_of_not_mem hr, he hr]
    refine .right _ ?_
    rcases Nat.eq_or_lt_of_le hv with hv | hv
    · rw [← hv]
      exact .right _ (Nat.succ_pos k)
    · exact .left _ _ hv

end Heap

/-! ## Machines -/

/-- How sums of columns and lengths are computed, and how rendering fails, where the outcome of rendering is in a
monad. -/
structure Machine (m : Type → Type) where
  sum : Nat → m Nat
  fail : {α : Type} → DumpError → m α

namespace Machine

/-- Sums in 64 bits: one that leaves them stops the program. -/
def checked : Machine (Except Stop) where
  sum n := if n < UInt64.size then .ok n else .error .overflow
  fail e := .error (.error e)

/-- Sums of any size. -/
def exact : Machine (Except DumpError) where
  sum n := .ok n
  fail e := .error e

variable {m : Type → Type} [Monad m]

/-- Whether an array with these entries on one line stays on this line. The sum is computed in any case. -/
def keepsArray (M : Machine m) (s : Settings) (level column : Nat) (inline : Text) : m Bool := do
  let budget ← M.sum (s.arrayBudget level column inline)
  return !hasLineFeed inline && s.fits budget

/-- Whether arguments on one line stay on this line. The sum is computed for any number of them, but not for a text with
a line feed. -/
def keepsArguments (M : Machine m) (s : Settings) (column count : Nat) (inline : Text) : m Bool :=
  if hasLineFeed inline then return count ≤ 1
  else do
    let width ← M.sum (column + inline.length)
    return count ≤ 1 || s.fits width

end Machine

/-! ## Rendering -/

section

variable {m : Type → Type} [Monad m]

mutual

/-- The text of a value at a place. `chain` lists the containers that enclose it. -/
def Value.renderWith (M : Machine m) (s : Settings) (heap : Heap) (chain : List Ref) (f : Frame) : Value → m Text
  | .atom a => return a.code
  | .array id =>
    if (heap.array id).values.isEmpty then return utf8 "[]"
    else if f.depth ≤ s.maxDepth ∧ .array id ∉ chain then do
      let labels := entryLabels (heap.array id).keys
      let values := (heap.array id).values
      let inline ← renderInlineWith M s heap (.array id :: chain) f true 0 labels values
      if ← M.keepsArray s f.level f.column inline then return inlineArray inline
      else
        let lines ← renderLinesWith M s heap (.array id :: chain) f (arrayLines s f.level) labels values
        return linesArray s f.level lines
    else M.fail .recursion
  | .object id =>
    if (heap.object id).isAnonymous then M.fail (.unsupported .anonymousClass)
    else if f.depth ≤ s.maxDepth ∧ .object id ∉ chain then do
      let labels := (heap.object id).keptNames.map propertyLabel
      let values := (heap.object id).keptValues
      let lines ← renderLinesWith M s heap (.object id :: chain) f (objectLines s f.level) labels values
      return objectText s f.level (heap.object id).className lines
    else M.fail .recursion
  | .literal text args =>
    if args.isEmpty then return placeCode s f.level text
    else do
      let t := Template.parse text
      let filled ← renderSlotsWith M s heap chain (f.depth + 1) (columnAfter 0 t.lead) t.slots args
      return placeCode s f.level (t.lead ++ filled)
  | .capturing => M.fail (.unsupported .closure)
  | .resource kind => M.fail (.unsupported (.resource kind))
termination_by v => (heap.remaining chain, sizeOf v, 1)
decreasing_by
  · exact Heap.enter_lt (And.right ‹_›) Heap.values_array_of_not_mem
  · exact Heap.enter_lt (And.right ‹_›) Heap.values_array_of_not_mem
  · exact Heap.enter_lt (And.right ‹_›) Heap.keptValues_object_of_not_mem
  · decreasing_tactic

/-- Values on the line of their parent, each behind its label; `offset` counts the bytes written before. -/
def renderInlineWith (M : Machine m) (s : Settings) (heap : Heap) (chain : List Ref) (f : Frame) (counted : Bool)
    (offset : Nat) : List Text → List Value → m Text
  | label :: labels, value :: rest => do
    let before := (separator offset).length + offset + labelRoom counted label
    let column ← M.sum (f.column + before)
    let text ← value.renderWith M s heap chain (f.inlineChild column)
    let entry := separator offset ++ label ++ text
    let more ← renderInlineWith M s heap chain f counted (offset + entry.length) labels rest
    return entry ++ more
  | _, _ => return []
termination_by _ values => (heap.remaining chain, sizeOf values, 0)

/-- Values on lines of their own, each behind its label. -/
def renderLinesWith (M : Machine m) (s : Settings) (heap : Heap) (chain : List Ref) (f : Frame) (style : LineStyle) :
    List Text → List Value → m Text
  | label :: labels, value :: rest => do
    let text ← value.renderWith M s heap chain (f.lineChild (labelRoom style.counted label))
    let more ← renderLinesWith M s heap chain f style labels rest
    return style.before ++ label ++ text ++ style.after ++ more
  | _, _ => return []
termination_by _ values => (heap.remaining chain, sizeOf values, 0)

/-- The placeholders of a template filled with arguments in order, each with the text after it. -/
def renderSlotsWith (M : Machine m) (s : Settings) (heap : Heap) (chain : List Ref) (depth column : Nat) :
    List (Placeholder × Text) → List Value → m Text
  | [], [] => return []
  | [], unused => M.fail (.tooManyArguments unused.length)
  | _ :: _, [] => M.fail .insufficientArguments
  | (placeholder, after) :: slots, value :: rest => do
    let text ← renderSlotWith M s heap chain depth column placeholder value
    let more ← renderSlotsWith M s heap chain depth (columnAfter column (text ++ after)) slots rest
    return text ++ after ++ more
termination_by _ args => (heap.remaining chain, sizeOf args, 0)

/-- A placeholder filled with its argument. A member whose name is an identifier is named by it, any other by an
expression in braces. -/
def renderSlotWith (M : Machine m) (s : Settings) (heap : Heap) (chain : List Ref) (depth column : Nat) :
    Placeholder → Value → m Text
  | .value, value => value.renderWith M s heap chain ⟨0, depth, column⟩
  | .member connective, value =>
    match memberName? value with
    | some name => return connective.text ++ name
    | none => do
      let text ← value.renderWith M s heap chain ⟨0, depth, 0⟩
      return bracedMember connective text
  | placeholder, .array id =>
    if depth ≤ s.maxDepth ∧ .array id ∉ chain then do
      let f : Frame := ⟨0, depth, column⟩
      let values := (heap.array id).values
      let labels := (heap.array id).keys.map (argumentLabel (placeholder == .namedSpread))
      let inline ← renderInlineWith M s heap (.array id :: chain) f false 0 labels values
      if ← M.keepsArguments s column values.length inline then return inline
      else
        let lines ← renderLinesWith M s heap (.array id :: chain) f (argumentLines s) labels values
        return lines ++ utf8 "\n"
    else M.fail .recursion
  | placeholder, value => M.fail (.invalidArgument placeholder value.kind)
termination_by _ value => (heap.remaining chain, sizeOf value, 2)
decreasing_by
  · decreasing_tactic
  · decreasing_tactic
  · exact Heap.enter_lt (And.right ‹_›) Heap.values_array_of_not_mem
  · exact Heap.enter_lt (And.right ‹_›) Heap.values_array_of_not_mem

end

end

/-! ## Rendering in 64 bits -/

/-- The text of a value at a place, or why there is none. -/
abbrev Value.render (s : Settings) (heap : Heap) (chain : List Ref) (f : Frame) (v : Value) : Except Stop Text :=
  v.renderWith .checked s heap chain f

/-- A placeholder filled with its argument, or why it is not. -/
abbrev renderSlot (s : Settings) (heap : Heap) (chain : List Ref) (depth column : Nat) (placeholder : Placeholder)
    (v : Value) : Except Stop Text :=
  renderSlotWith .checked s heap chain depth column placeholder v

end PhpLiteral
