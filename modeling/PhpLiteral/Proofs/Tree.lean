import PhpLiteral.Proofs.Measured

/-!
# Expanded values

A tree is a value in which every array, object and template has been expanded, so that only its layout is still to
be chosen.

* `Value.expand`: the tree of a value, or the error of rendering it;
* `Tree.layout`: the text of a tree;
* `Tree.sums`: the sums of columns and lengths that its layout takes.
-/

namespace PhpLiteral

/-! ## Expansion -/

mutual

/-- A value with all containers expanded. -/
inductive Tree
  | atom (a : Atom)
  | array (keys : List Key) (values : List Tree)
  /-- An object with the stored names of the properties to write. -/
  | object (className : Text) (names : List Text) (values : List Tree)
  /-- Raw code. -/
  | code (text : Text)
  /-- A filled template: its first text, and the filled places, each with the text after it. -/
  | template (lead : Text) (slots : List (Slot × Text))

/-- A place of a template with what fills it. -/
inductive Slot
  | value (t : Tree)
  /-- A member with a name that needs no braces. -/
  | name (connective : Connective) (name : Text)
  | member (connective : Connective) (t : Tree)
  /-- A list of arguments, with text keys as their names if `named`. -/
  | arguments (named : Bool) (keys : List Key) (values : List Tree)

end

mutual

/-- The tree of a value at a depth. `chain` lists the containers that enclose it. -/
def Value.expand (heap : Heap) (maxDepth depth : Nat) (chain : List Ref) : Value → Except DumpError Tree
  | .atom a => .ok (.atom a)
  | .array id =>
    if (heap.array id).values.isEmpty then .ok (.array [] [])
    else if depth ≤ maxDepth ∧ .array id ∉ chain then
      (expandAll heap maxDepth (depth + 1) (.array id :: chain) (heap.array id).values).map
        (.array (heap.array id).keys)
    else .error .recursion
  | .object id =>
    if (heap.object id).isAnonymous then .error (.unsupported .anonymousClass)
    else if depth ≤ maxDepth ∧ .object id ∉ chain then
      (expandAll heap maxDepth (depth + 1) (.object id :: chain) (heap.object id).keptValues).map
        (.object (heap.object id).className (heap.object id).keptNames)
    else .error .recursion
  | .literal text args =>
    if args.isEmpty then .ok (.code text)
    else
      (expandSlots heap maxDepth (depth + 1) chain (Template.parse text).slots args).map
        (.template (Template.parse text).lead)
  | .capturing => .error (.unsupported .closure)
  | .resource kind => .error (.unsupported (.resource kind))
termination_by v => (heap.remaining chain, sizeOf v, 1)
decreasing_by
  · exact Heap.enter_lt (And.right ‹_›) Heap.values_array_of_not_mem
  · exact Heap.enter_lt (And.right ‹_›) Heap.keptValues_object_of_not_mem
  · decreasing_tactic

/-- The trees of values in order. -/
def expandAll (heap : Heap) (maxDepth depth : Nat) (chain : List Ref) :
    List Value → Except DumpError (List Tree)
  | [] => .ok []
  | value :: rest => do
    let tree ← value.expand heap maxDepth depth chain
    let trees ← expandAll heap maxDepth depth chain rest
    return tree :: trees
termination_by values => (heap.remaining chain, sizeOf values, 0)

/-- The filled places of a template. -/
def expandSlots (heap : Heap) (maxDepth depth : Nat) (chain : List Ref) :
    List (Placeholder × Text) → List Value → Except DumpError (List (Slot × Text))
  | [], [] => .ok []
  | [], unused => .error (.tooManyArguments unused.length)
  | _ :: _, [] => .error .insufficientArguments
  | (placeholder, after) :: slots, value :: rest => do
    let slot ← expandSlot heap maxDepth depth chain placeholder value
    let filled ← expandSlots heap maxDepth depth chain slots rest
    return (slot, after) :: filled
termination_by _ args => (heap.remaining chain, sizeOf args, 0)

/-- A filled place. -/
def expandSlot (heap : Heap) (maxDepth depth : Nat) (chain : List Ref) :
    Placeholder → Value → Except DumpError Slot
  | .value, value => (value.expand heap maxDepth depth chain).map .value
  | .member connective, value =>
    match memberName? value with
    | some name => .ok (.name connective name)
    | none => (value.expand heap maxDepth depth chain).map (.member connective)
  | placeholder, .array id =>
    if depth ≤ maxDepth ∧ .array id ∉ chain then
      (expandAll heap maxDepth (depth + 1) (.array id :: chain) (heap.array id).values).map
        (.arguments (placeholder == .namedSpread) (heap.array id).keys)
    else .error .recursion
  | placeholder, value => .error (.invalidArgument placeholder value.kind)
termination_by _ value => (heap.remaining chain, sizeOf value, 2)
decreasing_by
  · decreasing_tactic
  · decreasing_tactic
  · exact Heap.enter_lt (And.right ‹_›) Heap.values_array_of_not_mem

end

/-- Whether a tree is raw code. -/
def Tree.isCode : Tree → Bool
  | .code _ => true
  | .template _ _ => true
  | _ => false

theorem expandSlot_arguments {placeholder : Placeholder} (hp : placeholder.isSpread = true) (heap : Heap)
    (maxDepth depth : Nat) (chain : List Ref) (id : Nat) :
    expandSlot heap maxDepth depth chain placeholder (.array id) =
      if depth ≤ maxDepth ∧ .array id ∉ chain then
        (expandAll heap maxDepth (depth + 1) (.array id :: chain) (heap.array id).values).map
          (.arguments (placeholder == .namedSpread) (heap.array id).keys)
      else .error .recursion := by
  cases placeholder with
  | value => cases hp
  | member connective => cases hp
  | spread => rw [expandSlot] <;> simp
  | starSpread => rw [expandSlot] <;> simp
  | namedSpread => rw [expandSlot] <;> simp

theorem expandSlot_of_ne_array {placeholder : Placeholder} (hp : placeholder.isSpread = true) (heap : Heap)
    (maxDepth depth : Nat) (chain : List Ref) {v : Value} (hv : v.kind ≠ .array) :
    expandSlot heap maxDepth depth chain placeholder v = .error (.invalidArgument placeholder v.kind) := by
  have hn : ∀ id, v ≠ .array id := by
    rintro id rfl
    exact hv rfl
  cases placeholder with
  | value => cases hp
  | member connective => cases hp
  | spread => rw [expandSlot] <;> simp [hn]
  | starSpread => rw [expandSlot] <;> simp [hn]
  | namedSpread => rw [expandSlot] <;> simp [hn]

/-! ## Layout -/

mutual

/-- The text of a tree whose first line has a level of indentation and that starts at a column. -/
def Tree.layout (s : Settings) (level column : Nat) : Tree → Text
  | .atom a => a.code
  | .array keys values =>
    if values.isEmpty then utf8 "[]"
    else
      let labels := entryLabels keys
      let inline := layoutInline s column true 0 labels values
      if s.keepsArray level column inline then inlineArray inline
      else linesArray s level (layoutLines s level (arrayLines s level) labels values)
  | .object className names values =>
    objectText s level className (layoutLines s level (objectLines s level) (names.map propertyLabel) values)
  | .code text => placeCode s level text
  | .template lead slots => placeCode s level (lead ++ layoutSlots s (columnAfter 0 lead) slots)

/-- Trees on the line of their parent, each behind its label; `offset` counts the bytes written before. -/
def layoutInline (s : Settings) (column : Nat) (counted : Bool) (offset : Nat) : List Text → List Tree → Text
  | label :: labels, tree :: rest =>
    let before := (separator offset).length + offset + labelRoom counted label
    let entry := separator offset ++ label ++ tree.layout s 0 (column + before)
    entry ++ layoutInline s column counted (offset + entry.length) labels rest
  | _, _ => []

/-- Trees on lines of their own, each behind its label. -/
def layoutLines (s : Settings) (level : Nat) (style : LineStyle) : List Text → List Tree → Text
  | label :: labels, tree :: rest =>
    style.before ++ label ++ tree.layout s (level + 1) (labelRoom style.counted label) ++ style.after ++
      layoutLines s level style labels rest
  | _, _ => []

/-- The filled places of a template, the first one at a column. -/
def layoutSlots (s : Settings) (column : Nat) : List (Slot × Text) → Text
  | [] => []
  | (slot, after) :: rest =>
    let filled := slot.layout s column ++ after
    filled ++ layoutSlots s (columnAfter column filled) rest

/-- The text of a filled place. -/
def Slot.layout (s : Settings) (column : Nat) : Slot → Text
  | .value tree => tree.layout s 0 column
  | .name connective name => connective.text ++ name
  | .member connective tree => bracedMember connective (tree.layout s 0 0)
  | .arguments named keys values =>
    let labels := keys.map (argumentLabel named)
    let inline := layoutInline s column false 0 labels values
    if s.keepsArguments column values.length inline then inline
    else layoutLines s 0 (argumentLines s) labels values ++ utf8 "\n"

end

/-! ## Sums -/

mutual

/-- The sums for the layout of a tree whose first line has a level of indentation and that starts at a column. -/
def Tree.sums (s : Settings) (level column : Nat) : Tree → List Nat
  | .atom _ => []
  | .array keys values =>
    if values.isEmpty then []
    else
      let labels := entryLabels keys
      let inline := layoutInline s column true 0 labels values
      sumsInline s column true 0 labels values ++ s.arrayBudget level column inline ::
        if s.keepsArray level column inline then [] else sumsLines s level (arrayLines s level) labels values
  | .object _ names values => sumsLines s level (objectLines s level) (names.map propertyLabel) values
  | .code _ => []
  | .template lead slots => sumsSlots s (columnAfter 0 lead) slots

/-- The sums for trees on the line of their parent: the column of each, and its own. -/
def sumsInline (s : Settings) (column : Nat) (counted : Bool) (offset : Nat) : List Text → List Tree → List Nat
  | label :: labels, tree :: rest =>
    let before := (separator offset).length + offset + labelRoom counted label
    let entry := separator offset ++ label ++ tree.layout s 0 (column + before)
    (column + before) :: tree.sums s 0 (column + before) ++
      sumsInline s column counted (offset + entry.length) labels rest
  | _, _ => []

/-- The sums for trees on lines of their own. -/
def sumsLines (s : Settings) (level : Nat) (style : LineStyle) : List Text → List Tree → List Nat
  | label :: labels, tree :: rest =>
    tree.sums s (level + 1) (labelRoom style.counted label) ++ sumsLines s level style labels rest
  | _, _ => []

/-- The sums for the filled places of a template, the first one at a column. -/
def sumsSlots (s : Settings) (column : Nat) : List (Slot × Text) → List Nat
  | [] => []
  | (slot, after) :: rest =>
    slot.sums s column ++ sumsSlots s (columnAfter column (slot.layout s column ++ after)) rest

/-- The sums for a filled place. -/
def Slot.sums (s : Settings) (column : Nat) : Slot → List Nat
  | .value tree => tree.sums s 0 column
  | .name _ _ => []
  | .member _ tree => tree.sums s 0 0
  | .arguments named keys values =>
    let labels := keys.map (argumentLabel named)
    let inline := layoutInline s column false 0 labels values
    sumsInline s column false 0 labels values ++ (if hasLineFeed inline then [] else [column + inline.length]) ++
      if s.keepsArguments column values.length inline then [] else sumsLines s 0 (argumentLines s) labels values

end

end PhpLiteral
