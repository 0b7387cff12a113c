import PhpLiteral.Proofs.Render

/-!
# What decides whether a value can be written

A walk through a value from left to right goes into each container once, knows nothing of lines and columns, and
stops at the first thing that cannot be written (`Value.walk`). Rendering may write the same entries twice, at
different levels and columns, and still has the outcome of this walk (`dump_outcome`), unless a column is so great that
a sum leaves 64 bits (`dump_overflow_walk`).
-/

namespace PhpLiteral

mutual

/-- Walks through a value at a depth. `chain` lists the containers that enclose it. -/
def Value.walk (heap : Heap) (maxDepth depth : Nat) (chain : List Ref) : Value → Except DumpError Unit
  | .atom _ => .ok ()
  | .array id =>
    if (heap.array id).values.isEmpty then .ok ()
    else if depth ≤ maxDepth ∧ .array id ∉ chain then
      walkAll heap maxDepth (depth + 1) (.array id :: chain) (heap.array id).values
    else .error .recursion
  | .object id =>
    if (heap.object id).isAnonymous then .error (.unsupported .anonymousClass)
    else if depth ≤ maxDepth ∧ .object id ∉ chain then
      walkAll heap maxDepth (depth + 1) (.object id :: chain) (heap.object id).keptValues
    else .error .recursion
  | .literal text args =>
    if args.isEmpty then .ok ()
    else walkArguments heap maxDepth (depth + 1) chain ((Template.parse text).slots.map Prod.fst) args
  | .capturing => .error (.unsupported .closure)
  | .resource kind => .error (.unsupported (.resource kind))
termination_by v => (heap.remaining chain, sizeOf v, 1)
decreasing_by
  · exact Heap.enter_lt (And.right ‹_›) Heap.values_array_of_not_mem
  · exact Heap.enter_lt (And.right ‹_›) Heap.keptValues_object_of_not_mem
  · decreasing_tactic

/-- Walks through values in order. -/
def walkAll (heap : Heap) (maxDepth depth : Nat) (chain : List Ref) : List Value → Except DumpError Unit
  | [] => .ok ()
  | value :: rest => do
    value.walk heap maxDepth depth chain
    walkAll heap maxDepth depth chain rest
termination_by values => (heap.remaining chain, sizeOf values, 0)

/-- Walks through arguments in the order of the placeholders that they are for. -/
def walkArguments (heap : Heap) (maxDepth depth : Nat) (chain : List Ref) :
    List Placeholder → List Value → Except DumpError Unit
  | [], [] => .ok ()
  | [], unused => .error (.tooManyArguments unused.length)
  | _ :: _, [] => .error .insufficientArguments
  | placeholder :: placeholders, value :: rest => do
    walkArgument heap maxDepth depth chain placeholder value
    walkArguments heap maxDepth depth chain placeholders rest
termination_by _ args => (heap.remaining chain, sizeOf args, 0)

/-- Walks through the argument for a placeholder. A list of arguments must be an array, and may be empty. -/
def walkArgument (heap : Heap) (maxDepth depth : Nat) (chain : List Ref) :
    Placeholder → Value → Except DumpError Unit
  | .value, value => value.walk heap maxDepth depth chain
  | .member _, value => value.walk heap maxDepth depth chain
  | _, .array id =>
    if depth ≤ maxDepth ∧ .array id ∉ chain then
      walkAll heap maxDepth (depth + 1) (.array id :: chain) (heap.array id).values
    else .error .recursion
  | placeholder, value => .error (.invalidArgument placeholder value.kind)
termination_by _ value => (heap.remaining chain, sizeOf value, 2)
decreasing_by
  · decreasing_tactic
  · decreasing_tactic
  · exact Heap.enter_lt (And.right ‹_›) Heap.values_array_of_not_mem

end

variable {heap : Heap} {maxDepth : Nat}

mutual

/-- The outcome of expanding a value is that of a walk. -/
theorem expand_outcome (depth : Nat) (chain : List Ref) : ∀ v : Value,
    (v.expand heap maxDepth depth chain).map (fun _ => ()) = v.walk heap maxDepth depth chain
  | .atom a => by rw [Value.expand, Value.walk, Except.map]
  | .array id => by
    rw [Value.expand, Value.walk]
    split
    · rfl
    split
    · rw [map_map, expandAll_outcome (depth + 1) (.array id :: chain)]
    · rfl
  | .object id => by
    rw [Value.expand, Value.walk]
    split
    · rfl
    split
    · rw [map_map, expandAll_outcome (depth + 1) (.object id :: chain)]
    · rfl
  | .literal text args => by
    rw [Value.expand, Value.walk]
    split
    · rfl
    · rw [map_map, expandSlots_outcome (depth + 1) chain _ args]
  | .capturing => by rw [Value.expand, Value.walk, Except.map]
  | .resource kind => by rw [Value.expand, Value.walk, Except.map]
termination_by v => (heap.remaining chain, sizeOf v, 1)
decreasing_by
  · exact Heap.enter_lt (And.right ‹_›) Heap.values_array_of_not_mem
  · exact Heap.enter_lt (And.right ‹_›) Heap.keptValues_object_of_not_mem
  · decreasing_tactic

theorem expandAll_outcome (depth : Nat) (chain : List Ref) : ∀ vs : List Value,
    (expandAll heap maxDepth depth chain vs).map (fun _ => ()) = walkAll heap maxDepth depth chain vs
  | [] => by rw [expandAll, walkAll, Except.map]
  | v :: rest => by
    rw [expandAll, walkAll, ← expand_outcome depth chain v, ← expandAll_outcome depth chain rest]
    cases v.expand heap maxDepth depth chain with
    | error e => rfl
    | ok t => cases expandAll heap maxDepth depth chain rest <;> rfl
termination_by vs => (heap.remaining chain, sizeOf vs, 0)

theorem expandSlots_outcome (depth : Nat) (chain : List Ref) :
    ∀ (slots : List (Placeholder × Text)) (args : List Value),
      (expandSlots heap maxDepth depth chain slots args).map (fun _ => ()) =
        walkArguments heap maxDepth depth chain (slots.map Prod.fst) args
  | [], [] => by simp [expandSlots, walkArguments, Except.map]
  | [], v :: rest => by simp [expandSlots, walkArguments, Except.map]
  | _ :: _, [] => by simp [expandSlots, walkArguments, Except.map]
  | (placeholder, after) :: slots, v :: rest => by
    rw [List.map_cons, expandSlots, walkArguments, ← expandSlot_outcome depth chain placeholder v,
      ← expandSlots_outcome depth chain slots rest]
    cases expandSlot heap maxDepth depth chain placeholder v with
    | error e => rfl
    | ok slot => cases expandSlots heap maxDepth depth chain slots rest <;> rfl
termination_by _ args => (heap.remaining chain, sizeOf args, 0)

theorem expandSlot_outcome (depth : Nat) (chain : List Ref) : ∀ (placeholder : Placeholder) (v : Value),
    (expandSlot heap maxDepth depth chain placeholder v).map (fun _ => ()) =
      walkArgument heap maxDepth depth chain placeholder v
  | placeholder, v => by
    unfold expandSlot
    split
    · rw [map_map, expand_outcome depth chain v, walkArgument]
    · rw [walkArgument]
      split
      · rename_i hn
        rw [eq_of_memberName? hn, Value.walk, Except.map]
      · rw [map_map, expand_outcome depth chain v]
    · rw [walkArgument] <;> try assumption
      split
      · rw [map_map, expandAll_outcome (depth + 1)]
      · rfl
    · rw [walkArgument] <;> first | rfl | assumption
termination_by _ v => (heap.remaining chain, sizeOf v, 2)
decreasing_by
  · decreasing_tactic
  · decreasing_tactic
  · exact Heap.enter_lt (And.right ‹_›) Heap.values_array_of_not_mem

end

theorem format_outcome (s : Settings) (template : Text) (args : List Value) :
    (format s heap template args).map (fun _ => ()) =
      walkArguments heap s.maxDepth 0 [] ((Template.parse template).slots.map Prod.fst) args := by
  rw [format_eq, map_map, expandSlots_outcome]

/-- The outcome of writing a value is that of the walk through it if all sums stay within 64 bits, and the program is
aborted if one does not. So as far as sums stay within 64 bits, neither the settings beside the greatest depth nor the
column matter to the outcome. -/
theorem dump_outcome (s : Settings) (heap : Heap) (v : Value) (column : Nat) :
    (dump s heap v column).map (fun _ => ()) =
        (if InRange s heap v column then (v.walk heap s.maxDepth 0 []).mapError .error else .error .overflow) ∧
      ∀ (wrapLength : Nat) (indent : Indent) (factory : Text) (column' : Nat), InRange s heap v column →
        InRange ⟨s.maxDepth, wrapLength, indent, factory⟩ heap v column' →
          (dump ⟨s.maxDepth, wrapLength, indent, factory⟩ heap v column').map (fun _ => ()) =
            (dump s heap v column).map fun _ => () := by
  have h : ∀ (s : Settings) (column : Nat), (dump s heap v column).map (fun _ => ()) =
      if InRange s heap v column then (v.walk heap s.maxDepth 0 []).mapError .error else .error .overflow := by
    intro s column
    rw [dump_eq, ← expand_outcome 0 []]
    split
    · cases v.expand heap s.maxDepth 0 [] <;> rfl
    · rfl
  exact ⟨h s column, fun wrapLength indent factory column' hr hr' => by rw [h, h, if_pos hr, if_pos hr']⟩

/-- An array of one entry. -/
def single : Heap where
  arrays := [.ofList [.atom (.int 1)]]
  objects := []

theorem values_single : (single.array 0).values = [.atom (.int 1)] := rfl

theorem expand_single : (Value.array 0).expand single 50 0 [] =
    .ok (.array (single.array 0).keys [.atom (.int 1)]) := by
  simp [Value.expand, expandAll, values_single, Except.map, bind, Except.bind, pure, Except.pure]

theorem walk_single : (Value.array 0).walk single 50 0 [] = .ok () := by
  simp [Value.walk, walkAll, values_single, bind, Except.bind]

/-- Neither a narrow line nor a column far to the right changes that the array can be written. -/
theorem dump_outcome_single :
    (dump {} single (.array 0) 0).map (fun _ => ()) = .ok () ∧
      (dump { wrapLength := 2 } single (.array 0) 1000).map (fun _ => ()) = .ok () := by
  have h₀ : InRange {} single (.array 0) 0 := by
    rw [InRange, sums_eq_of_expand expand_single]
    decide
  have h₁ : InRange { wrapLength := 2 } single (.array 0) 1000 := by
    rw [InRange, sums_eq_of_expand expand_single]
    decide
  obtain ⟨h, hs⟩ := dump_outcome {} single (.array 0) 0
  rw [if_pos h₀, show (Value.array 0).walk single ({} : Settings).maxDepth 0 [] = .ok () from walk_single] at h
  exact ⟨h, (hs 2 .tab _ 1000 h₀ h₁).trans h⟩

/-- At a column near the greatest one, the program is aborted on a value through which the walk ends well. -/
theorem dump_overflow_walk :
    dump {} single (.array 0) (UInt64.size - 3) = .error .overflow ∧ (Value.array 0).walk single 50 0 [] = .ok () := by
  refine ⟨?_, walk_single⟩
  rw [dump_of_expand expand_single, if_neg (by decide)]

end PhpLiteral
