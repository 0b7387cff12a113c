import PhpLiteral.Heap

/-!
# Appending to an array

A push puts its value under the next index. In every array that pushes and insertions make, this index lies behind
all integer keys, as far as there are integers behind them (`ArrayStore.isAhead_run`). So a push adds an entry at
the end, as long as the greatest integer is no key; once it is one, no integer is left, and the push replaces the
value of this key (`ArrayStore.entries_push_run`).
-/

namespace PhpLiteral.ArrayStore

variable {α : Type}

/-- An operation on an array. -/
inductive Operation (α : Type)
  | push (value : α)
  | insert (key : Key) (value : α)

/-- The array after an operation. -/
def step (a : ArrayStore α) : Operation α → ArrayStore α
  | .push value => a.push value
  | .insert key value => a.insert key value

/-- The array that operations make, one after the other, of the empty one. -/
def run (operations : List (Operation α)) : ArrayStore α := operations.foldl step empty

/-- The next index lies behind every integer key, or is the greatest integer where nothing lies behind. -/
def IsAhead (a : ArrayStore α) : Prop := ∀ i, .int i ∈ a.keys → nextInt64 i ≤ a.nextIndex

/-! ## Integers in order -/

theorem le_nextInt64 (i : Int64) : i ≤ nextInt64 i := by
  have h := i.toInt_le
  rw [Int64.le_iff_toInt_le, toInt_nextInt64]
  omega

theorem nextInt64_le_of_lt {i j : Int64} (h : i < j) : nextInt64 i ≤ j := by
  rw [Int64.lt_iff_toInt_lt] at h
  rw [Int64.le_iff_toInt_le, toInt_nextInt64]
  omega

theorem eq_maxValue_of_nextInt64_le {i : Int64} (h : nextInt64 i ≤ i) : i = Int64.maxValue := by
  have hm := i.toInt_le
  rw [Int64.le_iff_toInt_le, toInt_nextInt64] at h
  exact Int64.toInt_inj.mp (by omega)

/-! ## What an operation keeps -/

theorem isAhead_empty : (empty : ArrayStore α).IsAhead := fun _ hi => absurd hi List.not_mem_nil

theorem IsAhead.push {a : ArrayStore α} (h : a.IsAhead) (value : α) : (a.push value).IsAhead := by
  intro i hi
  show nextInt64 i ≤ nextInt64 a.nextIndex
  rcases Association.mem_keys_put.mp hi with e | hm
  · cases e
    exact Int64.le_refl _
  · exact Int64.le_trans (h i hm) (le_nextInt64 _)

theorem IsAhead.insert {a : ArrayStore α} (h : a.IsAhead) (key : Key) (value : α) : (a.insert key value).IsAhead := by
  intro i hi
  cases key with
  | str name =>
    show nextInt64 i ≤ a.nextIndex
    rcases Association.mem_keys_put.mp hi with e | hm
    · cases e
    · exact h i hm
  | int j =>
    show nextInt64 i ≤ if a.nextIndex ≤ j then nextInt64 j else a.nextIndex
    rcases Association.mem_keys_put.mp hi with e | hm
    · cases e
      split
      · exact Int64.le_refl _
      · rename_i hlt
        exact nextInt64_le_of_lt (Int64.not_le.mp hlt)
    · have hi := h i hm
      split
      · rename_i hj
        exact Int64.le_trans hi (Int64.le_trans hj (le_nextInt64 j))
      · exact hi

theorem IsAhead.step {a : ArrayStore α} (h : a.IsAhead) (operation : Operation α) : (a.step operation).IsAhead := by
  cases operation with
  | push value => exact h.push value
  | insert key value => exact h.insert key value

theorem isAhead_run (operations : List (Operation α)) : (run operations).IsAhead := by
  have hs : ∀ a : ArrayStore α, a.IsAhead → (operations.foldl ArrayStore.step a).IsAhead := by
    induction operations with
    | nil => exact fun _ h => h
    | cons operation rest ih => exact fun a h => ih _ (h.step operation)
  exact hs _ isAhead_empty

/-! ## Pushes -/

theorem entries_push (a : ArrayStore α) (value : α) :
    (a.push value).entries = Association.put (.int a.nextIndex) value a.entries := rfl

/-- A next index that is a key already is the greatest integer. -/
theorem IsAhead.nextIndex_eq {a : ArrayStore α} (h : a.IsAhead) (hm : .int a.nextIndex ∈ a.keys) :
    a.nextIndex = Int64.maxValue :=
  eq_maxValue_of_nextInt64_le (h _ hm)

theorem IsAhead.nextIndex_eq_of_mem_maxValue {a : ArrayStore α} (h : a.IsAhead) (hm : .int Int64.maxValue ∈ a.keys) :
    a.nextIndex = Int64.maxValue := by
  have hle := h _ hm
  rw [nextInt64, if_pos rfl] at hle
  exact Int64.le_antisymm a.nextIndex.le_maxValue hle

/-- In every array that operations make, a push adds an entry at the end, under an integer that was no key. Only
where the greatest integer is a key, the push gives this key the new value instead. -/
theorem entries_push_run (operations : List (Operation α)) (value : α) :
    if .int Int64.maxValue ∈ (run operations).keys then
      ((run operations).push value).entries =
        Association.put (.int Int64.maxValue) value (run operations).entries
    else
      ∃ i, .int i ∉ (run operations).keys ∧
        ((run operations).push value).entries = (run operations).entries ++ [(.int i, value)] := by
  have h := isAhead_run operations
  split
  · rename_i hm
    rw [entries_push, h.nextIndex_eq_of_mem_maxValue hm]
  · rename_i hm
    have hn : .int (run operations).nextIndex ∉ (run operations).keys := fun hi => hm (h.nextIndex_eq hi ▸ hi)
    exact ⟨_, hn, by rw [entries_push, Association.put_of_not_mem value hn]⟩

/-- Behind the greatest integer a push loses a value. -/
theorem push_run_maxValue : ¬ ∀ (operations : List (Operation Bool)) (value : Bool), ∃ i,
    .int i ∉ (run operations).keys ∧
      ((run operations).push value).entries = (run operations).entries ++ [(.int i, value)] := by
  intro h
  obtain ⟨i, -, he⟩ := h [.insert (.int Int64.maxValue) false] true
  have hl := congrArg List.length he
  rw [List.length_append, List.length_singleton] at hl
  exact absurd hl (by decide)

end PhpLiteral.ArrayStore
