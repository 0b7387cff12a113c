import Mathlib.Data.List.Induction
import PhpLiteral.Proofs.Store.Append

/-!
# Arrays of lists

An array that is made of a list holds the values of the list under their indices, in order (`ArrayStore.IsListOf`), as
each push puts its value under the next index. An array that is made of entries with different keys holds these entries
(`ArrayStore.entries_ofEntries`).
-/

namespace PhpLiteral.ArrayStore

variable {α : Type}

/-- The number of indices of a list: there is one for each integer that is not negative. -/
def indexCount : Nat := 9223372036854775808

/-- The keys of a list of a length. -/
def indices (length : Nat) : List Key := (List.range length).map fun i => .int (.ofNat i)

theorem indices_succ (n : Nat) : indices (n + 1) = indices n ++ [.int (.ofNat n)] := by
  simp [indices, List.range_succ]

theorem toInt_ofNat {n : Nat} (h : n < indexCount) : (Int64.ofNat n).toInt = n := Int64.toInt_ofNat_of_lt h

/-- An array holds values under their indices, and its next index goes on with them as far as there are any. -/
structure IsListOf (a : ArrayStore α) (values : List α) : Prop where
  keys_eq : a.keys = indices values.length
  values_eq : a.values = values
  nextIndex_eq : values.length < indexCount → a.nextIndex = .ofNat values.length

theorem int_ofNat_not_mem_indices {n : Nat} (h : n < indexCount) : .int (.ofNat n) ∉ indices n := by
  rw [indices, List.mem_map]
  rintro ⟨i, hi, e⟩
  rw [List.mem_range] at hi
  have := congrArg Int64.toInt (Key.int.inj e)
  rw [toInt_ofNat (Nat.lt_trans hi h), toInt_ofNat h] at this
  omega

theorem IsListOf.push {a : ArrayStore α} {values : List α} (h : a.IsListOf values) (hl : values.length < indexCount)
    (value : α) : (a.push value).IsListOf (values ++ [value]) := by
  have hn := h.nextIndex_eq hl
  have hm : .int a.nextIndex ∉ a.entries.map Prod.fst := by
    rw [show a.entries.map Prod.fst = indices values.length from h.keys_eq, hn]
    exact int_ofNat_not_mem_indices hl
  have he : (a.push value).entries = a.entries ++ [(.int (.ofNat values.length), value)] := by
    rw [entries_push, Association.put_of_not_mem value hm, hn]
  refine ⟨?_, ?_, fun hs => ?_⟩
  · rw [keys, he, List.map_append, List.length_append, List.length_singleton, indices_succ]
    exact congrArg (· ++ _) h.keys_eq
  · rw [ArrayStore.values, he, List.map_append]
    exact congrArg (· ++ _) h.values_eq
  · rw [List.length_append, List.length_singleton] at hs ⊢
    rw [ArrayStore.push, ← Int64.toInt_inj, toInt_nextInt64, hn, toInt_ofNat hl, toInt_ofNat hs, Int64.toInt_maxValue]
    rw [indexCount] at hs
    omega

theorem isListOf_ofList (values : List α) (h : values.length ≤ indexCount) : (ofList values).IsListOf values := by
  induction values using List.reverseRecOn with
  | nil => exact ⟨rfl, rfl, fun _ => rfl⟩
  | append_singleton values value ih =>
    rw [List.length_append, List.length_singleton] at h
    rw [ofList, List.foldl_append]
    exact (ih (by omega)).push (by omega) value

/-- Entries with different keys are stored as they are. -/
theorem entries_ofEntries (given : List (Key × α)) (h : (given.map Prod.fst).Nodup) :
    (ofEntries given).entries = given := by
  induction given using List.reverseRecOn with
  | nil => rfl
  | append_singleton given entry ih =>
    rw [List.map_append, List.map_singleton, List.nodup_append] at h
    have hm : entry.1 ∉ given.map Prod.fst := fun hm => h.2.2 _ hm _ (List.mem_singleton.mpr rfl) rfl
    rw [ofEntries, List.foldl_append]
    show Association.put entry.1 entry.2 (ofEntries given).entries = _
    rw [ih h.1, Association.put_of_not_mem _ hm]

end PhpLiteral.ArrayStore
