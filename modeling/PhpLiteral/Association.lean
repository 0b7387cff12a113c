/-!
# Association lists

Lists of pairs in order of first insertion. `Association.put` keeps the place of a key that is there already.
-/

namespace PhpLiteral.Association

variable {κ α : Type} [DecidableEq κ]

/-- The list with a value under a key: in the place of the key if it is there, else at the end. -/
def put (key : κ) (value : α) : List (κ × α) → List (κ × α)
  | [] => [(key, value)]
  | (k, v) :: rest => if k = key then (k, value) :: rest else (k, v) :: put key value rest

/-- The value under a key. -/
def get? (key : κ) : List (κ × α) → Option α
  | [] => none
  | (k, v) :: rest => if k = key then some v else get? key rest

theorem put_of_not_mem {key : κ} {l : List (κ × α)} (value : α) (h : key ∉ l.map Prod.fst) :
    put key value l = l ++ [(key, value)] := by
  induction l with
  | nil => rfl
  | cons e l ih =>
    simp only [List.map_cons, List.mem_cons, not_or] at h
    rw [put, if_neg (Ne.symm h.1), ih h.2]
    rfl

/-- A key that is there already keeps its place, and another one goes to the end. -/
theorem keys_put (key : κ) (value : α) (l : List (κ × α)) :
    (put key value l).map Prod.fst =
      if key ∈ l.map Prod.fst then l.map Prod.fst else l.map Prod.fst ++ [key] := by
  induction l with
  | nil => rfl
  | cons e l ih =>
    obtain ⟨k, v⟩ := e
    by_cases h : k = key
    · simp [put, h]
    · simp only [put, if_neg h, List.map_cons, ih, List.mem_cons, Ne.symm h, false_or]
      split <;> rfl

theorem mem_keys_put {key k : κ} {value : α} {l : List (κ × α)} :
    k ∈ (put key value l).map Prod.fst ↔ k = key ∨ k ∈ l.map Prod.fst := by
  rw [keys_put]
  split
  · rename_i h
    exact ⟨.inr, fun hk => hk.elim (fun e => e ▸ h) id⟩
  · rw [List.mem_append, List.mem_singleton, or_comm]

theorem mem_of_mem_put {key : κ} {value : α} {l : List (κ × α)} {e : κ × α} (h : e ∈ put key value l) :
    e = (key, value) ∨ e ∈ l := by
  induction l with
  | nil => exact .inl (List.mem_singleton.mp h)
  | cons first l ih =>
    rw [put] at h
    split at h
    · rename_i hk
      rw [hk, List.mem_cons] at h
      exact h.imp_right (List.mem_cons_of_mem _)
    · rcases List.mem_cons.mp h with rfl | h
      · exact .inr List.mem_cons_self
      · exact (ih h).imp_right (List.mem_cons_of_mem _)

theorem nodup_put {key : κ} {value : α} {l : List (κ × α)} (h : (l.map Prod.fst).Nodup) :
    ((put key value l).map Prod.fst).Nodup := by
  rw [keys_put]
  split
  · exact h
  · rename_i hk
    refine List.nodup_append.mpr ⟨h, by simp, fun a ha b hb e => hk ?_⟩
    rwa [← List.mem_singleton.mp hb, ← e]

/-- The value under a key is the one that was put there, and those under other keys stay. -/
theorem get?_put (key k : κ) (value : α) (l : List (κ × α)) :
    get? k (put key value l) = if key = k then some value else get? k l := by
  induction l with
  | nil => rfl
  | cons e l ih =>
    obtain ⟨k', v⟩ := e
    by_cases h : k' = key
    · subst h
      simp only [put, get?, if_pos]
      split <;> rfl
    · simp only [put, get?, if_neg h, ih]
      by_cases hk : k' = k
      · rw [if_pos hk, if_neg fun e => h (hk.trans e.symm), if_pos hk]
      · rw [if_neg hk, if_neg hk]

theorem get?_of_not_mem {key : κ} {l : List (κ × α)} (h : key ∉ l.map Prod.fst) : get? key l = none := by
  induction l with
  | nil => rfl
  | cons e l ih =>
    simp only [List.map_cons, List.mem_cons, not_or] at h
    rw [get?, if_neg (Ne.symm h.1), ih h.2]

theorem not_mem_of_get?_eq_none {key : κ} {l : List (κ × α)} (h : get? key l = none) : key ∉ l.map Prod.fst := by
  induction l with
  | nil => exact List.not_mem_nil
  | cons e l ih =>
    rw [get?] at h
    split at h
    · cases h
    · rename_i hk
      rw [List.map_cons, List.mem_cons, not_or]
      exact ⟨Ne.symm hk, ih h⟩

/-- Where no key stands twice, each entry has the value under its key. -/
theorem get?_eq_some_of_mem {key : κ} {value : α} {l : List (κ × α)} (h : (l.map Prod.fst).Nodup)
    (hm : (key, value) ∈ l) : get? key l = some value := by
  induction l with
  | nil => cases hm
  | cons e l ih =>
    rw [List.map_cons, List.nodup_cons] at h
    rw [get?]
    rcases List.mem_cons.mp hm with rfl | hm
    · exact if_pos rfl
    · have hn : e.1 ≠ key := fun hk => h.1 (hk ▸ List.mem_map_of_mem hm)
      rw [if_neg hn, ih h.2 hm]

theorem mem_of_get?_eq_some {key : κ} {value : α} {l : List (κ × α)} (h : get? key l = some value) :
    (key, value) ∈ l := by
  induction l with
  | nil => cases h
  | cons e l ih =>
    rw [get?] at h
    split at h
    · rename_i hk
      cases h
      exact hk ▸ List.mem_cons_self
    · exact List.mem_cons_of_mem _ (ih h)

end PhpLiteral.Association
