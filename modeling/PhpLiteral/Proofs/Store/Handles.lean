import Mathlib.Data.List.Induction
import PhpLiteral.Proofs.Store.Growth
import PhpLiteral.Proofs.Store.Keys
import PhpLiteral.Proofs.Store.Log

/-!
# Arrays behind handles

A program makes arrays and clones handles of them, and stores values through any handle (`Action`). What a handle
shows in the end depends only on the stores through handles of the same array (`Session.history`): the keys are in
order of the first store, each has the value of the last one, and the next push uses the index behind the greatest
index that was ever stored (`ArrayStore.Records`, `Session.shown?_run`).
-/

namespace PhpLiteral

open ArrayStore (le_nextInt64 nextInt64_le_of_lt)

/-! ## Indices -/

/-- The greatest integer key that is not negative. -/
def greatestIndex? (keys : List Key) : Option Int64 := ((keys.filterMap Key.int?).filter (0 ≤ ·)).max?

/-- The index behind the greatest one, as far as there is one behind it; 0 where there is none. -/
def indexBehind (keys : List Key) : Int64 := (greatestIndex? keys).elim 0 nextInt64

theorem greatestIndex?_concat_str (keys : List Key) (name : Text) :
    greatestIndex? (keys ++ [.str name]) = greatestIndex? keys := by
  have hl : [Key.str name].filterMap Key.int? = [] := rfl
  rw [greatestIndex?, List.filterMap_append, hl, List.append_nil, greatestIndex?]

theorem greatestIndex?_concat_int (keys : List Key) (i : Int64) :
    greatestIndex? (keys ++ [.int i]) =
      if 0 ≤ i then some ((greatestIndex? keys).elim i (max · i)) else greatestIndex? keys := by
  rw [greatestIndex?, greatestIndex?, List.filterMap_append, List.filter_append]
  split
  · rename_i hi
    have hl : ([Key.int i].filterMap Key.int?).filter (0 ≤ ·) = [i] := by simp [Key.int?, hi]
    rw [hl]
    cases (keys.filterMap Key.int?).filter (0 ≤ ·) with
    | nil => rfl
    | cons j l =>
      show some ((l ++ [i]).foldl max j) = some (max (l.foldl max j) i)
      rw [List.foldl_append]
      rfl
  · rename_i hi
    have hl : ([Key.int i].filterMap Key.int?).filter (0 ≤ ·) = [] := by simp [Key.int?, hi]
    rw [hl, List.append_nil]

theorem greatestIndex?_nonneg {keys : List Key} {m : Int64} (h : greatestIndex? keys = some m) : 0 ≤ m := by
  induction keys using List.reverseRecOn generalizing m with
  | nil => cases h
  | append_singleton keys key ih =>
    cases key with
    | str name => exact ih (greatestIndex?_concat_str keys name ▸ h)
    | int i =>
      rw [greatestIndex?_concat_int] at h
      split at h
      · rename_i hi
        cases hg : greatestIndex? keys with
        | none =>
          rw [hg] at h
          cases h
          exact hi
        | some n =>
          rw [hg] at h
          cases h
          show 0 ≤ if n ≤ i then i else n
          split
          · exact hi
          · exact ih hg
      · exact ih h

/-- A key that is not below the next index moves it, and no other key does. -/
theorem indexBehind_concat (keys : List Key) (key : Key) :
    indexBehind (keys ++ [key]) =
      match key with
      | .int i => if indexBehind keys ≤ i then nextInt64 i else indexBehind keys
      | .str _ => indexBehind keys := by
  cases key with
  | str name => rw [indexBehind, greatestIndex?_concat_str, indexBehind]
  | int i =>
    rw [indexBehind, greatestIndex?_concat_int, indexBehind]
    by_cases hi : 0 ≤ i
    · rw [if_pos hi]
      cases greatestIndex? keys with
      | none => exact (if_pos hi).symm
      | some m =>
        show nextInt64 (if m ≤ i then i else m) = if nextInt64 m ≤ i then nextInt64 i else nextInt64 m
        by_cases hm : nextInt64 m ≤ i
        · rw [if_pos hm, if_pos (Int64.le_trans (le_nextInt64 m) hm)]
        · have hle : i ≤ m := Int64.not_lt.mp fun hlt => hm (nextInt64_le_of_lt hlt)
          rw [if_neg hm]
          split
          · rename_i h
            rw [Int64.le_antisymm h hle]
          · rfl
    · rw [if_neg hi]
      cases hg : greatestIndex? keys with
      | none => exact (if_neg hi).symm
      | some m =>
        have hm : 0 ≤ nextInt64 m := Int64.le_trans (greatestIndex?_nonneg hg) (le_nextInt64 m)
        exact (if_neg fun h => hi (Int64.le_trans hm h)).symm

/-! ## One array -/

namespace ArrayStore

variable {α : Type}

/-- The key and the value that an operation stores where the next index is known. -/
def Operation.entry (next : Int64) : Operation α → Key × α
  | .push value => (.int next, value)
  | .insert key value => (key, value)

/-- A log with what an operation stores behind it: a push stores under the index behind all that was stored. -/
def record (log : List (Key × α)) (operation : Operation α) : List (Key × α) :=
  log ++ [operation.entry (indexBehind (log.map Prod.fst))]

/-- All that operations store, in order. -/
def stored (operations : List (Operation α)) : List (Key × α) := operations.foldl record []

/-- An array shows what was stored: each key once, in order of the first time, with the value of the last time. The
next push uses the index behind the greatest one that was ever stored. -/
structure Records (log : List (Key × α)) (a : ArrayStore α) : Prop where
  keys_eq : a.keys = (log.map Prod.fst).eraseDups
  get?_eq : ∀ key, a.get? key = Association.last? log key
  nextIndex_eq : a.nextIndex = indexBehind (log.map Prod.fst)

theorem records_empty : Records [] (empty : ArrayStore α) := ⟨rfl, fun _ => rfl, rfl⟩

theorem entries_step (a : ArrayStore α) (operation : Operation α) :
    (a.step operation).entries =
      Association.put (operation.entry a.nextIndex).1 (operation.entry a.nextIndex).2 a.entries := by
  cases operation <;> rfl

theorem nextIndex_step (a : ArrayStore α) (operation : Operation α) :
    (a.step operation).nextIndex =
      match (operation.entry a.nextIndex).1 with
      | .int i => if a.nextIndex ≤ i then nextInt64 i else a.nextIndex
      | .str _ => a.nextIndex := by
  cases operation with
  | push value => exact (if_pos (Int64.le_refl _)).symm
  | insert key value => cases key <;> rfl

theorem Records.step {log : List (Key × α)} {a : ArrayStore α} (h : Records log a) (operation : Operation α) :
    Records (record log operation) (a.step operation) := by
  have hk : Association.Keeps log a.entries := ⟨h.keys_eq, h.get?_eq⟩
  have hp : Association.Keeps (log ++ [operation.entry a.nextIndex]) (a.step operation).entries := by
    rw [entries_step]
    exact hk.put _ _
  rw [h.nextIndex_eq] at hp
  refine ⟨hp.keys_eq, hp.get?_eq, ?_⟩
  rw [record, List.map_append, List.map_singleton, indexBehind_concat, nextIndex_step, h.nextIndex_eq]

theorem stored_concat (operations : List (Operation α)) (operation : Operation α) :
    stored (operations ++ [operation]) = record (stored operations) operation := by
  rw [stored, List.foldl_append, stored]
  rfl

theorem records_run (operations : List (Operation α)) : Records (stored operations) (run operations) := by
  induction operations using List.reverseRecOn with
  | nil => exact records_empty
  | append_singleton operations operation ih =>
    rw [stored_concat, run, List.foldl_append]
    exact ih.step operation

end ArrayStore

/-! ## Many arrays -/

open ArrayStore (Operation Origin Records stored)

/-- What a program does with arrays. Its handles have numbers in the order in which it gets them. -/
inductive Action
  /-- It makes an array, and gets a handle of it. -/
  | make (origin : Origin Value)
  /-- It gets another handle of the array that a handle has. -/
  | clone (handle : Nat)
  /-- It stores something through a handle. -/
  | apply (handle : Nat) (operation : Operation Value)

/-- The heap of a program, and the place of the array of each handle. -/
structure Session where
  heap : Heap
  handles : List Nat

namespace Session

def start : Session := ⟨.empty, []⟩

/-- The session after an action. A handle that the program does not have does nothing. -/
def step (s : Session) : Action → Session
  | .make origin => ⟨(s.heap.newArray origin.store).2, s.handles ++ [s.heap.arrays.length]⟩
  | .clone handle =>
    match s.handles[handle]? with
    | some id => { s with handles := s.handles ++ [id] }
    | none => s
  | .apply handle operation =>
    match s.handles[handle]? with
    | some id => { s with heap := s.heap.modifyArray id (·.step operation) }
    | none => s

/-- The session that actions lead to. -/
def run (actions : List Action) : Session := actions.foldl step start

/-- What a handle shows. -/
def shown? (s : Session) (handle : Nat) : Option (ArrayStore Value) := s.handles[handle]?.map s.heap.array

/-! ### What belongs to an array -/

/-- The roots of the handles after an action, if they are known before it. The root of a handle is the one with which
its array was made. -/
def rootsAfter (roots : List Nat) : Action → List Nat
  | .make _ => roots ++ [roots.length]
  | .clone handle => roots ++ roots[handle]?.toList
  | .apply _ _ => roots

/-- For each handle its root. -/
def roots (actions : List Action) : List Nat := actions.foldl rootsAfter []

/-- What an action stores in the array of a root. -/
def operationsOn (roots : List Nat) (root : Nat) : Action → List (Operation Value)
  | .make origin => if roots.length = root then origin.operations else []
  | .clone _ => []
  | .apply handle operation => if roots[handle]? = some root then [operation] else []

/-- The same for actions in order. -/
def historyFrom (root : Nat) (roots : List Nat) : List Action → List (Operation Value)
  | [] => []
  | action :: rest => operationsOn roots root action ++ historyFrom root (rootsAfter roots action) rest

/-- All that is stored in the array of a root, through any of its handles. -/
def history (root : Nat) (actions : List Action) : List (Operation Value) := historyFrom root [] actions

theorem roots_concat (actions : List Action) (action : Action) :
    roots (actions ++ [action]) = rootsAfter (roots actions) action := by
  rw [roots, List.foldl_append]
  rfl

theorem historyFrom_concat (root : Nat) (roots : List Nat) (actions : List Action) (action : Action) :
    historyFrom root roots (actions ++ [action]) =
      historyFrom root roots actions ++ operationsOn (actions.foldl rootsAfter roots) root action := by
  induction actions generalizing roots with
  | nil => simp [historyFrom]
  | cons first rest ih => rw [List.cons_append, historyFrom, ih, historyFrom, List.append_assoc, List.foldl_cons]

theorem history_concat (root : Nat) (actions : List Action) (action : Action) :
    history root (actions ++ [action]) = history root actions ++ operationsOn (roots actions) root action :=
  historyFrom_concat root [] actions action

/-! ### The invariant -/

/-- The place of the array of each handle, with its root. -/
def places (actions : List Action) (s : Session) : List (Nat × Nat) := s.handles.zip (roots actions)

/-- After actions, two handles have the same array exactly if they have the same root, and the array shows all that
was stored there. -/
structure Tracks (actions : List Action) (s : Session) : Prop where
  length_eq : s.handles.length = (roots actions).length
  lt_length : ∀ p ∈ places actions s, p.1 < s.heap.arrays.length ∧ p.2 < (roots actions).length
  eq_iff : ∀ p ∈ places actions s, ∀ q ∈ places actions s, p.1 = q.1 ↔ p.2 = q.2
  records : ∀ p ∈ places actions s, Records (stored (history p.2 actions)) (s.heap.array p.1)
  history_eq : ∀ root, (roots actions).length ≤ root → history root actions = []

theorem tracks_start : Tracks [] start :=
  ⟨rfl, fun _ h => absurd h List.not_mem_nil, fun _ h => absurd h List.not_mem_nil,
    fun _ h => absurd h List.not_mem_nil, fun _ _ => rfl⟩

section

variable {actions : List Action} {s : Session} {handle : Nat}

/-- A handle has an array, or the program does not have it. -/
theorem Tracks.getElem?_cases (h : Tracks actions s) (handle : Nat) :
    (∃ id root, s.handles[handle]? = some id ∧ (roots actions)[handle]? = some root ∧ (id, root) ∈ places actions s) ∨
      s.handles[handle]? = none ∧ (roots actions)[handle]? = none := by
  rcases Nat.lt_or_ge handle s.handles.length with hl | hl
  · have hl' : handle < (roots actions).length := h.length_eq ▸ hl
    refine .inl ⟨_, _, List.getElem?_eq_getElem hl, List.getElem?_eq_getElem hl', ?_⟩
    exact List.mem_of_getElem? (List.getElem?_zip_eq_some.mpr
      ⟨List.getElem?_eq_getElem hl, List.getElem?_eq_getElem hl'⟩)
  · exact .inr ⟨List.getElem?_eq_none hl, List.getElem?_eq_none (h.length_eq ▸ hl)⟩

/-- An action that gives no handle and stores nothing. -/
theorem Tracks.of_eq (h : Tracks actions s) {action : Action} (hr : roots (actions ++ [action]) = roots actions)
    (hh : ∀ root, history root (actions ++ [action]) = history root actions) : Tracks (actions ++ [action]) s := by
  have hp : places (actions ++ [action]) s = places actions s := by rw [places, hr, places]
  refine ⟨?_, ?_, ?_, ?_, ?_⟩ <;> simp only [hr, hp, hh]
  exacts [h.length_eq, h.lt_length, h.eq_iff, h.records, h.history_eq]

theorem Tracks.make (h : Tracks actions s) (origin : Origin Value) :
    Tracks (actions ++ [.make origin]) (s.step (.make origin)) := by
  have hr : roots (actions ++ [.make origin]) = roots actions ++ [(roots actions).length] := roots_concat _ _
  have hp : places (actions ++ [.make origin]) (s.step (.make origin)) =
      places actions s ++ [(s.heap.arrays.length, (roots actions).length)] := by
    rw [places, hr]
    exact List.zip_append h.length_eq
  have hh : ∀ root, root ≠ (roots actions).length →
      history root (actions ++ [.make origin]) = history root actions := fun root hn => by
    rw [history_concat, operationsOn, if_neg (Ne.symm hn), List.append_nil]
  have hl : (s.step (.make origin)).heap.arrays.length = s.heap.arrays.length + 1 := List.length_append
  refine ⟨?_, ?_, ?_, ?_, ?_⟩
  · rw [hr, List.length_append, ← h.length_eq]
    exact List.length_append
  · rw [hp, hl, hr, List.length_append, List.forall_mem_append, List.forall_mem_singleton]
    exact ⟨fun p hm => ⟨Nat.lt_succ_of_lt (h.lt_length p hm).1, Nat.lt_succ_of_lt (h.lt_length p hm).2⟩,
      Nat.lt_succ_self _, Nat.lt_succ_self _⟩
  · -- The new place and the new root are greater than all others.
    rw [hp]
    simp only [List.forall_mem_append, List.forall_mem_singleton, iff_self, and_true]
    refine ⟨fun p hm => ⟨h.eq_iff p hm, ?_⟩, fun q hm => ?_⟩
    · have := h.lt_length p hm
      omega
    · have := h.lt_length q hm
      omega
  · rw [hp, List.forall_mem_append, List.forall_mem_singleton]
    refine ⟨fun p hm => ?_, ?_⟩
    · have hlt := h.lt_length p hm
      rw [hh p.2 (Nat.ne_of_lt hlt.2)]
      have he := (Heap.Grows.newArray s.heap origin.store).array_eq (Heap.mem_refs_array.mpr hlt.1)
      exact he.symm ▸ h.records p hm
    · rw [history_concat, h.history_eq _ (Nat.le_refl _), operationsOn, if_pos rfl, List.nil_append]
      have he := Heap.array_newArray s.heap origin.store
      show Records _ ((s.heap.newArray origin.store).2.array s.heap.arrays.length)
      rw [he, origin.store_eq_run]
      exact ArrayStore.records_run _
  · intro root hle
    rw [hr, List.length_append] at hle
    have hlt : (roots actions).length < root := hle
    rw [hh root (Nat.ne_of_gt hlt), h.history_eq root (Nat.le_of_lt hlt)]

theorem Tracks.clone (h : Tracks actions s) (handle : Nat) :
    Tracks (actions ++ [.clone handle]) (s.step (.clone handle)) := by
  have hh : ∀ root, history root (actions ++ [.clone handle]) = history root actions := fun root => by
    rw [history_concat, operationsOn, List.append_nil]
  rcases h.getElem?_cases handle with ⟨id, root, hi, hr, hm⟩ | ⟨hi, hr⟩
  · have hs : s.step (.clone handle) = { s with handles := s.handles ++ [id] } := by rw [step, hi]
    have hr' : roots (actions ++ [.clone handle]) = roots actions ++ [root] := by
      rw [roots_concat, rootsAfter, hr]
      rfl
    have hp : places (actions ++ [.clone handle]) (s.step (.clone handle)) = places actions s ++ [(id, root)] := by
      rw [places, hr', hs]
      exact List.zip_append h.length_eq
    -- The new place is the one of a handle that is there.
    have hsub : ∀ p ∈ places (actions ++ [.clone handle]) (s.step (.clone handle)), p ∈ places actions s := by
      rw [hp, List.forall_mem_append, List.forall_mem_singleton]
      exact ⟨fun _ hp => hp, hm⟩
    refine ⟨?_, fun p hp => ?_, fun p hp q hq => h.eq_iff p (hsub p hp) q (hsub q hq), fun p hp => ?_, fun r hle => ?_⟩
    · rw [hs, hr', List.length_append, List.length_append, h.length_eq]
      rfl
    · rw [hs, hr', List.length_append]
      have := h.lt_length p (hsub p hp)
      exact ⟨this.1, Nat.lt_succ_of_lt this.2⟩
    · rw [hh, hs]
      exact h.records p (hsub p hp)
    · rw [hr', List.length_append] at hle
      rw [hh, h.history_eq r (Nat.le_of_succ_le hle)]
  · have hs : s.step (.clone handle) = s := by rw [step, hi]
    rw [hs]
    refine h.of_eq ?_ hh
    rw [roots_concat, rootsAfter, hr]
    exact List.append_nil _

theorem Tracks.apply (h : Tracks actions s) (handle : Nat) (operation : Operation Value) :
    Tracks (actions ++ [.apply handle operation]) (s.step (.apply handle operation)) := by
  have hr' : roots (actions ++ [.apply handle operation]) = roots actions := roots_concat _ _
  rcases h.getElem?_cases handle with ⟨id, root, hi, hr, hm⟩ | ⟨hi, hr⟩
  · have hs : s.step (.apply handle operation) = { s with heap := s.heap.modifyArray id (·.step operation) } := by
      rw [step, hi]
    have hp : places (actions ++ [.apply handle operation]) (s.step (.apply handle operation)) = places actions s := by
      rw [places, hr', hs, places]
    have hh : ∀ r, root ≠ r → history r (actions ++ [.apply handle operation]) = history r actions := fun r hn => by
      rw [history_concat, operationsOn, hr, if_neg (by simpa using hn), List.append_nil]
    have hlt := h.lt_length _ hm
    refine ⟨?_, ?_, by rw [hp]; exact h.eq_iff, ?_, ?_⟩
    · rw [hs, hr']
      exact h.length_eq
    · rw [hp, hs, hr']
      intro p hm'
      have hl : (s.heap.modifyArray id (·.step operation)).arrays.length = s.heap.arrays.length :=
        List.length_modify ..
      rw [hl]
      exact h.lt_length p hm'
    · rw [hp, hs]
      intro p hm'
      rw [Heap.array_modifyArray hlt.1]
      split
      · rename_i e
        have e' : root = p.2 := (h.eq_iff _ hm p hm').mp e
        rw [history_concat, operationsOn, hr, e', if_pos rfl, ArrayStore.stored_concat]
        exact (h.records p hm').step operation
      · rename_i hn
        rw [hh p.2 fun e => hn ((h.eq_iff _ hm p hm').mpr e)]
        exact h.records p hm'
    · rw [hr']
      intro r hle
      rw [hh r (Nat.ne_of_lt (Nat.lt_of_lt_of_le hlt.2 hle)), h.history_eq r hle]
  · have hs : s.step (.apply handle operation) = s := by rw [step, hi]
    rw [hs]
    refine h.of_eq hr' fun root => ?_
    rw [history_concat, operationsOn, hr, if_neg (by simp), List.append_nil]

theorem Tracks.step (h : Tracks actions s) (action : Action) : Tracks (actions ++ [action]) (s.step action) := by
  cases action with
  | make origin => exact h.make origin
  | clone handle => exact h.clone handle
  | apply handle operation => exact h.apply handle operation

end

theorem tracks_run (actions : List Action) : Tracks actions (run actions) := by
  induction actions using List.reverseRecOn with
  | nil => exact tracks_start
  | append_singleton actions action ih =>
    rw [run, List.foldl_append]
    exact ih.step action

/-! ### What handles show -/

section

variable {actions : List Action} {s : Session}

/-- Handles with the same root have the same array. -/
theorem Tracks.shown?_eq (h : Tracks actions s) {handle handle' : Nat}
    (hr : (roots actions)[handle]? = (roots actions)[handle']?) : s.shown? handle = s.shown? handle' := by
  rcases h.getElem?_cases handle with ⟨id, root, hi, hr₁, hm⟩ | ⟨hi, hr₁⟩ <;>
    rcases h.getElem?_cases handle' with ⟨id', root', hi', hr₂, hm'⟩ | ⟨hi', hr₂⟩ <;>
    rw [hr₁, hr₂] at hr
  · have e : id = id' := (h.eq_iff _ hm _ hm').mpr (Option.some.inj hr)
    rw [shown?, shown?, hi, hi', e]
  · cases hr
  · cases hr
  · rw [shown?, shown?, hi, hi']

/-- What a handle shows stays, unless something is stored through a handle with the same root. -/
theorem Tracks.shown?_step (h : Tracks actions s) {action : Action} {handle : Nat}
    (hl : handle < (roots actions).length)
    (ha : ∀ other operation, action = .apply other operation → (roots actions)[other]? ≠ (roots actions)[handle]?) :
    (s.step action).shown? handle = s.shown? handle := by
  rcases h.getElem?_cases handle with ⟨id, root, hi, hr, hm⟩ | ⟨-, hr⟩
  swap
  · rw [List.getElem?_eq_getElem hl] at hr
    cases hr
  have hlt := (h.lt_length _ hm).1
  have hmore : ∀ new, (s.handles ++ [new])[handle]? = some id := fun new => by
    rw [List.getElem?_append_left (h.length_eq ▸ hl), hi]
  cases action with
  | make origin =>
    have he := (Heap.Grows.newArray s.heap origin.store).array_eq (Heap.mem_refs_array.mpr hlt)
    show (s.handles ++ [s.heap.arrays.length])[handle]?.map (s.heap.newArray origin.store).2.array = _
    rw [hmore, shown?, hi, Option.map_some, he, Option.map_some]
  | clone other =>
    rw [Session.step]
    split
    · rw [shown?, hmore, shown?, hi]
    · rfl
  | apply other operation =>
    rcases h.getElem?_cases other with ⟨id', root', hi', hr', hm'⟩ | ⟨hi', -⟩
    · have hn : id' ≠ id := fun e => by
        have e' : root' = root := (h.eq_iff _ hm' _ hm).mp e
        exact ha other operation rfl (by rw [hr', hr, e'])
      have hs : s.step (.apply other operation) = { s with heap := s.heap.modifyArray id' (·.step operation) } := by
        rw [Session.step, hi']
      rw [hs, shown?, shown?, hi, Option.map_some, Option.map_some,
        Heap.array_modifyArray (h.lt_length _ hm').1, if_neg hn]
    · rw [Session.step, hi']

end

/-- After all actions, each handle shows an ordered map of what was stored through the handles with its root, and a push
goes behind the greatest index that was ever stored there. Handles with one root show the same, and an action through
other handles does not change what a handle shows. -/
theorem shown?_run (actions : List Action) :
    (∀ handle root, (roots actions)[handle]? = some root →
      ∃ a, (run actions).shown? handle = some a ∧ Records (stored (history root actions)) a ∧
        ∀ value, (a.push value).entries =
          Association.put (.int (indexBehind ((stored (history root actions)).map Prod.fst))) value a.entries) ∧
      (∀ handle handle', (roots actions)[handle]? = (roots actions)[handle']? →
        (run actions).shown? handle = (run actions).shown? handle') ∧
      ∀ action handle, handle < (roots actions).length →
        (∀ other operation, action = .apply other operation →
          (roots actions)[other]? ≠ (roots actions)[handle]?) →
        (run (actions ++ [action])).shown? handle = (run actions).shown? handle := by
  have h := tracks_run actions
  refine ⟨fun handle root hr => ?_, fun _ _ => h.shown?_eq, fun action handle hl ha => ?_⟩
  · rcases h.getElem?_cases handle with ⟨id, root', hi, hr', hm⟩ | ⟨-, hr'⟩ <;> rw [hr'] at hr <;> cases hr
    have ht := h.records _ hm
    exact ⟨_, by rw [shown?, hi]; rfl, ht, fun value => by rw [ArrayStore.entries_push, ht.nextIndex_eq]⟩
  · rw [run, List.foldl_append]
    exact h.shown?_step hl ha

/-- Two handles of one array and one of another one. The negative key does not move the next index. -/
example :
    let s := run [.make (.list [.atom .null]), .clone 0, .make .empty, .apply 1 (.insert (.int (-3)) (.atom .null)),
      .apply 0 (.push (.atom .null)), .apply 2 (.insert (.str (utf8 "x")) (.atom .null))]
    (s.shown? 0).map ArrayStore.keys = some [.int 0, .int (-3), .int 1] ∧
      (s.shown? 1).map ArrayStore.keys = some [.int 0, .int (-3), .int 1] ∧
      (s.shown? 2).map ArrayStore.keys = some [.str (utf8 "x")] := by
  decide

end Session

end PhpLiteral
