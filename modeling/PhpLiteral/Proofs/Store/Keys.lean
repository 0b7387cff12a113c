import Mathlib.Data.List.Nodup
import PhpLiteral.Document
import PhpLiteral.Proofs.Store.Append
import PhpLiteral.Proofs.Text.Key

/-!
# Keys of arrays

The text keys of an array are those that it was given (`ArrayStore.str_mem_keys_build`): neither a list nor a push
makes any, and none is changed. So an array has keys of PHP alone exactly if it was given no others, and then no two of
them are the same to PHP (`ArrayStore.isNormal_keys_iff`). Keys that are made of texts are keys of PHP, and with them
those of documents (`Document.hasNormalKeys_store`).
-/

namespace PhpLiteral

namespace ArrayStore

variable {α : Type}

/-! ## Arrays that are built -/

/-- How an array is begun. -/
inductive Origin (α : Type)
  | empty
  | list (values : List α)
  | entries (given : List (Key × α))

/-- The array that is begun with. -/
def Origin.store : Origin α → ArrayStore α
  | .empty => .empty
  | .list values => .ofList values
  | .entries given => .ofEntries given

/-- The operations by which the array that is begun with is made. -/
def Origin.operations : Origin α → List (Operation α)
  | .empty => []
  | .list values => values.map .push
  | .entries given => given.map fun (key, value) => .insert key value

theorem Origin.store_eq_run (origin : Origin α) : origin.store = run origin.operations := by
  cases origin with
  | empty => rfl
  | list values =>
    rw [operations, run, List.foldl_map]
    rfl
  | entries given =>
    rw [operations, run, List.foldl_map]
    rfl

/-- The array that operations make of the one that is begun with. -/
def build (origin : Origin α) (operations : List (Operation α)) : ArrayStore α := operations.foldl step origin.store

/-- The keys that an operation is given. -/
def Operation.givenKeys : Operation α → List Key
  | .push _ => []
  | .insert key _ => [key]

/-- The keys that an array is begun with. -/
def Origin.givenKeys : Origin α → List Key
  | .empty => []
  | .list _ => []
  | .entries given => given.map Prod.fst

/-- The keys that are given to an array while it is built. -/
def givenKeys (origin : Origin α) (operations : List (Operation α)) : List Key :=
  origin.givenKeys ++ operations.flatMap Operation.givenKeys

/-! ## Text keys -/

/-- The text keys behind an operation are those before it and the one that the operation is given. -/
theorem str_mem_keys_step {a : ArrayStore α} {operation : Operation α} {name : Text} :
    .str name ∈ (a.step operation).keys ↔ .str name ∈ a.keys ∨ .str name ∈ operation.givenKeys := by
  cases operation with
  | push value =>
    show _ ∈ (Association.put _ value a.entries).map Prod.fst ↔ _
    simp [Association.mem_keys_put, keys, Operation.givenKeys]
  | insert key value =>
    show _ ∈ (Association.put key value a.entries).map Prod.fst ↔ _
    simp [Association.mem_keys_put, keys, Operation.givenKeys, or_comm]

theorem str_mem_keys_foldl {a : ArrayStore α} {operations : List (Operation α)} {name : Text} :
    .str name ∈ (operations.foldl step a).keys ↔
      .str name ∈ a.keys ∨ .str name ∈ operations.flatMap Operation.givenKeys := by
  induction operations generalizing a with
  | nil => simp
  | cons operation rest ih => rw [List.foldl_cons, ih, str_mem_keys_step, List.flatMap_cons, List.mem_append, or_assoc]

theorem Origin.flatMap_givenKeys (origin : Origin α) :
    origin.operations.flatMap Operation.givenKeys = origin.givenKeys := by
  cases origin with
  | empty => rfl
  | list values => simp [operations, givenKeys, List.flatMap_map, Operation.givenKeys]
  | entries given =>
    rw [operations, givenKeys, List.flatMap_map, List.map_eq_flatMap]
    rfl

theorem str_mem_keys_origin {origin : Origin α} {name : Text} :
    .str name ∈ origin.store.keys ↔ .str name ∈ origin.givenKeys := by
  have he : .str name ∈ (empty : ArrayStore α).keys ↔ False := by simp [empty, keys]
  rw [origin.store_eq_run, run, str_mem_keys_foldl, he, false_or, origin.flatMap_givenKeys]

/-- The text keys of an array that is built are those that it was given. -/
theorem str_mem_keys_build {origin : Origin α} {operations : List (Operation α)} {name : Text} :
    .str name ∈ (build origin operations).keys ↔ .str name ∈ givenKeys origin operations := by
  rw [build, str_mem_keys_foldl, str_mem_keys_origin, givenKeys, List.mem_append]

/-! ## Keys of PHP -/

theorem forall_isNormal_iff {keys keys' : List Key} (h : ∀ name, .str name ∈ keys ↔ .str name ∈ keys') :
    (∀ key ∈ keys, key.IsNormal) ↔ ∀ key ∈ keys', key.IsNormal := by
  have hs : ∀ l : List Key, (∀ key ∈ l, key.IsNormal) ↔ ∀ name, .str name ∈ l → (Key.str name).IsNormal := by
    refine fun l => ⟨fun hl name => hl _, fun hl key hk => ?_⟩
    cases key with
    | int i => trivial
    | str name => exact hl name hk
  simp only [hs, h]

theorem isNormal_keys_build {origin : Origin α} {operations : List (Operation α)} :
    (∀ key ∈ (build origin operations).keys, key.IsNormal) ↔ ∀ key ∈ givenKeys origin operations, key.IsNormal :=
  forall_isNormal_iff fun _ => str_mem_keys_build

theorem isNormal_keys_ofList (values : List α) : ∀ key ∈ (ofList values).keys, key.IsNormal := by
  show ∀ key ∈ (build (.list values) []).keys, key.IsNormal
  exact isNormal_keys_build.mpr fun key hk => absurd hk List.not_mem_nil

theorem isNormal_keys_ofEntries {given : List (Key × α)} (h : ∀ key ∈ given.map Prod.fst, key.IsNormal) :
    ∀ key ∈ (ofEntries given).keys, key.IsNormal := by
  show ∀ key ∈ (build (.entries given) []).keys, key.IsNormal
  exact isNormal_keys_build.mpr fun key hk => h key (by simpa [givenKeys, Origin.givenKeys] using hk)

/-- Keys of PHP are what PHP takes them for. -/
theorem nodup_normalized_keys {a : ArrayStore α} (h : ∀ key ∈ a.keys, key.IsNormal) :
    (a.keys.map Key.normalized).Nodup := by
  rw [List.map_congr_left fun key hk => Key.normalized_eq_self_iff.mpr (h key hk), List.map_id']
  exact a.nodup_keys

/-- However an array is built, it holds keys of PHP alone if it is given no others, and only then: what is no key of
PHP is stored as it is given. If it holds keys of PHP alone, no two of them are the same to PHP. -/
theorem isNormal_keys_iff (origin : Origin α) (operations : List (Operation α)) :
    ((∀ key ∈ (build origin operations).keys, key.IsNormal) ↔ ∀ key ∈ givenKeys origin operations, key.IsNormal) ∧
      ((∀ key ∈ givenKeys origin operations, key.IsNormal) →
        ((build origin operations).keys.map Key.normalized).Nodup) :=
  ⟨isNormal_keys_build, fun h => nodup_normalized_keys (isNormal_keys_build.mpr h)⟩

/-- A text that starts with a zero is a key of PHP beside the number that it is not taken for. -/
theorem isNormal_keys_iff_leadingZero :
    ((build (.list [false, true]) [.insert (.ofText (utf8 "5")) true, .insert (.ofText (utf8 "05")) false,
      .push true]).keys.map Key.normalized).Nodup := by
  refine (isNormal_keys_iff _ _).2 fun key hk => ?_
  simp only [givenKeys, Origin.givenKeys, Operation.givenKeys, List.flatMap_cons, List.flatMap_nil, List.nil_append,
    List.append_nil, List.mem_append, List.mem_singleton] at hk
  rcases hk with rfl | rfl <;> exact Key.isNormal_ofText _

/-- A number and its decimal text are two keys of one array, although PHP takes both for the same. -/
theorem not_isNormal_keys :
    (build (.entries [(.int 5, false)]) [.insert (.str (utf8 "5")) true]).keys = [.int 5, .str (utf8 "5")] ∧
      ¬ (Key.str (utf8 "5")).IsNormal ∧ (Key.str (utf8 "5")).normalized = (Key.int 5).normalized := by
  refine ⟨by decide, fun h => h 5 (by decide), by decide⟩

end ArrayStore

/-! ## Documents -/

/-- All arrays of a heap hold keys of PHP alone. -/
def Heap.HasNormalKeys (heap : Heap) : Prop := ∀ a ∈ heap.arrays, ∀ key ∈ a.keys, key.IsNormal

theorem Heap.HasNormalKeys.newArray {heap : Heap} (h : heap.HasNormalKeys) {a : ArrayStore Value}
    (ha : ∀ key ∈ a.keys, key.IsNormal) : (heap.newArray a).2.HasNormalKeys := by
  intro b hb
  rcases List.mem_append.mp hb with hb | hb
  · exact h b hb
  · rwa [List.mem_singleton.mp hb]

mutual

/-- The arrays that are made of a document hold keys of PHP alone. -/
theorem Document.hasNormalKeys_store {heap : Heap} (h : heap.HasNormalKeys) : ∀ document : Document,
    (document.store heap).2.HasNormalKeys
  | .null => h
  | .bool _ => h
  | .int _ => h
  | .float _ => h
  | .text _ => h
  | .dateTime _ => h
  | .list items => by
    rw [Document.store]
    exact (hasNormalKeys_storeItems h items).newArray (ArrayStore.isNormal_keys_ofList _)
  | .table members => by
    rw [Document.store]
    obtain ⟨hh, hk⟩ := hasNormalKeys_storeMembers h members
    exact hh.newArray (ArrayStore.isNormal_keys_ofEntries hk)

theorem hasNormalKeys_storeItems {heap : Heap} (h : heap.HasNormalKeys) : ∀ items : List Document,
    (storeItems heap items).2.HasNormalKeys
  | [] => h
  | item :: rest => hasNormalKeys_storeItems (item.hasNormalKeys_store h) rest

theorem hasNormalKeys_storeMembers {heap : Heap} (h : heap.HasNormalKeys) : ∀ members : List (Text × Document),
    (storeMembers heap members).2.HasNormalKeys ∧
      ∀ key ∈ (storeMembers heap members).1.map Prod.fst, key.IsNormal
  | [] => ⟨h, by simp [storeMembers]⟩
  | (name, member) :: rest => by
    obtain ⟨hh, hk⟩ := hasNormalKeys_storeMembers (member.hasNormalKeys_store h) rest
    exact ⟨hh, List.forall_mem_cons.mpr ⟨Key.isNormal_ofText name, hk⟩⟩

end

end PhpLiteral
