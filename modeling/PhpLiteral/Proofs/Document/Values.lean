import Mathlib.Data.List.Forall2
import Mathlib.Data.List.Nodup
import PhpLiteral.Document
import PhpLiteral.Proofs.Store.Growth
import PhpLiteral.Proofs.Store.Lists
import PhpLiteral.Proofs.Text.Key

/-!
# What documents become

A document becomes a value without loss (`Document.Becomes`): a list becomes an array with the indices of its items as
keys, and a table becomes one whose keys have its names as their texts, both in order. This holds of every document in
which no table has a name twice, and no list more items than there are indices (`Document.IsSound.becomes`).
-/

namespace PhpLiteral

open ArrayStore (indexCount)

/-! ## Sound documents -/

/-- No key stands twice in a list, and every value in it has a property. -/
structure Association.IsTableOf {κ α : Type} (P : α → Prop) (l : List (κ × α)) : Prop where
  nodup : (l.map Prod.fst).Nodup
  all : ∀ e ∈ l, P e.2

namespace Association.IsTableOf

variable {κ α : Type} {P Q : α → Prop} {l : List (κ × α)}

theorem nil : IsTableOf P ([] : List (κ × α)) := ⟨List.nodup_nil, nofun⟩

theorem imp (hi : ∀ a, P a → Q a) (h : IsTableOf P l) : IsTableOf Q l := ⟨h.nodup, fun e he => hi _ (h.all e he)⟩

theorem put [DecidableEq κ] {key : κ} {value : α} (h : IsTableOf P l) (hv : P value) :
    IsTableOf P (put key value l) := by
  refine ⟨nodup_put h.nodup, fun e he => ?_⟩
  rcases mem_of_mem_put he with rfl | he
  · exact hv
  · exact h.all e he

theorem concat [DecidableEq κ] {key : κ} {value : α} (h : IsTableOf P l) (hk : get? key l = none) (hv : P value) :
    IsTableOf P (l ++ [(key, value)]) := by
  rw [← put_of_not_mem value (not_mem_of_get?_eq_none hk)]
  exact h.put hv

theorem get? [DecidableEq κ] {key : κ} {value : α} (h : IsTableOf P l) (hg : get? key l = some value) : P value :=
  h.all _ (mem_of_get?_eq_some hg)

end Association.IsTableOf

/-- No list in a document has more items than a limit, and no table has a name twice. -/
inductive Document.IsSound (limit : Nat) : Document → Prop
  | null : IsSound limit .null
  | bool (b : Bool) : IsSound limit (.bool b)
  | int (i : Int64) : IsSound limit (.int i)
  | float (x : Binary64) : IsSound limit (.float x)
  | text (t : Text) : IsSound limit (.text t)
  | dateTime (d : DateTime) : IsSound limit (.dateTime d)
  | list {items : List Document} : items.length ≤ limit → (∀ item ∈ items, IsSound limit item) →
      IsSound limit (.list items)
  | table {members : List (Text × Document)} : (members.map Prod.fst).Nodup →
      (∀ member ∈ members, IsSound limit member.2) → IsSound limit (.table members)

theorem Document.isSound_table {limit : Nat} {members : List (Text × Document)}
    (h : Association.IsTableOf (Document.IsSound limit) members) : (Document.table members).IsSound limit :=
  .table h.nodup h.all

theorem Document.IsSound.mono {limit limit' : Nat} (hl : limit ≤ limit') {d : Document} (h : d.IsSound limit) :
    d.IsSound limit' := by
  induction h with
  | null => exact .null
  | bool b => exact .bool b
  | int i => exact .int i
  | float x => exact .float x
  | text t => exact .text t
  | dateTime d => exact .dateTime d
  | list hn _ ih => exact .list (Nat.le_trans hn hl) ih
  | table hn _ ih => exact .table hn ih

/-- What every step keeps, where it counts one more, holds after all of them. -/
theorem of_foldlM_eq_some {α β : Type} {P : Nat → β → Prop} {f : β → α → Option β} {l : List α} {n : Nat} {b b' : β}
    (hf : ∀ a ∈ l, ∀ {n b b'}, P n b → f b a = some b' → P (n + 1) b') (hb : P n b) (h : l.foldlM f b = some b') :
    P (n + l.length) b' := by
  induction l generalizing n b with
  | nil =>
    cases h
    exact hb
  | cons a l ih =>
    rw [List.forall_mem_cons] at hf
    rw [List.foldlM_cons] at h
    obtain ⟨b₁, h₁, h⟩ := Option.bind_eq_some_iff.mp h
    rw [List.length_cons, Nat.add_comm l.length, ← Nat.add_assoc]
    exact ih hf.2 (hf.1 hb h₁) h

/-! ## Values of documents -/

/-- In a heap, a value is what a document becomes. -/
inductive Document.Becomes (heap : Heap) : Document → Value → Prop
  | null : Becomes heap .null (.atom .null)
  | bool (b : Bool) : Becomes heap (.bool b) (.atom (.bool b))
  | int (i : Int64) : Becomes heap (.int i) (.atom (.int i))
  | float (x : Binary64) : Becomes heap (.float x) (.atom (.float x))
  | text (t : Text) : Becomes heap (.text t) (.atom (.string t))
  | dateTime (d : DateTime) : Becomes heap (.dateTime d) (.atom (.dateTime d))
  /-- The items stand in order under their indices. -/
  | list {items : List Document} {id : Nat} : .array id ∈ heap.refs →
      (heap.array id).keys = ArrayStore.indices items.length →
      (∀ p ∈ items.zip (heap.array id).values, Becomes heap p.1 p.2) → Becomes heap (.list items) (.array id)
  /-- The members stand in order under keys of PHP whose texts are their names. -/
  | table {members : List (Text × Document)} {id : Nat} : .array id ∈ heap.refs →
      (heap.array id).keys.map Key.text = members.map Prod.fst → (∀ key ∈ (heap.array id).keys, key.IsNormal) →
      (∀ p ∈ members.zip (heap.array id).values, Becomes heap p.1.2 p.2) → Becomes heap (.table members) (.array id)

/-- What a document has become stays so when the heap grows. -/
theorem Document.Becomes.grows {heap heap' : Heap} (hg : heap.Grows heap') {d : Document} {v : Value}
    (h : d.Becomes heap v) : d.Becomes heap' v := by
  induction h with
  | null => exact .null
  | bool b => exact .bool b
  | int i => exact .int i
  | float x => exact .float x
  | text t => exact .text t
  | dateTime d => exact .dateTime d
  | list hr hk _ ih =>
    rw [← hg.array_eq hr] at hk ih
    exact .list (hg.refs hr) hk ih
  | table hr hk hn _ ih =>
    rw [← hg.array_eq hr] at hk hn ih
    exact .table (hg.refs hr) hk hn ih

mutual

theorem Document.grows_store (heap : Heap) : ∀ d : Document, heap.Grows (d.store heap).2
  | .null | .bool _ | .int _ | .float _ | .text _ | .dateTime _ => .refl heap
  | .list items => by
    rw [Document.store]
    exact (grows_storeItems heap items).trans (.newArray _ _)
  | .table members => by
    rw [Document.store]
    exact (grows_storeMembers heap members).trans (.newArray _ _)

theorem grows_storeItems (heap : Heap) : ∀ items : List Document, heap.Grows (storeItems heap items).2
  | [] => .refl heap
  | item :: rest => by
    rw [storeItems]
    exact (item.grows_store heap).trans (grows_storeItems _ rest)

theorem grows_storeMembers (heap : Heap) : ∀ members : List (Text × Document),
    heap.Grows (storeMembers heap members).2
  | [] => .refl heap
  | (_, member) :: rest => by
    rw [storeMembers]
    exact (member.grows_store heap).trans (grows_storeMembers _ rest)

end

/-- The array that is made of the values of a list is what the list becomes. -/
theorem becomes_newArray_ofList {heap : Heap} {items : List Document} {values : List Value}
    (hl : items.length ≤ indexCount) (h : List.Forall₂ (Document.Becomes heap) items values) :
    (Document.list items).Becomes (heap.newArray (.ofList values)).2 (heap.newArray (.ofList values)).1 := by
  have ha := ArrayStore.isListOf_ofList values (h.length_eq ▸ hl)
  refine .list (by simp [Heap.mem_refs_array, Heap.newArray]) ?_ ?_
  · rw [Heap.array_newArray, ha.keys_eq, h.length_eq]
  · rw [Heap.array_newArray, ha.values_eq]
    exact fun p hp => ((List.forall₂_iff_zip.mp h).2 hp).grows (.newArray _ _)

theorem keys_of_members {R : Document → Value → Prop} {members : List (Text × Document)}
    {entries : List (Key × Value)} (h : List.Forall₂ (fun m e => e.1 = Key.ofText m.1 ∧ R m.2 e.2) members entries) :
    entries.map Prod.fst = (members.map Prod.fst).map Key.ofText := by
  induction h with
  | nil => rfl
  | cons hm _ ih => rw [List.map_cons, List.map_cons, List.map_cons, hm.1, ih]

/-- The array that is made of the entries of a table is what the table becomes. -/
theorem becomes_newArray_ofEntries {heap : Heap} {members : List (Text × Document)} {entries : List (Key × Value)}
    (hn : (members.map Prod.fst).Nodup)
    (h : List.Forall₂ (fun m e => e.1 = Key.ofText m.1 ∧ Document.Becomes heap m.2 e.2) members entries) :
    (Document.table members).Becomes (heap.newArray (.ofEntries entries)).2 (heap.newArray (.ofEntries entries)).1 := by
  have hk := keys_of_members h
  have he : (ArrayStore.ofEntries entries).entries = entries :=
    ArrayStore.entries_ofEntries entries (hk ▸ List.Nodup.map Key.ofText_injective hn)
  refine .table (by simp [Heap.mem_refs_array, Heap.newArray]) ?_ ?_ ?_
  · rw [Heap.array_newArray, ArrayStore.keys, he, hk, List.map_map]
    simp [Function.comp_def]
  · rw [Heap.array_newArray, ArrayStore.keys, he, hk, List.forall_mem_map]
    exact fun name _ => Key.isNormal_ofText name
  · rw [Heap.array_newArray, ArrayStore.values, he]
    intro p hp
    rw [List.zip_map_right] at hp
    obtain ⟨q, hq, rfl⟩ := List.mem_map.mp hp
    exact ((List.forall₂_iff_zip.mp h).2 hq).2.grows (.newArray _ _)

mutual

/-- A sound document becomes the value that it is stored as. -/
theorem Document.IsSound.becomes (heap : Heap) : ∀ {d : Document}, d.IsSound indexCount →
    d.Becomes (d.store heap).2 (d.store heap).1
  | .null, _ => .null
  | .bool b, _ => .bool b
  | .int i, _ => .int i
  | .float x, _ => .float x
  | .text t, _ => .text t
  | .dateTime d, _ => .dateTime d
  | .list items, h => by
    cases h with
    | list hl hi =>
      rw [Document.store]
      exact becomes_newArray_ofList hl (becomes_storeItems heap hi)
  | .table members, h => by
    cases h with
    | table hn hm =>
      rw [Document.store]
      exact becomes_newArray_ofEntries hn (becomes_storeMembers heap hm)

theorem becomes_storeItems (heap : Heap) : ∀ {items : List Document}, (∀ item ∈ items, item.IsSound indexCount) →
    List.Forall₂ (Document.Becomes (storeItems heap items).2) items (storeItems heap items).1
  | [], _ => .nil
  | item :: rest, h => by
    obtain ⟨hi, hr⟩ := List.forall_mem_cons.mp h
    rw [storeItems]
    exact .cons ((hi.becomes heap).grows (grows_storeItems _ rest)) (becomes_storeItems _ hr)

theorem becomes_storeMembers (heap : Heap) : ∀ {members : List (Text × Document)},
    (∀ member ∈ members, member.2.IsSound indexCount) →
    List.Forall₂ (fun m e => e.1 = Key.ofText m.1 ∧ Document.Becomes (storeMembers heap members).2 m.2 e.2) members
      (storeMembers heap members).1
  | [], _ => .nil
  | (name, member) :: rest, h => by
    obtain ⟨hm, hr⟩ := List.forall_mem_cons.mp h
    rw [storeMembers]
    exact .cons ⟨rfl, (hm.becomes heap).grows (grows_storeMembers _ rest)⟩ (becomes_storeMembers _ hr)

end

end PhpLiteral
