import PhpLiteral.Proofs.Binary64.Nearest
import PhpLiteral.Proofs.Json.Contents

/-!
# What JSON contents become

A content becomes a value without loss (`Json.Content.IsSound.becomes`): a number becomes the integer that it is if
that has 64 bits with sign, and else its double, a list an array with the indices of its items as keys, and a table
one whose keys have its names as their texts.
-/

namespace PhpLiteral.Json

open ArrayStore (indexCount)
open Binary64 (IsRounded)

/-! ## Numbers -/

/-- What a number becomes. An integer beyond 64 bits with sign becomes the nearest double, a tie going to the even
one. -/
inductive Number.Becomes : Number → Atom → Prop
  | natural {n : UInt64} {i : Int64} : i.toInt = n.toNat → Becomes (.natural n) (.int i)
  | large {n : UInt64} {m : Nat} : Int64.maxValue.toInt < n.toNat → IsRounded n.toNat m →
      Becomes (.natural n) (.float (.ofMagnitude false m))
  | negative (i : Int64) : Becomes (.negative i) (.int i)
  | float (x : Binary64) : Becomes (.float x) (.float x)

theorem isRounded_word (n : UInt64) : IsRounded n.toNat (Binary64.nearest n.toNat 1) := by
  have hn : n.toNat < 2 ^ 64 * 1 := n.toNat_lt
  simpa using Binary64.isRounded_nearest Nat.one_pos
    (Binary64.nearest_lt_infinityMagnitude Nat.one_pos (by decide) hn)

/-- The document of a number is stored as what the number becomes. -/
theorem Number.exists_becomes (n : Number) :
    ∃ a, n.Becomes a ∧ ∀ {heap : Heap} {v : Value}, n.document.Becomes heap v → v = .atom a := by
  cases n with
  | natural n =>
    cases hi : int64? n.toNat with
    | some i =>
      refine ⟨.int i, .natural (int64?_eq_some_iff.mp hi).symm, fun h => ?_⟩
      rw [document, int?, hi] at h
      cases h
      rfl
    | none =>
      have hn : Int64.maxValue.toInt < n.toNat := by
        rw [int64?, ite_eq_right_iff] at hi
        have hm : Int64.minValue.toInt ≤ n.toNat := Int.le_trans (by decide) (Int.natCast_nonneg _)
        exact Int.not_le.mp fun hle => Option.some_ne_none _ (hi ⟨hm, hle⟩)
      refine ⟨_, .large hn (isRounded_word n), fun h => ?_⟩
      rw [document, int?, hi] at h
      cases h
      rfl
  | negative i =>
    refine ⟨.int i, .negative i, fun h => ?_⟩
    cases h
    rfl
  | float x =>
    refine ⟨.float x, .float x, fun h => ?_⟩
    cases h
    rfl

/-! ## Contents -/

/-- In a heap, a value is what a content becomes. -/
inductive Content.Becomes (heap : Heap) : Content → Value → Prop
  | null : Becomes heap .null (.atom .null)
  | bool (b : Bool) : Becomes heap (.bool b) (.atom (.bool b))
  | number {n : Number} {a : Atom} : n.Becomes a → Becomes heap (.number n) (.atom a)
  | text (t : Text) : Becomes heap (.text t) (.atom (.string t))
  /-- The items stand in order under their indices. -/
  | list {items : List Content} {id : Nat} : .array id ∈ heap.refs →
      (heap.array id).keys = ArrayStore.indices items.length →
      (∀ p ∈ items.zip (heap.array id).values, Becomes heap p.1 p.2) → Becomes heap (.list items) (.array id)
  /-- The members stand in order under keys of PHP whose texts are their names. -/
  | table {members : List (Text × Content)} {id : Nat} : .array id ∈ heap.refs →
      (heap.array id).keys.map Key.text = members.map Prod.fst → (∀ key ∈ (heap.array id).keys, key.IsNormal) →
      (∀ p ∈ members.zip (heap.array id).values, Becomes heap p.1.2 p.2) → Becomes heap (.table members) (.array id)

theorem documents_eq : ∀ items : List Content, documents items = items.map Content.document
  | [] => rfl
  | item :: rest => by rw [documents, documents_eq rest, List.map_cons]

theorem memberDocuments_eq : ∀ members : List (Text × Content),
    memberDocuments members = members.map (Prod.map id Content.document)
  | [] => rfl
  | (name, member) :: rest => by
    rw [memberDocuments, memberDocuments_eq rest]
    rfl

theorem Content.IsSound.document {limit : Nat} {c : Content} (h : c.IsSound limit) : c.document.IsSound limit := by
  induction h with
  | null => exact .null
  | bool b => exact .bool b
  | number n =>
    rw [Content.document, Number.document]
    split
    · exact .int _
    · exact .float _
  | text t => exact .text t
  | list hn _ ih =>
    rw [Content.document, documents_eq]
    refine .list (by rwa [List.length_map]) ?_
    rw [List.forall_mem_map]
    exact ih
  | table hn _ ih =>
    rw [Content.document, memberDocuments_eq]
    refine .table (by rwa [List.map_map]) ?_
    rw [List.forall_mem_map]
    exact ih

/-- What the document of a sound content becomes is what the content becomes. -/
theorem Content.IsSound.becomes_of_document {limit : Nat} {heap : Heap} {c : Content} (h : c.IsSound limit) {v : Value}
    (hd : c.document.Becomes heap v) : c.Becomes heap v := by
  induction h generalizing v with
  | null =>
    cases hd
    exact .null
  | bool b =>
    cases hd
    exact .bool b
  | number n =>
    obtain ⟨a, ha, hv⟩ := n.exists_becomes
    rw [hv hd]
    exact .number ha
  | text t =>
    cases hd
    exact .text t
  | list _ _ ih =>
    rw [Content.document, documents_eq] at hd
    cases hd with
    | list hr hk hm =>
      rw [List.length_map] at hk
      refine .list hr hk fun p hp => ih _ (List.of_mem_zip hp).1 (hm (p.1.document, p.2) ?_)
      rw [List.zip_map_left]
      exact List.mem_map_of_mem hp
  | table _ _ ih =>
    rw [Content.document, memberDocuments_eq] at hd
    cases hd with
    | table hr hk hn hm =>
      rw [List.map_map] at hk
      refine .table hr hk hn fun p hp => ih _ (List.of_mem_zip hp).1 (hm (Prod.map id Content.document p.1, p.2) ?_)
      rw [List.zip_map_left]
      exact List.mem_map_of_mem hp

/-- A sound content becomes the value that its document is stored as. -/
theorem Content.IsSound.becomes {c : Content} (h : c.IsSound indexCount) (heap : Heap) :
    c.Becomes (c.document.store heap).2 (c.document.store heap).1 :=
  h.becomes_of_document (h.document.becomes heap)

end PhpLiteral.Json
