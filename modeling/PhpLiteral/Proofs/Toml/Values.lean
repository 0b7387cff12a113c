import PhpLiteral.Proofs.Pointwise
import PhpLiteral.Proofs.Toml.Items

/-!
# What TOML items become

An item becomes a value without loss (`Toml.Item.IsSound.becomes`), if its integers have 64 bits with sign
(`Toml.Item.HasWords`): a list becomes an array with the indices of its items as keys, as do the tables of headers in
double brackets, and a table one whose keys have its names as their texts. A date-time with a date becomes one of PHP,
and a time alone a string.
-/

namespace PhpLiteral.Toml

open ArrayStore (indexCount)

variable {limit rows : Nat} {heap : Heap}

/-- All integers in an item have 64 bits with sign. -/
inductive Item.HasWords : Item → Prop
  | bool (b : Bool) : HasWords (.bool b)
  | int (i : Int64) : HasWords (.int i.toInt)
  | float (x : Binary64) : HasWords (.float x)
  | text (t : Text) : HasWords (.text t)
  | moment (m : Moment) : HasWords (.moment m)
  | list {items : List Item} : (∀ item ∈ items, HasWords item) → HasWords (.list items)
  | table {kind : TableKind} {members : Members} : (∀ member ∈ members, HasWords member.2) →
      HasWords (.table kind members)
  | rows {tables : List Members} : (∀ members ∈ tables, ∀ member ∈ members, HasWords member.2) →
      HasWords (.rows tables)

/-- What a date-time becomes: a date with a time of day, midnight if there is none, in its zone, which is UTC if there
is none, and a time alone its canonical text. -/
inductive Moment.Becomes : Moment → Atom → Prop
  | offsetDateTime (d : Date) (t : Time) (o : Offset) : Becomes (.offsetDateTime d t o)
      (.dateTime ⟨true, ⟨d.year, d.month, d.day, t.hour, t.minute, t.second, t.nanosecond⟩, o.zone⟩)
  | localDateTime (d : Date) (t : Time) : Becomes (.localDateTime d t)
      (.dateTime ⟨true, ⟨d.year, d.month, d.day, t.hour, t.minute, t.second, t.nanosecond⟩, utf8 "UTC"⟩)
  | localDate (d : Date) : Becomes (.localDate d)
      (.dateTime ⟨true, ⟨d.year, d.month, d.day, 0, 0, 0, 0⟩, utf8 "UTC"⟩)
  | localTime (t : Time) : Becomes (.localTime t) (.string t.text)

/-- In a heap, a value is what an item becomes. -/
inductive Item.Becomes (heap : Heap) : Item → Value → Prop
  | bool (b : Bool) : Becomes heap (.bool b) (.atom (.bool b))
  | int (i : Int64) : Becomes heap (.int i.toInt) (.atom (.int i))
  | float (x : Binary64) : Becomes heap (.float x) (.atom (.float x))
  | text (t : Text) : Becomes heap (.text t) (.atom (.string t))
  | moment {m : Moment} {a : Atom} : m.Becomes a → Becomes heap (.moment m) (.atom a)
  /-- The items stand in order under their indices. -/
  | list {items : List Item} {id : Nat} : .array id ∈ heap.refs →
      (heap.array id).keys = ArrayStore.indices items.length →
      (∀ p ∈ items.zip (heap.array id).values, Becomes heap p.1 p.2) → Becomes heap (.list items) (.array id)
  /-- The members stand in order under keys of PHP whose texts are their names. -/
  | table {kind : TableKind} {members : Members} {id : Nat} : .array id ∈ heap.refs →
      (heap.array id).keys.map Key.text = members.map Prod.fst → (∀ key ∈ (heap.array id).keys, key.IsNormal) →
      (∀ p ∈ members.zip (heap.array id).values, Becomes heap p.1.2 p.2) →
      Becomes heap (.table kind members) (.array id)
  /-- The tables stand in order under their indices. -/
  | rows {tables : List Members} {id : Nat} : .array id ∈ heap.refs →
      (heap.array id).keys = ArrayStore.indices tables.length →
      (∀ p ∈ tables.zip (heap.array id).values, Becomes heap (.table .declared p.1) p.2) →
      Becomes heap (.rows tables) (.array id)

/-! ## Documents of items -/

theorem documents?_eq : ∀ items : List Item, documents? items = items.mapM Item.document?
  | [] => rfl
  | item :: rest => by rw [documents?, documents?_eq rest, List.mapM_cons]

theorem memberDocuments?_eq : ∀ members : Members,
    memberDocuments? members = members.mapM fun m => m.2.document?.map (Prod.mk m.1)
  | [] => rfl
  | (name, item) :: rest => by
    rw [memberDocuments?, memberDocuments?_eq rest, List.mapM_cons]
    cases item.document? <;> rfl

theorem rowDocuments?_eq : ∀ tables : List Members, rowDocuments? tables = tables.mapM document?
  | [] => rfl
  | members :: rest => by
    rw [rowDocuments?, rowDocuments?_eq rest, List.mapM_cons, document?]
    cases memberDocuments? members <;> rfl

/-- The documents of members have their names, in order. -/
theorem map_fst_memberDocuments? {members : Members} {es : List (Text × Document)}
    (h : memberDocuments? members = some es) : es.map Prod.fst = members.map Prod.fst := by
  rw [memberDocuments?_eq, mapM_eq_some_iff] at h
  induction h with
  | nil => rfl
  | cons hm _ ih =>
    obtain ⟨d, -, rfl⟩ := Option.map_eq_some_iff.mp hm
    rw [List.map_cons, List.map_cons, ih]

theorem Item.document?_table (kind : TableKind) (members : Members) :
    (Item.table kind members).document? = Toml.document? members := by
  rw [Item.document?, Toml.document?]

/-- A table has a document exactly if all its members have one. -/
theorem isSome_document?_iff {members : Members} :
    (document? members).isSome = true ↔ ∀ m ∈ members, m.2.document?.isSome = true := by
  rw [document?, Option.isSome_map, memberDocuments?_eq, isSome_mapM_iff]
  simp only [Option.isSome_map]

/-! ## Sound items -/

/-- Members whose documents are sound make a sound document. -/
theorem isSound_document {members : Members} {d : Document} (hn : (members.map Prod.fst).Nodup)
    (hs : ∀ m ∈ members, ∀ {d}, m.2.document? = some d → d.IsSound limit) (h : document? members = some d) :
    d.IsSound limit := by
  obtain ⟨es, he, rfl⟩ := Option.map_eq_some_iff.mp h
  refine .table (map_fst_memberDocuments? he ▸ hn) fun e hm => ?_
  rw [memberDocuments?_eq, mapM_eq_some_iff] at he
  obtain ⟨m, hm', hd⟩ := exists_of_mem_right he hm
  obtain ⟨d, hd', rfl⟩ := Option.map_eq_some_iff.mp hd
  exact hs m hm' hd'

theorem Item.IsSound.document {item : Item} {d : Document} (hr : rows ≤ limit) (hi : item.IsSound limit rows)
    (h : item.document? = some d) : d.IsSound limit := by
  induction hi generalizing d with
  | bool b =>
    rw [Item.document?] at h
    cases h
    exact .bool b
  | int i =>
    rw [Item.document?] at h
    obtain ⟨i, -, rfl⟩ := Option.map_eq_some_iff.mp h
    exact .int i
  | float x =>
    rw [Item.document?] at h
    cases h
    exact .float x
  | text t =>
    rw [Item.document?] at h
    cases h
    exact .text t
  | moment m =>
    rw [Item.document?] at h
    cases h
    cases m with
    | offsetDateTime d t o => exact .dateTime _
    | localDateTime d t => exact .dateTime _
    | localDate d => exact .dateTime _
    | localTime t => exact .text _
  | list hn _ ih =>
    rw [Item.document?] at h
    obtain ⟨ds, hd, rfl⟩ := Option.map_eq_some_iff.mp h
    rw [documents?_eq, mapM_eq_some_iff] at hd
    refine .list (hd.length_eq ▸ hn) fun d hm => ?_
    obtain ⟨item, hi, hd⟩ := exists_of_mem_right hd hm
    exact ih item hi hd
  | table hn _ ih =>
    rw [Item.document?_table] at h
    exact isSound_document hn (fun m hm _ h => ih m hm h) h
  | rows _ hn hu _ ih =>
    rw [Item.document?] at h
    obtain ⟨ds, hd, rfl⟩ := Option.map_eq_some_iff.mp h
    rw [rowDocuments?_eq, mapM_eq_some_iff] at hd
    refine .list (hd.length_eq ▸ Nat.le_trans hn hr) fun d hm => ?_
    obtain ⟨members, hi, hd⟩ := exists_of_mem_right hd hm
    exact isSound_document (hu members hi) (fun m hm _ h => ih members hi m hm h) hd

/-- What the document of members becomes is what their table becomes, if that holds of each member. -/
theorem becomes_table_of_document {members : Members} {d : Document} {v : Value} {kind : TableKind}
    (hm : ∀ m ∈ members, ∀ {d v}, m.2.document? = some d → d.Becomes heap v → m.2.Becomes heap v)
    (h : document? members = some d) (hd : d.Becomes heap v) : (Item.table kind members).Becomes heap v := by
  obtain ⟨es, he, rfl⟩ := Option.map_eq_some_iff.mp h
  have hf := map_fst_memberDocuments? he
  rw [memberDocuments?_eq, mapM_eq_some_iff] at he
  cases hd with
  | table hr hk hn hv =>
    rw [hf] at hk
    refine .table hr hk hn fun p hp => ?_
    obtain ⟨e, hd, hz⟩ := exists_of_mem_zip he hp
    obtain ⟨d, hd', rfl⟩ := Option.map_eq_some_iff.mp hd
    exact hm p.1 (List.of_mem_zip hp).1 hd' (hv _ hz)

/-- What the document of a sound item becomes is what the item becomes. -/
theorem Item.IsSound.becomes_of_document {item : Item} {d : Document} {v : Value} (hi : item.IsSound limit rows)
    (h : item.document? = some d) (hd : d.Becomes heap v) : item.Becomes heap v := by
  induction hi generalizing d v with
  | bool b =>
    rw [Item.document?] at h
    cases h
    cases hd
    exact .bool b
  | int i =>
    rw [Item.document?] at h
    obtain ⟨i, hi, rfl⟩ := Option.map_eq_some_iff.mp h
    cases hd
    obtain rfl := int64?_eq_some_iff.mp hi
    exact .int i
  | float x =>
    rw [Item.document?] at h
    cases h
    cases hd
    exact .float x
  | text t =>
    rw [Item.document?] at h
    cases h
    cases hd
    exact .text t
  | moment m =>
    rw [Item.document?] at h
    cases h
    cases m <;> cases hd
    · exact .moment (.offsetDateTime _ _ _)
    · exact .moment (.localDateTime _ _)
    · exact .moment (.localDate _)
    · exact .moment (.localTime _)
  | list _ _ ih =>
    rw [Item.document?] at h
    obtain ⟨ds, he, rfl⟩ := Option.map_eq_some_iff.mp h
    rw [documents?_eq, mapM_eq_some_iff] at he
    cases hd with
    | list hr hk hv =>
      refine .list hr (he.length_eq ▸ hk) fun p hp => ?_
      obtain ⟨d, hd, hz⟩ := exists_of_mem_zip he hp
      exact ih p.1 (List.of_mem_zip hp).1 hd (hv _ hz)
  | table _ _ ih =>
    rw [Item.document?_table] at h
    exact becomes_table_of_document (fun m hm _ _ h hd => ih m hm h hd) h hd
  | rows _ _ _ _ ih =>
    rw [Item.document?] at h
    obtain ⟨ds, he, rfl⟩ := Option.map_eq_some_iff.mp h
    rw [rowDocuments?_eq, mapM_eq_some_iff] at he
    cases hd with
    | list hr hk hv =>
      refine .rows hr (he.length_eq ▸ hk) fun p hp => ?_
      obtain ⟨d, hd, hz⟩ := exists_of_mem_zip he hp
      have hp := (List.of_mem_zip hp).1
      exact becomes_table_of_document (fun m hm _ _ h hd => ih p.1 hp m hm h hd) hd (hv _ hz)

/-- A sound item has a document exactly if its integers have 64 bits. -/
theorem Item.IsSound.isSome_document?_iff {item : Item} (hi : item.IsSound limit rows) :
    item.document?.isSome = true ↔ item.HasWords := by
  induction hi with
  | bool b => exact iff_of_true rfl (.bool b)
  | int i =>
    rw [Item.document?, Option.isSome_map, Option.isSome_iff_exists]
    constructor
    · rintro ⟨j, hj⟩
      obtain rfl := int64?_eq_some_iff.mp hj
      exact .int j
    · intro h
      cases h with
      | int j => exact ⟨j, int64?_toInt j⟩
  | float x => exact iff_of_true rfl (.float x)
  | text t => exact iff_of_true rfl (.text t)
  | moment m => exact iff_of_true rfl (.moment m)
  | list _ _ ih =>
    rw [Item.document?, Option.isSome_map, documents?_eq, isSome_mapM_iff]
    constructor
    · exact fun h => .list fun item hm => (ih item hm).mp (h item hm)
    · intro h
      cases h with
      | list h => exact fun item hm => (ih item hm).mpr (h item hm)
  | table _ _ ih =>
    rw [Item.document?_table, Toml.isSome_document?_iff]
    constructor
    · exact fun h => .table fun m hm => (ih m hm).mp (h m hm)
    · intro h
      cases h with
      | table h => exact fun m hm => (ih m hm).mpr (h m hm)
  | rows _ _ _ _ ih =>
    rw [Item.document?, Option.isSome_map, rowDocuments?_eq, isSome_mapM_iff]
    simp only [Toml.isSome_document?_iff]
    constructor
    · exact fun h => .rows fun members ht m hm => (ih members ht m hm).mp (h members ht m hm)
    · intro h
      cases h with
      | rows h => exact fun members ht m hm => (ih members ht m hm).mpr (h members ht m hm)

/-- A sound item becomes the value that its document is stored as. -/
theorem Item.IsSound.becomes {item : Item} {d : Document} (hi : item.IsSound indexCount indexCount)
    (h : item.document? = some d) (heap : Heap) : item.Becomes (d.store heap).2 (d.store heap).1 :=
  hi.becomes_of_document h ((hi.document (Nat.le_refl _) h).becomes heap)

end PhpLiteral.Toml
