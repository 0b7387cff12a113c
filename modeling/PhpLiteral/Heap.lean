import PhpLiteral.Association
import PhpLiteral.Value

/-!
# Arrays, objects and the heap that holds them

Arrays and objects are shared: a value refers to one by its place in a heap. This module holds what an array
(`ArrayStore`) and an object (`ObjectStore`) consist of, the operations on them, and the heap (`Heap`) with the
same operations at a place.

* `ArrayStore.push`, `ArrayStore.insert`: the next free index, and a key of one's own;
* `ObjectStore.set`, `ObjectStore.persistOnly`, `ObjectStore.kept`: properties, and which of them are written;
* `Heap.newArray`, `Heap.newObject`: new containers, at places of their own.
-/

namespace PhpLiteral

/-! ## Arrays -/

/-- The next integer, which for the greatest one is that one itself. -/
def nextInt64 (i : Int64) : Int64 := if i = Int64.maxValue then i else i + 1

theorem toInt_nextInt64 (i : Int64) : (nextInt64 i).toInt = min (i.toInt + 1) Int64.maxValue.toInt := by
  have h₁ := i.le_toInt
  have h₂ := i.toInt_le
  unfold nextInt64
  split
  · rename_i h
    rw [h]
    omega
  · rename_i h
    have : i.toInt ≠ Int64.maxValue.toInt := fun e => h (Int64.toInt_inj.mp e)
    rw [Int64.toInt_maxValue] at *
    rw [Int64.toInt_add, Int64.toInt_one, Int.bmod_eq_of_le (by omega) (by omega)]
    omega

/-- What an array holds: its entries in order of first insertion, one for each key, and the index that the next push
uses. -/
structure ArrayStore (α : Type) where
  entries : List (Key × α)
  nextIndex : Int64
  nodup_keys : (entries.map Prod.fst).Nodup

namespace ArrayStore

variable {α : Type}

/-- The array without entries. -/
def empty : ArrayStore α := ⟨[], 0, List.nodup_nil⟩

/-- The array with a value under the next index. -/
def push (a : ArrayStore α) (value : α) : ArrayStore α :=
  ⟨Association.put (.int a.nextIndex) value a.entries, nextInt64 a.nextIndex, Association.nodup_put a.nodup_keys⟩

/-- The array with a value under a key; an integer key not below the next index moves that index behind it. -/
def insert (a : ArrayStore α) (key : Key) (value : α) : ArrayStore α :=
  let nextIndex :=
    match key with
    | .int i => if a.nextIndex ≤ i then nextInt64 i else a.nextIndex
    | .str _ => a.nextIndex
  ⟨Association.put key value a.entries, nextIndex, Association.nodup_put a.nodup_keys⟩

/-- The value under a key. -/
def get? (a : ArrayStore α) (key : Key) : Option α := Association.get? key a.entries

/-- The keys in order. -/
def keys (a : ArrayStore α) : List Key := a.entries.map Prod.fst

/-- The values in order. -/
def values (a : ArrayStore α) : List α := a.entries.map Prod.snd

/-- The array that pushes make of a list. -/
def ofList (values : List α) : ArrayStore α := values.foldl push empty

/-- The array that insertions make of a list of entries. -/
def ofEntries (entries : List (Key × α)) : ArrayStore α :=
  entries.foldl (fun a (key, value) => a.insert key value) empty

end ArrayStore

/-! ## Objects -/

/-- From where a property can be reached. -/
inductive Visibility
  | everywhere
  | subclasses
  | sameClass
  deriving DecidableEq, Repr

/-- What an object holds, with one property for each name and visibility. `persisted` lists the names of the
properties to write, if not all are to be written. -/
structure ObjectStore (α : Type) where
  className : Text
  isAnonymous : Bool
  properties : List ((Text × Visibility) × α)
  persisted : Option (List Text)
  nodup_properties : (properties.map Prod.fst).Nodup

/-- The class of objects without a class of their own. -/
def stdClass : Text := utf8 "stdClass"

/-- The name under which PHP stores a property: the name alone, or behind a star or the class between NUL bytes. -/
def mangledName (className name : Text) : Visibility → Text
  | .everywhere => name
  | .subclasses => Ascii.nul :: Ascii.star :: Ascii.nul :: name
  | .sameClass => Ascii.nul :: className ++ Ascii.nul :: name

namespace ObjectStore

variable {α : Type}

/-- An object of a class, without properties. -/
def ofClass (name : Text) : ObjectStore α := ⟨bareClass name, false, [], none, List.nodup_nil⟩

/-- An object of an anonymous class. -/
def anonymous : ObjectStore α := ⟨utf8 "class@anonymous", true, [], none, List.nodup_nil⟩

/-- The object with a value for the property of a name and visibility. -/
def set (o : ObjectStore α) (name : Text) (visibility : Visibility) (value : α) : ObjectStore α :=
  { o with
    properties := Association.put (name, visibility) value o.properties
    nodup_properties := Association.nodup_put o.nodup_properties }

/-- The object of which only the properties of these names are to be written. -/
def persistOnly (o : ObjectStore α) (names : List Text) : ObjectStore α := { o with persisted := some names }

/-- The stored names that a list of property names allows. -/
def allowedNames (className : Text) (names : List Text) : List Text :=
  names.flatMap fun name =>
    [.everywhere, .subclasses, .sameClass].map (mangledName className name)

/-- Whether the property with a stored name is to be written. -/
def keeps (o : ObjectStore α) (stored : Text) : Bool :=
  match o.persisted with
  | none => true
  | some names => (allowedNames o.className names).contains stored

/-- The properties that are to be written, under their stored names. -/
def kept (o : ObjectStore α) : List (Text × α) :=
  (o.properties.map fun ((name, visibility), value) => (mangledName o.className name visibility, value)).filter
    fun (stored, _) => o.keeps stored

/-- The stored names of the properties that are to be written. -/
def keptNames (o : ObjectStore α) : List Text := o.kept.map Prod.fst

/-- The values of the properties that are to be written. -/
def keptValues (o : ObjectStore α) : List α := o.kept.map Prod.snd

end ObjectStore

/-! ## The heap -/

/-- A reference to an array or an object. -/
inductive Ref
  | array (id : Nat)
  | object (id : Nat)
  deriving DecidableEq, Repr

/-- All arrays and objects, by their places. -/
structure Heap where
  arrays : List (ArrayStore Value)
  objects : List (ObjectStore Value)

namespace Heap

/-- The heap without containers. -/
def empty : Heap := ⟨[], []⟩

/-- The array at a place; a place that was never used holds the empty array. -/
def array (h : Heap) (id : Nat) : ArrayStore Value := h.arrays.getD id .empty

/-- The object at a place; a place that was never used holds an object without properties. -/
def object (h : Heap) (id : Nat) : ObjectStore Value := h.objects.getD id (.ofClass stdClass)

/-- The references to all containers. -/
def refs (h : Heap) : List Ref :=
  (List.range h.arrays.length).map .array ++ (List.range h.objects.length).map .object

theorem mem_refs_array {h : Heap} {id : Nat} : .array id ∈ h.refs ↔ id < h.arrays.length := by
  simp [refs]

theorem mem_refs_object {h : Heap} {id : Nat} : .object id ∈ h.refs ↔ id < h.objects.length := by
  simp [refs]

theorem length_refs (h : Heap) : h.refs.length = h.arrays.length + h.objects.length := by
  simp [refs]

/-- The number of containers that do not stand in a chain of containers. -/
def remaining (h : Heap) (chain : List Ref) : Nat := (h.refs.filter (· ∉ chain)).length

/-- A new array, and the heap with it. -/
def newArray (h : Heap) (a : ArrayStore Value) : Value × Heap :=
  (.array h.arrays.length, { h with arrays := h.arrays ++ [a] })

/-- A new object, and the heap with it. -/
def newObject (h : Heap) (o : ObjectStore Value) : Value × Heap :=
  (.object h.objects.length, { h with objects := h.objects ++ [o] })

/-- The heap with another array at a place. -/
def modifyArray (h : Heap) (id : Nat) (f : ArrayStore Value → ArrayStore Value) : Heap :=
  { h with arrays := h.arrays.modify id f }

/-- The heap with another object at a place. -/
def modifyObject (h : Heap) (id : Nat) (f : ObjectStore Value → ObjectStore Value) : Heap :=
  { h with objects := h.objects.modify id f }

end Heap

end PhpLiteral
