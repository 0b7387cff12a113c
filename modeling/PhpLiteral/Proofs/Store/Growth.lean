import Mathlib.Data.List.GetD
import PhpLiteral.Heap

/-!
# Heaps that grow and change

New containers are put behind those that are there (`Heap.Grows`), which stay as they are. A change to an array changes
no other one (`Heap.array_modifyArray`).
-/

namespace PhpLiteral

/-- A heap with more containers behind its own. -/
structure Heap.Grows (h h' : Heap) : Prop where
  arrays : h.arrays <+: h'.arrays
  objects : h.objects <+: h'.objects

namespace Heap.Grows

variable {h h' h'' : Heap} {id : Nat}

theorem refl (h : Heap) : h.Grows h := ⟨List.prefix_refl _, List.prefix_refl _⟩

theorem trans (hg : h.Grows h') (hg' : h'.Grows h'') : h.Grows h'' :=
  ⟨hg.arrays.trans hg'.arrays, hg.objects.trans hg'.objects⟩

theorem newArray (h : Heap) (a : ArrayStore Value) : h.Grows (h.newArray a).2 :=
  ⟨List.prefix_append _ _, List.prefix_refl _⟩

theorem newObject (h : Heap) (o : ObjectStore Value) : h.Grows (h.newObject o).2 :=
  ⟨List.prefix_refl _, List.prefix_append _ _⟩

theorem refs (hg : h.Grows h') {r : Ref} (hr : r ∈ h.refs) : r ∈ h'.refs := by
  cases r with
  | array id => exact mem_refs_array.mpr (Nat.lt_of_lt_of_le (mem_refs_array.mp hr) hg.arrays.length_le)
  | object id => exact mem_refs_object.mpr (Nat.lt_of_lt_of_le (mem_refs_object.mp hr) hg.objects.length_le)

theorem array_eq (hg : h.Grows h') (hr : .array id ∈ h.refs) : h'.array id = h.array id := by
  obtain ⟨as, ha⟩ := hg.arrays
  rw [Heap.array, Heap.array, ← ha, List.getD_append _ _ _ _ (mem_refs_array.mp hr)]

theorem object_eq (hg : h.Grows h') (hr : .object id ∈ h.refs) : h'.object id = h.object id := by
  obtain ⟨os, ho⟩ := hg.objects
  rw [Heap.object, Heap.object, ← ho, List.getD_append _ _ _ _ (mem_refs_object.mp hr)]

end Heap.Grows

theorem Heap.array_newArray (h : Heap) (a : ArrayStore Value) : (h.newArray a).2.array h.arrays.length = a := by
  simp [Heap.array, Heap.newArray, List.getD]

theorem Heap.object_newObject (h : Heap) (o : ObjectStore Value) : (h.newObject o).2.object h.objects.length = o := by
  simp [Heap.object, Heap.newObject, List.getD]

/-- A change to an array that is there. -/
theorem Heap.array_modifyArray {h : Heap} {id : Nat} (hi : id < h.arrays.length) (i : Nat)
    (f : ArrayStore Value → ArrayStore Value) :
    (h.modifyArray id f).array i = if id = i then f (h.array i) else h.array i := by
  rw [Heap.array, Heap.array, modifyArray, List.getD, List.getD, List.getElem?_modify]
  split
  · rename_i e
    rw [← e, List.getElem?_eq_getElem hi]
    rfl
  · rw [Option.map_eq_map, Option.map_id']

end PhpLiteral
