import PhpLiteral.Proofs.Holds
import PhpLiteral.Proofs.Render

/-!
# Trees without code

A value without literals has a tree of atoms, arrays and objects only. `Tree.Every` says this of a tree, together with
a condition on its atoms and one on its class names; `every_of_expand` gets both from what the value holds.
-/

namespace PhpLiteral

open Relation (ReflTransGen)

/-- A value is no literal, and meets the condition on atoms or the one on class names if it is an atom or an object. -/
def Heap.Meets (heap : Heap) (p : Atom → Prop) (q : Text → Prop) : Value → Prop
  | .atom a => p a
  | .object id => q (heap.object id).className
  | .literal _ _ => False
  | _ => True

theorem meets_of_kind_ne {heap : Heap} {v : Value} (h : v.kind ≠ .literal) :
    heap.Meets (fun _ => True) (fun _ => True) v := by
  cases v with
  | literal text args => exact absurd rfl h
  | _ => trivial

mutual

/-- There is no code in a tree, and its atoms and its class names meet conditions. -/
def Tree.Every (p : Atom → Prop) (q : Text → Prop) : Tree → Prop
  | .atom a => p a
  | .array _ values => EveryTree p q values
  | .object className _ values => q className ∧ EveryTree p q values
  | .code _ => False
  | .template _ _ => False

/-- The same of each of several trees. -/
def EveryTree (p : Atom → Prop) (q : Text → Prop) : List Tree → Prop
  | [] => True
  | t :: rest => t.Every p q ∧ EveryTree p q rest

end

/-- There is no code in a tree. -/
abbrev Tree.IsCodeFree (t : Tree) : Prop := t.Every (fun _ => True) (fun _ => True)

variable {p : Atom → Prop} {q : Text → Prop} {heap : Heap} {maxDepth : Nat}

mutual

/-- The tree of a value meets the conditions that all values meet that it holds. -/
theorem every_of_expand (chain : List Ref) (depth : Nat) : ∀ (v : Value) {t : Tree},
    (∀ w, ReflTransGen heap.Holds v w → heap.Meets p q w) → v.expand heap maxDepth depth chain = .ok t → t.Every p q
  | .atom a, t, hv, h => by
    rw [Value.expand] at h
    cases h
    rw [Tree.Every]
    exact hv _ .refl
  | .array id, t, hv, h => by
    obtain ⟨-, rfl⟩ | ⟨hc, ts, hts, rfl⟩ := expand_array_cases h
    · simp [Tree.Every, EveryTree]
    · rw [Tree.Every]
      exact everyTree_of_expandAll (.array id :: chain) (depth + 1) (heap.array id).values
        (fun u hu w hw => hv w (.head (.entry hu) hw)) hts
  | .object id, t, hv, h => by
    obtain ⟨hc, ts, hts, rfl⟩ := exists_of_expand_object h
    rw [Tree.Every]
    exact ⟨hv _ .refl, everyTree_of_expandAll (.object id :: chain) (depth + 1) (heap.object id).keptValues
      (fun u hu w hw => hv w (.head (.property hu) hw)) hts⟩
  | .literal text args, t, hv, h => (hv _ .refl).elim
  | .capturing, t, hv, h => by rw [Value.expand] at h; cases h
  | .resource kind, t, hv, h => by rw [Value.expand] at h; cases h
termination_by v => (heap.remaining chain, sizeOf v, 1)
decreasing_by
  · exact Heap.enter_lt (And.right ‹_›) Heap.values_array_of_not_mem
  · exact Heap.enter_lt (And.right ‹_›) Heap.keptValues_object_of_not_mem

theorem everyTree_of_expandAll (chain : List Ref) (depth : Nat) : ∀ (vs : List Value) {ts : List Tree},
    (∀ v ∈ vs, ∀ w, ReflTransGen heap.Holds v w → heap.Meets p q w) →
    expandAll heap maxDepth depth chain vs = .ok ts → EveryTree p q ts
  | [], ts, hv, h => by
    rw [expandAll] at h
    cases h
    rw [EveryTree]
    trivial
  | v :: rest, ts, hv, h => by
    obtain ⟨t, us, ht, hu, rfl⟩ := expandAll_cons_eq_ok.mp h
    rw [EveryTree]
    exact ⟨every_of_expand chain depth v (hv v List.mem_cons_self) ht,
      everyTree_of_expandAll chain depth rest (fun w hw => hv w (List.mem_cons_of_mem _ hw)) hu⟩
termination_by vs => (heap.remaining chain, sizeOf vs, 0)

end

end PhpLiteral
