import Mathlib.Logic.Relation
import PhpLiteral.Heap

/-!
# Values inside values

Which values a value holds directly, as far as they are written (`Heap.Holds`) or at all (`Heap.Links`). What it holds
in any depth is the reflexive transitive closure. A value of which everything inside is well-founded has no cycle in it
(`not_transGen_self`).
-/

namespace PhpLiteral

open Relation (ReflTransGen TransGen)

theorem not_transGen_self {α : Type} {r : α → α → Prop} {v c : α} (h : Acc (fun w u => r u w) v)
    (hc : ReflTransGen r v c) : ¬ TransGen r c c := by
  induction h with | intro v _ ih =>
  intro ht
  rcases hc.cases_head with rfl | ⟨w, hw, hwc⟩
  · -- The cycle goes through the value itself, hence also through the first value on it.
    obtain ⟨w, hw, hwv⟩ := TransGen.head'_iff.mp ht
    exact ih w hw hwv ht
  · exact ih w hw hwc ht

/-- A value is directly inside another one: in an entry of an array, in a property that is written, or among the
arguments of a literal. -/
inductive Heap.Holds (heap : Heap) : Value → Value → Prop
  | entry {id : Nat} {w : Value} : w ∈ (heap.array id).values → heap.Holds (.array id) w
  | property {id : Nat} {w : Value} : w ∈ (heap.object id).keptValues → heap.Holds (.object id) w
  | argument {text : Text} {args : List Value} {w : Value} : w ∈ args → heap.Holds (.literal text args) w

/-- The values of all properties, whether they are to be written or not. -/
def ObjectStore.values {α : Type} (o : ObjectStore α) : List α := o.properties.map Prod.snd

/-- The values directly inside a value: the entries of an array, all properties of an object, the arguments of a
literal. -/
def Heap.children (heap : Heap) : Value → List Value
  | .array id => (heap.array id).values
  | .object id => (heap.object id).values
  | .literal _ args => args
  | _ => []

@[simp] theorem Heap.children_array (heap : Heap) (id : Nat) : heap.children (.array id) = (heap.array id).values := rfl

@[simp] theorem Heap.children_object (heap : Heap) (id : Nat) :
    heap.children (.object id) = (heap.object id).values := rfl

@[simp] theorem Heap.children_literal (heap : Heap) (code : Text) (args : List Value) :
    heap.children (.literal code args) = args := rfl

/-- A value is directly inside another one. -/
def Heap.Links (heap : Heap) (v w : Value) : Prop := w ∈ heap.children v

theorem sizeOf_lt_literal {code : Text} {args : List Value} {w : Value} (h : w ∈ args) :
    sizeOf w < sizeOf (Value.literal code args) := by
  have := List.sizeOf_lt_of_mem h
  rw [Value.literal.sizeOf_spec]
  omega

/-- Nothing in a heap is inside itself. -/
def Heap.IsAcyclic (heap : Heap) : Prop := ∀ v, ¬ TransGen heap.Links v v

/-- The value that refers to a container. -/
def Ref.value : Ref → Value
  | .array id => .array id
  | .object id => .object id

section

variable {heap : Heap} (h : ∀ r : Ref, Acc (fun w u => heap.Links u w) r.value)

include h

/-- Every value is well-founded if the containers are, since code has finitely many arguments. -/
theorem acc_links : ∀ v : Value, Acc (fun w u => heap.Links u w) v
  | .array id => h (.array id)
  | .object id => h (.object id)
  | .literal code args => by
    refine ⟨_, fun w hw => ?_⟩
    have hlt : sizeOf w < sizeOf (Value.literal code args) := sizeOf_lt_literal hw
    exact acc_links w
  | .atom a => ⟨_, fun w hw => nomatch hw⟩
  | .capturing => ⟨_, fun w hw => nomatch hw⟩
  | .resource kind => ⟨_, fun w hw => nomatch hw⟩
termination_by v => sizeOf v
decreasing_by exact hlt

theorem Heap.isAcyclic_of_acc : heap.IsAcyclic := fun v => not_transGen_self (acc_links h v) .refl

end

end PhpLiteral
