import PhpLiteral.Proofs.Layout.Flat

/-!
# Looser limits

A value is written the same at a place that fewer containers enclose and below which more depth is left, and any error
stays the same but the one about nesting, which may go away (`Looser.related`). So only the outcome can depend on the
greatest depth, and never the layout (`dump_eq_of_maxDepth_le`).
-/

namespace PhpLiteral

/-! ## Results -/

/-- The second of two results is the same as the first one, unless the first one is the error about nesting. -/
def SameUnless {ε α : Type} (nested : ε) (x y : Except ε α) : Prop := x ≠ .error nested → y = x

theorem relates_sameUnless {ε : Type} {M : Machine (Except ε)} (nested : ε) :
    M.Relates M fun _ x y => SameUnless nested x y where
  pure _ _ := rfl
  bind {α β x y f g} h hf := by
    intro hx
    cases x with
    | error e =>
      rw [h fun he => hx (by rw [he]; rfl)]
      rfl
    | ok a =>
      rw [h nofun]
      exact hf a hx
  sum _ _ := rfl
  fail _ _ := rfl

/-! ## Places -/

/-- Below the second of two places at least as much depth is left as below the first one, and no further containers
enclose it. -/
structure Looser (maxDepth : Nat) (p : Place) (maxDepth' : Nat) (p' : Place) : Prop where
  depth_le : maxDepth + p'.depth ≤ maxDepth' + p.depth
  subset : p'.chain ⊆ p.chain

namespace Looser

variable {maxDepth maxDepth' : Nat} {p p' : Place}

theorem below (h : Looser maxDepth p maxDepth' p') : Looser maxDepth p.below maxDepth' p'.below where
  depth_le := by
    have := h.depth_le
    simp only [Place.below]
    omega
  subset := h.subset

theorem inside (h : Looser maxDepth p maxDepth' p') (r : Ref) :
    Looser maxDepth (p.inside r) maxDepth' (p'.inside r) where
  depth_le := h.below.depth_le
  subset := List.cons_subset_cons r h.subset

/-- What may be entered at the first place may be entered at the second one, too. -/
theorem entered (h : Looser maxDepth p maxDepth' p') {r : Ref} {same : Prop} (hs : same) :
    Entered True (p.Allows maxDepth r) (p'.Allows maxDepth' r) same where
  same ha := by
    have := h.depth_le
    exact ⟨⟨by have := ha.1; omega, fun hm => ha.2 (h.subset hm)⟩, hs⟩
  back _ := .inr trivial

theorem sideBySide (h : Looser maxDepth p maxDepth' p') (heap : Heap) (v : Value) :
    SideBySide (fun q w q' w' => w = w' ∧ Looser maxDepth q maxDepth' q') True heap heap maxDepth maxDepth' p p'
      v v := by
  cases v with
  | atom a => exact .atom a
  | array id => exact .array rfl (h.entered ⟨rfl, List.forall₂_same.mpr fun _ _ => ⟨rfl, h.inside _⟩⟩)
  | object id => exact .object rfl (h.entered ⟨⟨rfl, rfl⟩, List.forall₂_same.mpr fun _ _ => ⟨rfl, h.inside _⟩⟩)
  | literal code args => exact .literal code (List.forall₂_same.mpr fun _ _ => ⟨rfl, h.below⟩)
  | capturing => exact .capturing
  | resource kind => exact .resource kind

/-- The outcome at the second place is that at the first one, unless the value is nested too deep there. -/
theorem related {ε : Type} {M : Machine (Except ε)} {nested : ε}
    (hM : ∀ {α : Type}, (M.fail .recursion : Except ε α) = .error nested) {s : Settings}
    (h : Looser s.maxDepth p maxDepth' p') (heap : Heap) (v : Value) :
    Related M M (fun _ x y => SameUnless nested x y) s maxDepth' heap heap p v p' v :=
  renderWith_related (relates_sameUnless nested) (fun (_ : True) _ _ hx => absurd hM hx)
    (B := fun q w q' w' => w = w' ∧ Looser s.maxDepth q maxDepth' q')
    (by rintro q w q' _ ⟨rfl, hq⟩; exact hq.sideBySide heap w) ⟨rfl, h⟩

theorem renderSlotsWith {s : Settings} (h : Looser s.maxDepth p maxDepth' p') (heap : Heap) (column : Nat)
    (slots : List (Placeholder × Text)) (args : List Value) :
    SameUnless .recursion (renderSlotsWith .exact s heap p.chain p.depth column slots args)
      (PhpLiteral.renderSlotsWith .exact { s with maxDepth := maxDepth' } heap p'.chain p'.depth column slots args) :=
  renderSlotsWith_related (relates_sameUnless DumpError.recursion)
    (List.forall₂_same.mpr fun v _ => h.related rfl heap v) column slots

end Looser

/-! ## The greatest depth -/

/-- With a greater depth allowed, a value or a template that could be written is written the same, and any error but
the one about nesting stays. -/
theorem dump_eq_of_maxDepth_le {s : Settings} {maxDepth : Nat} (hm : s.maxDepth ≤ maxDepth) (heap : Heap) :
    (∀ (v : Value) (column : Nat), dump s heap v column ≠ .error (.error .recursion) →
      dump { s with maxDepth } heap v column = dump s heap v column) ∧
    ∀ (template : Text) (args : List Value), format s heap template args ≠ .error .recursion →
      format { s with maxDepth } heap template args = format s heap template args := by
  have hl : Looser s.maxDepth {} maxDepth {} := ⟨by simpa using hm, List.Subset.refl _⟩
  refine ⟨fun v column => (hl.related (M := .checked) rfl heap v).render 0 column, fun template args hx => ?_⟩
  have := hl.renderSlotsWith heap (columnAfter 0 (Template.parse template).lead) (Template.parse template).slots args
  exact congrArg (Except.map _) (this fun he => hx (map_eq_error.mpr he))

theorem expand_nestedPair_shallow : (Value.array 1).expand nestedPair 1 0 [] = .ok (.array (nestedPair.array 1).keys
    [.array (nestedPair.array 0).keys [.atom (.int 1), .atom (.bool true)], .atom (.string (utf8 "ab"))]) := by
  obtain ⟨h₀, h₁, -⟩ := values_nestedPair
  simp [Value.expand, expandAll, h₀, h₁, Except.map, bind, Except.bind, pure, Except.pure]

theorem dump_nestedPair_shallow : dump { maxDepth := 1, wrapLength := 14 } nestedPair (.array 1) 0 =
    .ok (utf8 "[\n\t[1, true],\n\t'ab',\n]") := by
  rw [dump_of_expand expand_nestedPair_shallow, if_pos (by decide)]
  refine congrArg Except.ok ?_
  decide

theorem format_nestedPair_shallow : format { maxDepth := 1, wrapLength := 14 } nestedPair (utf8 "f(?, ?)") [.array 1] =
    .error .insufficientArguments := by
  have ht : Template.parse (utf8 "f(?, ?)") = ⟨utf8 "f(", [(.value, utf8 ", "), (.value, utf8 ")")]⟩ := by decide
  rw [format_eq, ht, expandSlots, expandSlot, expand_nestedPair_shallow, expandSlots]
  rfl

/-- Two arrays are nested as deep as the smaller limit allows, and one argument is missing under either. -/
theorem dump_eq_of_maxDepth_le_nestedPair :
    dump { maxDepth := 7, wrapLength := 14 } nestedPair (.array 1) 0 = .ok (utf8 "[\n\t[1, true],\n\t'ab',\n]") ∧
      format { maxDepth := 7, wrapLength := 14 } nestedPair (utf8 "f(?, ?)") [.array 1] =
        .error .insufficientArguments := by
  have hm : ({ maxDepth := 1, wrapLength := 14 } : Settings).maxDepth ≤ 7 := by decide
  obtain ⟨hd, hf⟩ := dump_eq_of_maxDepth_le hm nestedPair
  refine ⟨?_, ?_⟩
  · rw [← dump_nestedPair_shallow]
    exact hd (.array 1) 0 (by rw [dump_nestedPair_shallow]; nofun)
  · rw [← format_nestedPair_shallow]
    exact hf (utf8 "f(?, ?)") [.array 1] (by rw [format_nestedPair_shallow]; nofun)

end PhpLiteral
