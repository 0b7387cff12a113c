import PhpLiteral.Proofs.Bounded
import PhpLiteral.Proofs.Holds
import PhpLiteral.Proofs.Render

/-!
# Rendering ends

Whatever a heap links together, rendering ends: it never goes into more containers inside one another than there are
(`rendering_ends`). A value that holds a cycle is never written, because a value that can be written holds only
finitely deep what it holds (`acc_of_expand`).
-/

namespace PhpLiteral

open Relation (ReflTransGen TransGen)

variable {heap : Heap} {maxDepth : Nat}

/-! ## Values that can be written have no cycles -/

theorem expandSlots_cons_eq_ok {depth : Nat} {chain : List Ref} {placeholder : Placeholder} {after : Text}
    {slots : List (Placeholder × Text)} {v : Value} {rest : List Value} {filled : List (Slot × Text)} :
    expandSlots heap maxDepth depth chain ((placeholder, after) :: slots) (v :: rest) = .ok filled →
      (∃ slot, expandSlot heap maxDepth depth chain placeholder v = .ok slot) ∧
        ∃ more, expandSlots heap maxDepth depth chain slots rest = .ok more := by
  intro h
  rw [expandSlots] at h
  cases hv : expandSlot heap maxDepth depth chain placeholder v with
  | error e => rw [hv] at h; cases h
  | ok slot =>
    cases hr : expandSlots heap maxDepth depth chain slots rest with
    | error e => rw [hv, hr] at h; cases h
    | ok more => exact ⟨⟨slot, rfl⟩, more, rfl⟩

theorem exists_expand_of_mem_expandAll {depth : Nat} {chain : List Ref} {vs : List Value} {ts : List Tree}
    (h : expandAll heap maxDepth depth chain vs = .ok ts) {w : Value} (hw : w ∈ vs) :
    ∃ t, w.expand heap maxDepth depth chain = .ok t := by
  induction vs generalizing ts with
  | nil => cases hw
  | cons v rest ih =>
    obtain ⟨t, us, ht, hu, -⟩ := expandAll_cons_eq_ok.mp h
    rcases List.mem_cons.mp hw with rfl | hw
    · exact ⟨t, ht⟩
    · exact ih hu hw

/-- What can fill a place can be expanded there, also the array of a list of arguments. -/
theorem exists_expand_of_expandSlot {depth : Nat} {chain : List Ref} {placeholder : Placeholder} {v : Value}
    {slot : Slot} (h : expandSlot heap maxDepth depth chain placeholder v = .ok slot) :
    ∃ t, v.expand heap maxDepth depth chain = .ok t := by
  unfold expandSlot at h
  split at h
  · obtain ⟨t, ht, -⟩ := map_eq_ok.mp h
    exact ⟨t, ht⟩
  · split at h
    · rename_i hn
      rw [eq_of_memberName? hn, Value.expand]
      exact ⟨_, rfl⟩
    · obtain ⟨t, ht, -⟩ := map_eq_ok.mp h
      exact ⟨t, ht⟩
  · split at h
    · rename_i hc
      obtain ⟨ts, hts, -⟩ := map_eq_ok.mp h
      rw [Value.expand, if_pos hc, hts]
      split <;> exact ⟨_, rfl⟩
    · cases h
  · cases h

theorem exists_expand_of_mem_expandSlots {depth : Nat} {chain : List Ref} {slots : List (Placeholder × Text)}
    {args : List Value} {filled : List (Slot × Text)}
    (h : expandSlots heap maxDepth depth chain slots args = .ok filled) {w : Value} (hw : w ∈ args) :
    ∃ t, w.expand heap maxDepth depth chain = .ok t := by
  induction args generalizing slots filled with
  | nil => cases hw
  | cons v rest ih =>
    cases slots with
    | nil => simp [expandSlots] at h
    | cons place slots =>
      obtain ⟨⟨slot, hs⟩, more, hm⟩ := expandSlots_cons_eq_ok h
      rcases List.mem_cons.mp hw with rfl | hw
      · exact exists_expand_of_expandSlot hs
      · exact ih hm hw

/-- What a value holds that can be expanded can be expanded one level deeper, inside more containers or as a smaller
value. And the value is not too deep to hold it, unless it is raw code. -/
theorem exists_expand_of_holds {depth : Nat} {chain : List Ref} {v w : Value} {t : Tree}
    (h : v.expand heap maxDepth depth chain = .ok t) (hw : heap.Holds v w) :
    (∃ chain' u, w.expand heap maxDepth (depth + 1) chain' = .ok u ∧
      Prod.Lex (· < ·) (· < ·) (heap.remaining chain', sizeOf w) (heap.remaining chain, sizeOf v)) ∧
      (v.kind ≠ .literal → depth ≤ maxDepth) := by
  cases hw with
  | @entry id _ hm =>
    obtain ⟨he, -⟩ | ⟨⟨hd, hc⟩, ts, hts, -⟩ := expand_array_cases h
    · rw [he] at hm
      cases hm
    · obtain ⟨u, hu⟩ := exists_expand_of_mem_expandAll hts hm
      exact ⟨⟨_, u, hu, .left _ _ (Heap.remaining_cons_lt (mem_refs_of_mem_values hm) hc)⟩, fun _ => hd⟩
  | @property id _ hm =>
    obtain ⟨⟨hd, hc⟩, ts, hts, -⟩ := exists_of_expand_object h
    obtain ⟨u, hu⟩ := exists_expand_of_mem_expandAll hts hm
    exact ⟨⟨_, u, hu, .left _ _ (Heap.remaining_cons_lt (mem_refs_of_mem_keptValues hm) hc)⟩, fun _ => hd⟩
  | @argument text args _ hm =>
    obtain ⟨rfl, -⟩ | ⟨slots, hs, -⟩ := expand_literal_cases h
    · cases hm
    · obtain ⟨u, hu⟩ := exists_expand_of_mem_expandSlots hs hm
      exact ⟨⟨chain, u, hu, .right _ (sizeOf_lt_literal hm)⟩, fun hk => absurd rfl hk⟩

/-- What a value holds that can be expanded is well-founded. -/
theorem acc_of_expand {depth : Nat} {chain : List Ref} {v : Value} {t : Tree}
    (h : v.expand heap maxDepth depth chain = .ok t) : Acc (fun w u => heap.Holds u w) v := by
  refine ⟨_, fun w hw => ?_⟩
  obtain ⟨⟨chain', u, hu, hlt⟩, -⟩ := exists_expand_of_holds h hw
  exact acc_of_expand hu
termination_by (heap.remaining chain, sizeOf v)
decreasing_by exact hlt

theorem acc_of_expandSlots {depth : Nat} {chain : List Ref} {slots : List (Placeholder × Text)} {args : List Value}
    {filled : List (Slot × Text)} (h : expandSlots heap maxDepth depth chain slots args = .ok filled) :
    ∀ v ∈ args, Acc (fun w u => heap.Holds u w) v := by
  intro v hv
  obtain ⟨t, ht⟩ := exists_expand_of_mem_expandSlots h hv
  exact acc_of_expand ht

/-! ## Rendering ends -/

/-- Rendering a value and filling a template end: with one place for each container of the heap, the renderer that
gives up has the same results. A value or a template is refused if a container is found inside itself, unless a sum
leaves 64 bits before. -/
theorem rendering_ends (s : Settings) (heap : Heap) :
    (∀ (v : Value) (column : Nat),
      dumpWithin s heap (heap.arrays.length + heap.objects.length) v column = returned (dump s heap v column) ∧
        ∀ c, ReflTransGen heap.Holds v c → TransGen heap.Holds c c →
          ∃ e, dump s heap v column = .error (if InRange s heap v column then .error e else .overflow)) ∧
    ∀ (template : Text) (args : List Value),
      formatWithin s heap (heap.arrays.length + heap.objects.length) template args =
          returned (format s heap template args) ∧
        ∀ v ∈ args, ∀ c, ReflTransGen heap.Holds v c → TransGen heap.Holds c c →
          ∃ e, format s heap template args = .error e := by
  refine ⟨fun v column => ⟨dumpWithin_eq (Nat.le_refl _) v column, fun c hc hcc => ?_⟩,
    fun template args => ⟨formatWithin_eq (Nat.le_refl _) template args, fun v hv c hc hcc => ?_⟩⟩
  · cases ht : v.expand heap s.maxDepth 0 [] with
    | error e => exact ⟨e, dump_of_expand_error ht column⟩
    | ok t => exact absurd hcc (not_transGen_self (acc_of_expand ht) hc)
  · cases h : format s heap template args with
    | error e => exact ⟨e, rfl⟩
    | ok text =>
      rw [format_eq] at h
      obtain ⟨filled, hf, -⟩ := map_eq_ok.mp h
      exact absurd hcc (not_transGen_self (acc_of_expandSlots hf v hv) hc)

/-- An array that holds an object, which holds a call with the array as the list of its arguments. -/
def circular : Heap where
  arrays := [.ofList [.object 0]]
  objects := [(ObjectStore.ofClass stdClass).set (utf8 "a") .everywhere (.literal (utf8 "f(...?)") [.array 0])]

theorem inRange_circular : InRange {} circular (.array 0) 0 := by
  have hv : (circular.array 0).values = [.object 0] := rfl
  have hk : (circular.object 0).keptValues = [.literal (utf8 "f(...?)") [.array 0]] := rfl
  have ha : (circular.object 0).isAnonymous = false := rfl
  have hl : entryLabels (circular.array 0).keys = [[]] := by decide
  have hp : (circular.object 0).keptNames = [utf8 "a"] := by decide
  have ht : Template.parse (utf8 "f(...?)") = ⟨utf8 "f(", [(.spread, utf8 ")")]⟩ := by decide
  simp [InRange, Value.sums, Value.renderWith, renderInlineWith, renderLinesWith, renderSlotsWith, renderSlotWith, hv,
    hk, ha, hl, hp, ht, Machine.measuring, bind]
  decide

theorem dump_circular : ∃ e, dump {} circular (.array 0) 0 = .error (.error e) := by
  have h₁ : circular.Holds (.array 0) (.object 0) := .entry (List.mem_singleton_self _)
  have h₂ : circular.Holds (.object 0) (.literal (utf8 "f(...?)") [.array 0]) :=
    .property (List.mem_singleton_self _)
  have h₃ : circular.Holds (.literal (utf8 "f(...?)") [.array 0]) (.array 0) :=
    .argument (List.mem_singleton_self _)
  obtain ⟨e, he⟩ :=
    ((rendering_ends {} circular).1 (.array 0) 0).2 (.array 0) .refl (.head h₁ (.head h₂ (.single h₃)))
  exact ⟨e, by rw [he, if_pos inRange_circular]⟩

end PhpLiteral
