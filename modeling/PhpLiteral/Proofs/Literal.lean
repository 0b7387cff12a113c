import PhpLiteral.Proofs.Limits
import PhpLiteral.Proofs.Text.Blank
import PhpLiteral.Proofs.Text.Indented

/-!
# Literals in their places

A literal is written in any place as it is written on its own, without the white space around it and with its lines
behind the first one indented to the level of the place (`exists_lines_of_render_literal`).
-/

namespace PhpLiteral

/-! ## On its own -/

section

variable {s : Settings} {heap : Heap} {chain : List Ref} {f : Frame} {code text : Text} {args : List Value}

/-- What is written in a place is the text that the literal has on its own, put in its place. -/
theorem exists_renderLiteral (h : (Value.literal code args).render s heap chain f = .ok text) :
    ∃ whole, renderLiteral s heap code args = .ok whole ∧ text = placeCode s f.level whole := by
  have hx : (Value.literal code args).renderWith .exact s heap chain f = .ok text := exact_of_render h
  rw [Value.renderWith] at hx
  unfold renderLiteral
  split at hx
  · rename_i he
    cases hx
    exact ⟨code, if_pos he, rfl⟩
  · rename_i he
    obtain ⟨filled, hf, hx⟩ := bind_eq_ok.mp hx
    cases hx
    -- No container encloses the literal on its own, and its arguments are less deep there.
    have hl : Looser s.maxDepth ⟨f.depth + 1, chain⟩ s.maxDepth {} := ⟨by simp, List.nil_subset _⟩
    have hs : renderSlotsWith .exact s heap [] 0 _ _ args = .ok filled :=
      (hl.renderSlotsWith heap _ _ args (by rw [hf]; nofun)).trans hf
    exact ⟨_, by rw [if_neg he, format, hs]; rfl, rfl⟩

end

/-! ## In its place -/

theorem not_mem_unit_of_trimmed {t body : Text} (h : IsTrimmed t body) (i : Indent) {b : UInt8} {rest : Text}
    (hb : body = b :: rest) : b ∉ i.unit := by
  intro hm
  have : [b] ∈ blanks := by
    cases i with
    | spaces count => rw [List.eq_of_mem_replicate hm]; decide
    | tab => rw [List.mem_singleton.mp hm]; decide
  exact h.not_prefix _ this (by rw [hb]; exact ⟨rest, rfl⟩)

/-- Putting code in its place takes the indentation from its first line again, and no more than that. -/
theorem placeCode_eq_joined (s : Settings) (level : Nat) {code : Text} {l : Lines} (hl : l.joined [] = trim code) :
    placeCode s level code = l.joined (s.indent.levels level) := by
  have hlead : ∀ b ∈ (if l.first = [] then [] else s.indent.levels level), s.indent.unit.contains b = true := by
    intro b hb
    split at hb
    · cases hb
    · exact List.contains_iff_mem.mpr (mem_unit_of_mem_levels hb)
  rw [placeCode, indentLines, ← hl, indentFrom_joined, ← Indent.levels, List.dropWhile_append_of_pos hlead]
  cases hj : l.joined (s.indent.levels level) with
  | nil => rfl
  | cons b rest =>
    have hh := head?_joined (s.indent.levels level) l
    rw [hj, hl] at hh
    obtain ⟨u, hu⟩ := List.head?_eq_some_iff.mp hh.symm
    rw [List.dropWhile_cons_of_neg]
    simpa using not_mem_unit_of_trimmed (isTrimmed_trim code) s.indent hu

/-- A literal stands in any place as it is written on its own, trimmed, and with the level's indentation before all
lines behind the first one that are not empty. -/
theorem exists_lines_of_render_literal {s : Settings} {heap : Heap} {chain : List Ref} {f : Frame} {code text : Text}
    {args : List Value} (h : (Value.literal code args).render s heap chain f = .ok text) :
    ∃ whole, renderLiteral s heap code args = .ok whole ∧ IsTrimmed whole (trim whole) ∧
      ∃ l : Lines, l.joined [] = trim whole ∧ l.joined (s.indent.levels f.level) = text := by
  obtain ⟨whole, hw, rfl⟩ := exists_renderLiteral h
  obtain ⟨l, hl⟩ := exists_lines (trim whole)
  exact ⟨whole, hw, isTrimmed_trim whole, l, hl, (placeCode_eq_joined s f.level hl).symm⟩

/-- A call over several lines, with white space around it. -/
def callOnLines : Text := utf8 "\nf(\n\n?,\r\n)\n"

theorem parse_callOnLines :
    Template.parse callOnLines = ⟨utf8 "\nf(\n\n", [(.value, utf8 ",\r\n)\n")]⟩ := by decide

theorem expandSlot_nestedPair_inner (depth : Nat) (chain : List Ref) (h : depth ≤ 50 ∧ .array 0 ∉ chain) :
    expandSlot nestedPair 50 depth chain .value (.array 0) =
      .ok (.value (.array (nestedPair.array 0).keys [.atom (.int 1), .atom (.bool true)])) := by
  have hv := values_nestedPair.1
  simp [expandSlot, Value.expand, expandAll, hv, h, Except.map, bind, Except.bind, pure, Except.pure]

theorem render_callOnLines : (Value.literal callOnLines [.array 0]).render {} nestedPair [.array 1] ⟨2, 1, 5⟩ =
    .ok (utf8 "f(\n\n\t\t[1, true],\r\n\t\t)") := by
  have hs := expandSlots_singleton (expandSlot_nestedPair_inner 2 [.array 1] (by decide))
    (utf8 ",\r\n)\n")
  have he : (Value.literal callOnLines [.array 0]).expand nestedPair 50 1 [.array 1] = .ok (.template (utf8 "\nf(\n\n")
      [(.value (.array (nestedPair.array 0).keys [.atom (.int 1), .atom (.bool true)]), utf8 ",\r\n)\n")]) := by
    rw [Value.expand, parse_callOnLines, hs]
    rfl
  rw [render_of_expand he, if_pos (by decide)]
  refine congrArg Except.ok ?_
  decide

theorem renderLiteral_callOnLines : renderLiteral {} nestedPair callOnLines [.array 0] =
    .ok (utf8 "\nf(\n\n[1, true],\r\n)\n") := by
  rw [renderLiteral, format_singleton parse_callOnLines (expandSlot_nestedPair_inner 0 [] (by decide))]
  refine congrArg Except.ok ?_
  decide

/-- The empty line stays as it is, and the two others behind the first one are indented twice. -/
theorem exists_lines_of_render_literal_callOnLines :
    (Value.literal callOnLines [.array 0]).render {} nestedPair [.array 1] ⟨2, 1, 5⟩ =
        .ok (utf8 "f(\n\n\t\t[1, true],\r\n\t\t)") ∧
      IsTrimmed (utf8 "\nf(\n\n[1, true],\r\n)\n") (utf8 "f(\n\n[1, true],\r\n)") ∧
      ∃ l : Lines, l.joined [] = utf8 "f(\n\n[1, true],\r\n)" ∧
        l.joined (utf8 "\t\t") = utf8 "f(\n\n\t\t[1, true],\r\n\t\t)" := by
  obtain ⟨whole, hw, ht, hl⟩ := exists_lines_of_render_literal render_callOnLines
  rw [renderLiteral_callOnLines] at hw
  obtain rfl := Except.ok.inj hw
  have : trim (utf8 "\nf(\n\n[1, true],\r\n)\n") = utf8 "f(\n\n[1, true],\r\n)" := by decide
  rw [this] at ht hl
  exact ⟨render_callOnLines, ht, hl⟩

end PhpLiteral
