import Mathlib.Data.List.Basic
import PhpLiteral.Proofs.Text.Indented

/-!
# Lines indented again, and back

An indentation without line breaks acts on the lines of a text one by one (`Lines.ofText_indentFrom`). The line breaks
and the empty lines stay as they are, two indentations add up to one, and each can be taken off again
(`indentLines_spec`).
-/

namespace PhpLiteral

/-! ## Lines and their text -/

namespace Lines

theorem ofText_unbroken_append {t : Text} (ht : ∀ b ∈ t, Ascii.isBreak b = false) (u : Text) :
    (ofText (t ++ u)).first = t ++ (ofText u).first ∧ (ofText (t ++ u)).others = (ofText u).others := by
  induction t with
  | nil => exact ⟨rfl, rfl⟩
  | cons b rest ih =>
    obtain ⟨hb, hr⟩ := List.forall_mem_cons.mp ht
    rw [List.cons_append, ofText_byte hb]
    exact ⟨congrArg (b :: ·) (ih hr).1, (ih hr).2⟩

theorem ofText_others {others : List (UInt8 × Text)}
    (h : ∀ p ∈ others, Ascii.isBreak p.1 = true ∧ ∀ b ∈ p.2, Ascii.isBreak b = false) :
    (ofText (others.flatMap fun p => p.1 :: p.2)).first = [] ∧
      (ofText (others.flatMap fun p => p.1 :: p.2)).others = others := by
  induction others with
  | nil => exact ⟨rfl, rfl⟩
  | cons p rest ih =>
    obtain ⟨⟨hb, hl⟩, hr⟩ := List.forall_mem_cons.mp h
    -- The line of `p` ends where the line break of the next one stands.
    obtain ⟨hf, ho⟩ := ofText_unbroken_append hl (rest.flatMap fun p => p.1 :: p.2)
    rw [(ih hr).1, List.append_nil] at hf
    rw [(ih hr).2] at ho
    rw [List.flatMap_cons, List.cons_append, ofText_break hb]
    exact ⟨rfl, congrArg₂ (fun line lines => (p.1, line) :: lines) hf ho⟩

/-- Lines are those of the text that they make up. -/
theorem ofText_joined (l : Lines) : ofText (l.joined []) = l := by
  obtain ⟨hf, ho⟩ := ofText_unbroken_append l.first_unbroken (l.others.flatMap fun p => p.1 :: p.2)
  obtain ⟨hn, hs⟩ := ofText_others l.others_unbroken
  simp only [joined, indentLine_nil]
  exact Lines.ext (by rw [hf, hn, List.append_nil]) (by rw [ho, hs])

theorem ofText_injective : Function.Injective ofText := Function.LeftInverse.injective joined_ofText

end Lines

/-! ## Indentation put before lines -/

theorem unbroken_indentLine {lead line : Text} (hlead : ∀ b ∈ lead, Ascii.isBreak b = false)
    (hline : ∀ b ∈ line, Ascii.isBreak b = false) : ∀ b ∈ indentLine lead line, Ascii.isBreak b = false := by
  unfold indentLine
  split
  · exact List.forall_mem_nil _
  · exact List.forall_mem_append.mpr ⟨hlead, hline⟩

theorem indentLine_indentLine (outer lead line : Text) :
    indentLine outer (indentLine lead line) = indentLine (outer ++ lead) line := by
  cases line with
  | nil => rfl
  | cons b rest => simp [indentLine]

namespace Lines

/-- The lines with an indentation before each that is not empty. -/
def indent (lead : Text) (h : ∀ b ∈ lead, Ascii.isBreak b = false) (l : Lines) : Lines where
  first := indentLine lead l.first
  others := l.others.map fun p => (p.1, indentLine lead p.2)
  first_unbroken := unbroken_indentLine h l.first_unbroken
  others_unbroken := List.forall_mem_map.mpr fun p hp =>
    ⟨(l.others_unbroken p hp).1, unbroken_indentLine h (l.others_unbroken p hp).2⟩

variable {lead outer : Text} (h : ∀ b ∈ lead, Ascii.isBreak b = false) (ho : ∀ b ∈ outer, Ascii.isBreak b = false)

theorem joined_indent (l : Lines) : (l.indent lead h).joined [] = indentFrom lead true (l.joined []) := by
  simp only [joined, indent, indentLine_nil, List.flatMap_map]
  rw [indentFrom_line_append lead l.first_unbroken, indentFrom_others lead _ l.others_unbroken]

/-- The lines of an indented text are the lines of the text, indented. -/
theorem ofText_indentFrom (t : Text) : ofText (indentFrom lead true t) = (ofText t).indent lead h := by
  rw [← ofText_joined ((ofText t).indent lead h), joined_indent, joined_ofText]

theorem indent_indent (l : Lines) :
    (l.indent lead h).indent outer ho = l.indent (outer ++ lead) (List.forall_mem_append.mpr ⟨ho, h⟩) := by
  refine Lines.ext (indentLine_indentLine outer lead l.first) ?_
  simp [indent, indentLine_indentLine]

end Lines

/-- Two indentations are one, with the text of the second one in front. -/
theorem indentFrom_indentFrom {lead outer : Text} (h : ∀ b ∈ lead, Ascii.isBreak b = false)
    (ho : ∀ b ∈ outer, Ascii.isBreak b = false) (t : Text) :
    indentFrom outer true (indentFrom lead true t) = indentFrom (outer ++ lead) true t := by
  apply Lines.ofText_injective
  rw [Lines.ofText_indentFrom ho, Lines.ofText_indentFrom h, Lines.indent_indent h ho, ← Lines.ofText_indentFrom]

/-! ## Indentation taken off lines -/

/-- A line without the indentation before it, if it has one; an empty line goes without. -/
def outdentLine? (lead line : Text) : Option Text := if line = [] then some [] else line.dropPrefix? lead

/-- The text of the lines without the indentation before each that is not empty, if all of these have one. -/
def Lines.outdented? (lead : Text) (l : Lines) : Option Text := do
  let first ← outdentLine? lead l.first
  let others ← l.others.mapM fun p => (outdentLine? lead p.2).map (p.1 :: ·)
  return first ++ others.flatten

/-- The text without the `levels` copies of `unit` before every line that is not empty, if all of these lines start
with them. -/
def outdentLines? (t : Text) (levels : Nat) (unit : Text) : Option Text :=
  (Lines.ofText t).outdented? (List.replicate levels unit).flatten

theorem outdentLine?_indentLine (lead line : Text) : outdentLine? lead (indentLine lead line) = some line := by
  cases line with
  | nil => rfl
  | cons b rest => simp [outdentLine?, indentLine, List.dropPrefix?_append_of_beq]

theorem Lines.outdented?_indent {lead : Text} (h : ∀ b ∈ lead, Ascii.isBreak b = false) (l : Lines) :
    (l.indent lead h).outdented? lead = some (l.joined []) := by
  have hm : (l.others.map fun p => (p.1, indentLine lead p.2)).mapM
      (fun p => (outdentLine? lead p.2).map (p.1 :: ·)) = some (l.others.map fun p => p.1 :: p.2) := by
    rw [List.mapM_map]
    simp only [Function.comp_def, outdentLine?_indentLine, Option.map_some]
    exact List.mapM_pure
  simp only [outdented?, indent, hm, outdentLine?_indentLine]
  simp [joined, List.flatMap_def]

/-! ## Levels of a unit -/

theorem unbroken_levels {unit : Text} (h : ∀ b ∈ unit, Ascii.isBreak b = false) (levels : Nat) :
    ∀ b ∈ (List.replicate levels unit).flatten, Ascii.isBreak b = false := by
  intro b hb
  obtain ⟨u, hu, hb⟩ := List.mem_flatten.mp hb
  exact h b (List.eq_of_mem_replicate hu ▸ hb)

/-- The levels of two indentations by a unit without line breaks add up, and every indentation can be taken off again.
The lines of an indented text are those of the text with the levels before each that is not empty, behind the same
line breaks. -/
theorem indentLines_spec {unit : Text} (h : ∀ b ∈ unit, Ascii.isBreak b = false) (t : Text) (m n : Nat) :
    indentLines (indentLines t m unit) n unit = indentLines t (m + n) unit ∧
      outdentLines? (indentLines t n unit) n unit = some t ∧
      (Lines.ofText (indentLines t n unit)).first =
        indentLine (List.replicate n unit).flatten (Lines.ofText t).first ∧
      (Lines.ofText (indentLines t n unit)).others =
        (Lines.ofText t).others.map fun p => (p.1, indentLine (List.replicate n unit).flatten p.2) := by
  have hn := unbroken_levels h n
  have hl : Lines.ofText (indentLines t n unit) = (Lines.ofText t).indent _ hn := Lines.ofText_indentFrom hn t
  refine ⟨?_, ?_, congrArg Lines.first hl, congrArg Lines.others hl⟩
  · unfold indentLines
    rw [indentFrom_indentFrom (unbroken_levels h m) hn, ← List.flatten_append, List.replicate_append_replicate,
      Nat.add_comm n m]
  · rw [outdentLines?, hl, Lines.outdented?_indent hn, Lines.joined_ofText]

/-- A text with empty lines at both ends and inside, and with a line that starts with a tab already. -/
def mixedBreaks : Text := utf8 "\r\n\ta\n\nb c\r"

theorem indentLines_mixedBreaks :
    indentLines mixedBreaks 2 (utf8 "\t") = utf8 "\r\n\t\t\ta\n\n\t\tb c\r" := by decide

/-- The tab of the line that starts with one is not taken off with the two tabs put before it. -/
theorem indentLines_spec_mixedBreaks :
    (∀ b ∈ utf8 "\t", Ascii.isBreak b = false) ∧
      indentLines (indentLines mixedBreaks 1 (utf8 "\t")) 2 (utf8 "\t") = utf8 "\r\n\t\t\t\ta\n\n\t\t\tb c\r" ∧
      outdentLines? (utf8 "\r\n\t\t\ta\n\n\t\tb c\r") 2 (utf8 "\t") = some mixedBreaks ∧
      (Lines.ofText (utf8 "\r\n\t\t\ta\n\n\t\tb c\r")).first = [] ∧
      (Lines.ofText (utf8 "\r\n\t\t\ta\n\n\t\tb c\r")).others =
        [(Ascii.carriageReturn, []), (Ascii.lineFeed, utf8 "\t\t\ta"), (Ascii.lineFeed, []),
          (Ascii.lineFeed, utf8 "\t\tb c"), (Ascii.carriageReturn, [])] := by
  have h : ∀ b ∈ utf8 "\t", Ascii.isBreak b = false := by decide +kernel
  obtain ⟨hadd, hoff, hfirst, hothers⟩ := indentLines_spec h mixedBreaks 1 2
  rw [indentLines_mixedBreaks] at hoff hfirst hothers
  exact ⟨h, hadd.trans (by decide), hoff, hfirst.trans (by decide), hothers.trans (by decide)⟩

end PhpLiteral
