import PhpLiteral.Text.Lines

/-!
# Indented lines

A text cut at its line breaks (`Lines`, `Lines.ofText`), and what indentation makes of its lines: `indentLines` puts
the indentation before every line that is not empty (`indentFrom_joined`).
-/

namespace PhpLiteral

/-- The lines of a text: the first one, and all others with the line break before each. -/
@[ext]
structure Lines where
  first : Text
  others : List (UInt8 × Text)
  first_unbroken : ∀ b ∈ first, Ascii.isBreak b = false
  others_unbroken : ∀ p ∈ others, Ascii.isBreak p.1 = true ∧ ∀ b ∈ p.2, Ascii.isBreak b = false

/-- A line with an indentation before it, which an empty line goes without. -/
def indentLine (lead line : Text) : Text := if line = [] then [] else lead ++ line

namespace Lines

/-- The text of the lines, with an indentation before every line behind the first one that is not empty. -/
def joined (lead : Text) (l : Lines) : Text := l.first ++ l.others.flatMap fun p => p.1 :: indentLine lead p.2

/-- The lines with a byte before them that breaks no line. -/
def consByte (b : UInt8) (hb : Ascii.isBreak b = false) (l : Lines) : Lines where
  first := b :: l.first
  others := l.others
  first_unbroken := List.forall_mem_cons.mpr ⟨hb, l.first_unbroken⟩
  others_unbroken := l.others_unbroken

/-- The lines behind a line break, with an empty line before it. -/
def consBreak (b : UInt8) (hb : Ascii.isBreak b = true) (l : Lines) : Lines where
  first := []
  others := (b, l.first) :: l.others
  first_unbroken := nofun
  others_unbroken := List.forall_mem_cons.mpr ⟨⟨hb, l.first_unbroken⟩, l.others_unbroken⟩

end Lines

@[simp] theorem indentLine_nil (line : Text) : indentLine [] line = line := by
  unfold indentLine
  split
  · rename_i h
    exact h.symm
  · rfl

/-! ## The lines of a text -/

namespace Lines

/-- The lines of a text, cut at its line breaks. -/
def ofText : Text → Lines
  | [] => ⟨[], [], nofun, nofun⟩
  | b :: rest =>
    if hb : Ascii.isBreak b = true then (ofText rest).consBreak b hb
    else (ofText rest).consByte b (Bool.eq_false_iff.mpr hb)

theorem ofText_break {b : UInt8} (hb : Ascii.isBreak b = true) (t : Text) :
    ofText (b :: t) = (ofText t).consBreak b hb :=
  dif_pos hb

theorem ofText_byte {b : UInt8} (hb : Ascii.isBreak b = false) (t : Text) :
    ofText (b :: t) = (ofText t).consByte b hb :=
  dif_neg (Bool.eq_false_iff.mp hb)

/-- A text is made up of its lines. -/
theorem joined_ofText (t : Text) : (ofText t).joined [] = t := by
  induction t with
  | nil => rfl
  | cons b rest ih =>
    cases hb : Ascii.isBreak b with
    | false =>
      rw [ofText_byte hb]
      exact congrArg (b :: ·) ih
    | true =>
      rw [ofText_break hb]
      refine Eq.trans ?_ (congrArg (b :: ·) ih)
      simp [joined, consBreak]

end Lines

/-- Every text has lines. -/
theorem exists_lines (t : Text) : ∃ l : Lines, l.joined [] = t := ⟨Lines.ofText t, Lines.joined_ofText t⟩

/-! ## Indentation -/

section

variable (lead : Text)

theorem indentFrom_false_append {t : Text} (ht : ∀ b ∈ t, Ascii.isBreak b = false) (u : Text) :
    indentFrom lead false (t ++ u) = t ++ indentFrom lead false u := by
  induction t with
  | nil => rfl
  | cons b rest ih =>
    obtain ⟨hb, hr⟩ := List.forall_mem_cons.mp ht
    rw [List.cons_append, indentFrom, hb, ih hr]
    rfl

/-- Where a line starts, its indentation is written before its first byte. -/
theorem indentFrom_line_append {t : Text} (ht : ∀ b ∈ t, Ascii.isBreak b = false) (u : Text) :
    indentFrom lead true (t ++ u) = indentLine lead t ++ indentFrom lead t.isEmpty u := by
  cases t with
  | nil => rfl
  | cons b rest =>
    obtain ⟨hb, hr⟩ := List.forall_mem_cons.mp ht
    rw [List.cons_append, indentFrom, hb, indentFrom_false_append lead hr]
    simp [indentLine]

theorem indentFrom_others (atStart : Bool) {others : List (UInt8 × Text)}
    (h : ∀ p ∈ others, Ascii.isBreak p.1 = true ∧ ∀ b ∈ p.2, Ascii.isBreak b = false) :
    indentFrom lead atStart (others.flatMap fun p => p.1 :: p.2) =
      others.flatMap fun p => p.1 :: indentLine lead p.2 := by
  induction others generalizing atStart with
  | nil => rfl
  | cons p rest ih =>
    obtain ⟨⟨hb, hl⟩, hr⟩ := List.forall_mem_cons.mp h
    rw [List.flatMap_cons, List.flatMap_cons, List.cons_append, indentFrom, hb, indentFrom_line_append lead hl,
      ih _ hr]
    simp

/-- All lines are indented that are not empty, the first one included. -/
theorem indentFrom_joined (l : Lines) :
    indentFrom lead true (l.joined []) = (if l.first = [] then [] else lead) ++ l.joined lead := by
  simp only [Lines.joined, indentLine_nil]
  rw [indentFrom_line_append lead l.first_unbroken, indentFrom_others lead _ l.others_unbroken, ← List.append_assoc]
  congr 1
  unfold indentLine
  split
  · rename_i h
    rw [h]
    rfl
  · rfl

/-- Indentation leaves the first line as it is. -/
theorem head?_joined (l : Lines) : (l.joined lead).head? = (l.joined []).head? := by
  unfold Lines.joined
  cases l.first with
  | cons b rest => rfl
  | nil => cases l.others <;> rfl

end

end PhpLiteral
