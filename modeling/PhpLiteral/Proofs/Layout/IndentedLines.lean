import PhpLiteral.Proofs.Layout.Width
import PhpLiteral.Proofs.Syntax.Brackets
import PhpLiteral.Text.Blank

/-!
# Lines indented by their brackets

A line is indented right if it has one unit for each bracket that is open before it, one less if it starts with a
closing bracket (`IsIndented`). A text that keeps to this on every line (`IsLaid`) does so when its entries are put on
lines of their own (`onLines`, `isLaid_onLines`).

* `BeginsLine`, `StartsLine`: what stands at the start of a line behind its indentation;
* `LinesIn`: the lines that begin in one part of a text.
-/

namespace PhpLiteral

open Syntax

/-! ## Starts of lines -/

/-- What stands on a line behind its indentation: something that begins with no white space. White space of Unicode
that PHP takes for a part of a name can stand there only as the start of the name of the factory. -/
structure BeginsLine (factory line : Text) : Prop where
  head : ∃ b ∈ line.head?, isSpace b = false
  blank : ∀ p ∈ blanks, p <+: line → p <+: factory

/-- The start of an entry: a printable byte other than a closing bracket, or a call of the factory. -/
inductive StartsLine (factory : Text) : Text → Prop
  | shown {b : UInt8} {rest : Text} : 0x20 < b → b < 0x7f → b ≠ Ascii.closeBracket → StartsLine factory (b :: rest)
  | call (rest : Text) : StartsLine factory (factory ++ utf8 "(" ++ rest)

section

variable {factory t : Text}

theorem StartsLine.append (h : StartsLine factory t) (u : Text) : StartsLine factory (t ++ u) := by
  cases h with
  | shown h₁ h₂ h₃ => exact .shown h₁ h₂ h₃
  | call rest =>
    rw [List.append_assoc]
    exact .call _

theorem beginsLine_cons {b : UInt8} (h₁ : 0x20 < b) (h₂ : b < 0x7f) (rest : Text) :
    BeginsLine factory (b :: rest) where
  head := by
    refine ⟨b, rfl, ?_⟩
    simp only [isSpace, Bool.or_eq_false_iff, beq_eq_false_iff_ne]
    grind
  blank := by
    intro p hp hb
    have hh : ∀ p ∈ blanks, p.head?.any (fun c => c ≤ 0x20 || 0x7f ≤ c) = true := by decide
    have hc := hh p hp
    cases p with
    | nil => cases hc
    | cons c p =>
      obtain ⟨u, hu⟩ := hb
      cases hu
      simp only [List.head?_cons, Option.any_some, Bool.or_eq_true, decide_eq_true_eq] at hc
      grind

/-- No white space reaches over a parenthesis. -/
theorem prefix_of_prefix_call {p rest : Text} (hp : p ∈ blanks) (h : p <+: factory ++ utf8 "(" ++ rest) :
    p <+: factory := by
  rw [List.append_assoc] at h
  rcases List.prefix_or_prefix_of_prefix h (List.prefix_append _ _) with h' | ⟨q, rfl⟩
  · exact h'
  · rw [List.prefix_append_right_inj] at h
    cases q with
    | nil => simp
    | cons b q =>
      have hn : ∀ p ∈ blanks, 0x28 ∉ p := by decide
      obtain ⟨u, hu⟩ := h
      cases hu
      exact absurd (by simp) (hn _ hp)

/-- No name begins with white space of PHP. -/
theorem StartsLine.beginsLine (h : StartsLine factory t) (hf : factoryProblem? factory = none) :
    BeginsLine factory t ∧ t.head? ≠ some Ascii.closeBracket := by
  cases h with
  | shown h₁ h₂ h₃ => exact ⟨beginsLine_cons h₁ h₂ _, by simpa using h₃⟩
  | call rest =>
    obtain ⟨c, method, rfl, hn, -⟩ := exists_nameText_of_factoryProblem? hf
    obtain ⟨b, w, rfl⟩ := List.exists_cons_of_ne_nil hn.ne_nil
    have hb := hn.parts b List.mem_cons_self
    refine ⟨⟨⟨b, rfl, ?_⟩, fun p hp hpre => ?_⟩, ?_⟩
    · cases hs : isSpace b with
      | false => rfl
      | true =>
        simp only [isSpace, Bool.or_eq_true, beq_iff_eq] at hs
        rcases hs with ((rfl | rfl) | rfl) | rfl <;> exact absurd hb (by decide)
    · exact prefix_of_prefix_call hp hpre
    · rintro ⟨⟩
      exact absurd hb (by decide)

end

/-! ## Indented lines -/

/-- A line with one unit of indentation for each open bracket, one less before a closing bracket, and then no white
space. -/
def IsIndented (s : Settings) (opened : Option Nat) (line : Text) : Prop :=
  ∃ units rest, opened = some (if rest.head? = some Ascii.closeBracket then units + 1 else units) ∧
    line = s.indent.levels units ++ rest ∧ BeginsLine s.factory rest

/-- All lines that begin in a text are indented, if `depth` brackets are open before it and `more` follows it. -/
def LinesIn (s : Settings) (depth : Nat) (t more : Text) : Prop :=
  ∀ earlier line, t = earlier ++ Ascii.lineFeed :: line → IsIndented s (openFrom depth 0 earlier) (line ++ more)

section

variable {s : Settings} {depth depth' : Nat} {t u more : Text}

theorem linesIn_of_not_hasLineFeed (h : hasLineFeed t = false) : LinesIn s depth t more := by
  rintro earlier line rfl
  simp at h

theorem linesIn_break {units : Nat} (hm : BeginsLine s.factory more)
    (hd : depth = if more.head? = some Ascii.closeBracket then units + 1 else units) :
    LinesIn s depth (Ascii.lineFeed :: s.indent.levels units) more := by
  intro earlier line he
  cases earlier with
  | nil =>
    obtain rfl := (List.cons.inj he).2
    exact ⟨units, more, congrArg some hd, rfl, hm⟩
  | cons b earlier =>
    have := hasLineFeed_levels s.indent units
    rw [(List.cons.inj he).2] at this
    simp at this

/-- The lines of a text and of the text behind it, where the first text takes the open brackets to others. -/
theorem LinesIn.append (ht : LinesIn s depth t (u ++ more)) (hs : Shifts depth t depth')
    (hu : LinesIn s depth' u more) : LinesIn s depth (t ++ u) more := by
  intro earlier line he
  obtain ⟨v, rfl, hv⟩ | ⟨v, rfl, hv⟩ := List.append_eq_append_iff.mp he
  · rw [hs]
    exact hu v line hv
  · cases v with
    | nil =>
      rw [List.append_nil] at hs
      rw [hs.openFrom_eq]
      exact hu [] line hv.symm
    | cons b v =>
      obtain rfl : Ascii.lineFeed = b := (List.cons.inj hv).1
      have hline : line = v ++ u := (List.cons.inj hv).2
      rw [hline, List.append_assoc]
      exact ht earlier v rfl

end

/-! ## Entries on lines of their own -/

/-- Entries on lines of their own, each with its indentation before it and a comma behind it. -/
def entryLines (i : Indent) (level : Nat) (entries : List Text) : Text :=
  entries.flatMap fun e => (Ascii.lineFeed :: i.levels level) ++ (e ++ [Ascii.comma])

/-- Entries between a head and a tail, which is on a line of its own, too. -/
def onLines (i : Indent) (level : Nat) (head tail : Text) (entries : List Text) : Text :=
  head ++ entryLines i (level + 1) entries ++ (Ascii.lineFeed :: i.levels level ++ tail)

/-- A text on one line that closes all brackets that it opens, and that can start its line. -/
structure IsOneLine (factory t : Text) : Prop where
  neutral : Neutral t
  starts : StartsLine factory t
  noLineFeed : hasLineFeed t = false

/-- A text for a level, where as many brackets are open: it closes all that it opens, it can start a line, and its
lines are indented. -/
structure IsLaid (s : Settings) (level : Nat) (t : Text) : Prop where
  neutral : Neutral t
  starts : StartsLine s.factory t
  lines : ∀ more, LinesIn s level t more

section

variable {s : Settings} {level : Nat} {t : Text}

theorem IsOneLine.isLaid (h : IsOneLine s.factory t) : IsLaid s level t :=
  ⟨h.neutral, h.starts, fun _ => linesIn_of_not_hasLineFeed h.noLineFeed⟩

/-- A value behind its label, which may be missing. -/
theorem IsLaid.labelled {label : Text} (hl : label = [] ∨ IsOneLine s.factory label) (h : IsLaid s level t) :
    IsLaid s level (label ++ t) := by
  rcases hl with rfl | hl
  · exact h
  · exact ⟨hl.neutral.append h.neutral, hl.starts.append t, fun more =>
      (linesIn_of_not_hasLineFeed hl.noLineFeed).append (hl.neutral level) (h.lines more)⟩

/-- The break before a line and its indentation. -/
theorem neutral_break (i : Indent) (level : Nat) : Neutral (Ascii.lineFeed :: i.levels level) := by
  refine Neutral.of_isInert (List.all_eq_true.mpr (List.forall_mem_cons.mpr ⟨rfl, fun b hb => ?_⟩))
  have := isSpace_of_mem_levels hb
  simp only [isSpace, Bool.or_eq_true, beq_iff_eq] at this
  rcases this with ((rfl | rfl) | rfl) | rfl <;> rfl

theorem neutral_comma : Neutral [Ascii.comma] := Neutral.of_isInert rfl

theorem neutral_entryLines {entries : List Text} (h : ∀ e ∈ entries, IsLaid s level e) :
    Neutral (entryLines s.indent level entries) := by
  induction entries with
  | nil => exact .nil
  | cons e entries ih =>
    obtain ⟨he, hr⟩ := List.forall_mem_cons.mp h
    rw [entryLines, List.flatMap_cons, ← entryLines]
    exact ((neutral_break _ _).append (he.neutral.append neutral_comma)).append (ih hr)

theorem linesIn_entryLines (hf : factoryProblem? s.factory = none) {entries : List Text}
    (h : ∀ e ∈ entries, IsLaid s level e) (more : Text) :
    LinesIn s level (entryLines s.indent level entries) more := by
  induction entries with
  | nil => exact linesIn_of_not_hasLineFeed rfl
  | cons e entries ih =>
    obtain ⟨he, hr⟩ := List.forall_mem_cons.mp h
    rw [entryLines, List.flatMap_cons, ← entryLines, List.append_assoc, List.append_assoc]
    obtain ⟨hb, hc⟩ := ((he.starts.append ([Ascii.comma] ++ entryLines s.indent level entries)).append more).beginsLine hf
    refine (linesIn_break hb (if_neg hc).symm).append (neutral_break _ _ _) ?_
    refine (he.lines _).append (he.neutral _) ?_
    exact (linesIn_of_not_hasLineFeed rfl).append (neutral_comma _) (ih hr)

/-- What stands around entries on lines of their own: the brackets, with more text before and behind them. -/
structure IsFrame (factory head tail : Text) : Prop where
  starts : StartsLine factory head
  before : ∃ w, head = w ++ [Ascii.openBracket] ∧ Neutral w ∧ hasLineFeed w = false
  behind : ∃ w, tail = Ascii.closeBracket :: w ∧ Neutral w ∧ hasLineFeed w = false

theorem isLaid_onLines (hf : factoryProblem? s.factory = none) {head tail : Text} (h : IsFrame s.factory head tail)
    {entries : List Text} (he : ∀ e ∈ entries, IsLaid s (level + 1) e) :
    IsLaid s level (onLines s.indent level head tail entries) := by
  obtain ⟨w, rfl, hw, hwl⟩ := h.before
  obtain ⟨w', rfl, hw', hwl'⟩ := h.behind
  have hb := neutral_break s.indent level
  have hopen : ∀ depth, Shifts depth (w ++ [Ascii.openBracket]) (depth + 1) := fun depth =>
    (hw depth).append (shifts_open depth)
  have hclose : ∀ depth, Shifts (depth + 1) (Ascii.closeBracket :: w') depth := fun depth =>
    (shifts_close depth).append (hw' depth)
  have hbody := neutral_entryLines he
  have hl : hasLineFeed (w ++ [Ascii.openBracket]) = false := by
    rw [hasLineFeed_append, hwl]
    rfl
  have htail : hasLineFeed (Ascii.closeBracket :: w') = false := hwl'
  rw [onLines, List.append_assoc]
  refine ⟨fun depth => ?_, h.starts.append _, fun more => ?_⟩
  · exact (hopen depth).append ((hbody _).append ((hb _).append (hclose depth)))
  · refine (linesIn_of_not_hasLineFeed hl).append (hopen level) ?_
    refine (linesIn_entryLines hf he _).append (hbody _) ?_
    refine (linesIn_break ?_ rfl).append (hb _) (linesIn_of_not_hasLineFeed htail)
    exact beginsLine_cons (by decide) (by decide) _

end

end PhpLiteral
