import PhpLiteral.Dump
import PhpLiteral.Proofs.Template

/-!
# Texts as templates

Every text can be written as a template: with a backslash before each of its question marks it has no place for an
argument, and it is filled without arguments as the text itself (`format_escaped`). No other placeholder can take the
question marks, because it would need a byte other than a backslash right before one (`start?_escaped`).
-/

namespace PhpLiteral

/-- The template that writes a text: the text with a backslash before every question mark. -/
def escaped (t : Text) : Text :=
  t.flatMap fun b => if b = Ascii.question then utf8 "\\?" else [b]

example : escaped (utf8 "a ? $b->?...?:") = utf8 "a \\? $b->\\?...\\?:" := by decide

theorem escaped_question (t : Text) : escaped (Ascii.question :: t) = Mark.escaped.spelling ++ escaped t := rfl

theorem escaped_cons {b : UInt8} (hb : b ≠ Ascii.question) (t : Text) : escaped (b :: t) = b :: escaped t := by
  rw [escaped, List.flatMap_cons, if_neg hb]
  rfl

/-- Right before each question mark of an escaped text stands a backslash. -/
theorem getLast?_of_escaped {t before behind : Text} (h : escaped t = before ++ Ascii.question :: behind) :
    before.getLast? = some Ascii.backslash := by
  induction t generalizing before with
  | nil => cases before <;> cases h
  | cons b t ih =>
    by_cases hb : b = Ascii.question
    · subst hb
      rw [escaped_question] at h
      match before, h with
      | [], h => cases h
      | [c], h => cases h; rfl
      | c :: d :: before, h =>
        obtain ⟨-, h⟩ := List.cons.inj h
        obtain ⟨-, h⟩ := List.cons.inj h
        rw [List.getLast?_cons_cons, List.getLast?_cons, ih h]
        rfl
    · rw [escaped_cons hb] at h
      cases before with
      | nil => exact absurd (List.cons.inj h).1 hb
      | cons c before =>
        rw [List.getLast?_cons, ih (List.cons.inj h).2]
        rfl

/-- The lead of a mark ends with a backslash only if it is a backslash. -/
theorem Mark.lead_of_getLast? {m : Mark} (h : m.lead.getLast? = some Ascii.backslash) :
    m.lead = [Ascii.backslash] :=
  (by decide : ∀ m ∈ all, m.lead.getLast? = some Ascii.backslash → m.lead = [Ascii.backslash]) m m.mem_all h

/-- No mark of an escaped text starts with a byte of the text. -/
theorem start?_escaped {b : UInt8} (hb : b ≠ Ascii.question) (t : Text) : Mark.start? (b :: escaped t) = none := by
  cases h : Mark.start? (b :: escaped t) with
  | none => rfl
  | some m =>
    obtain ⟨rest, hr⟩ := Mark.exists_append_of_start? h
    rw [Mark.spelling_eq, List.append_assoc] at hr
    cases hm : m.lead with
    | nil =>
      rw [hm] at hr
      exact absurd (List.cons.inj hr).1 hb
    | cons c lead =>
      rw [hm] at hr
      -- The question mark of the mark would be one of the escaped text, behind a backslash that the mark has as well.
      have hl := getLast?_of_escaped (List.cons.inj hr).2
      have hc := Mark.lead_of_getLast? (m := m) (by rw [hm, List.getLast?_cons, hl]; rfl)
      rw [hm] at hc
      obtain rfl := (List.cons.inj hc).2
      cases hl

theorem parse_escaped (t : Text) : Template.parse (escaped t) = ⟨t, []⟩ := by
  induction t with
  | nil => rfl
  | cons b t ih =>
    rw [Template.parse] at ih ⊢
    by_cases hb : b = Ascii.question
    · subst hb
      rw [escaped_question, Token.scan_mark rfl, Template.ofTokens, ih]
    · rw [escaped_cons hb, Token.scan_byte (start?_escaped hb t), ofTokens_consByte, ih]

/-- A text with a backslash before each of its question marks is a template that writes the text, without arguments
and whatever else the text has around its question marks. -/
theorem format_escaped (s : Settings) (heap : Heap) (t : Text) : format s heap (escaped t) [] = .ok t := by
  rw [format, parse_escaped, renderSlotsWith]
  exact congrArg Except.ok (List.append_nil t)

end PhpLiteral
