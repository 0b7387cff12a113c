import PhpLiteral.DateTime
import PhpLiteral.Proofs.Syntax.Lexeme

/-!
# Constructed dates

PHP code that constructs a date from the text of a clock and a zone (`readDate?`). The code of a date value is read as
its class, its clock and its zone (`readDate?_code`).
-/

namespace PhpLiteral.Syntax

/-- The construction of a date: the name of its class, the text of its clock and the name of its zone. -/
structure DateCall where
  className : Text
  clock : Text
  zone : Text
  deriving DecidableEq, Repr

/-- Reads a text as the construction of a date from the text of a clock and a zone that is constructed by its name. -/
def readDate? (t : Text) : Option DateCall :=
  match lex t with
  | some [.name new, .name className, .sign [0x28], .string clock, .comma, .name zoneNew, .name zoneClass, .sign [0x28],
      .string zone, .sign [0x29], .sign [0x29]] =>
    if new = utf8 "new" ∧ zoneNew = utf8 "new" ∧ zoneClass = utf8 "\\DateTimeZone" then some ⟨className, clock, zone⟩
    else none
  | _ => none

/-- A word in front of a piece that ends words. -/
theorem delimits_word {w u : Text} {ls : List Lexeme} (hw : ∀ b ∈ w, isNamePart b = true)
    (hd : w.head?.any Ascii.isDigit = false) (hn : w ≠ []) (hu : Delimits u ls) (hs : Stops u) (hne : u ≠ []) :
    Delimits (w ++ u) (.name w :: ls) := (lexes_name hw hd hn).append_delimits hu hs hne

theorem delimits_new : Delimits (utf8 "new ") [.name (utf8 "new")] :=
  delimits_word (w := utf8 "new") (u := [Ascii.space]) (List.all_iff_forall_prop.mp (by decide)) rfl (by decide)
    (delimits_of_isSpace (List.all_iff_forall_prop.mp (by decide))) (stops_cons.mpr (by decide)) (by decide)

/-- A class before an opening parenthesis. -/
theorem delimits_call {w : Text} (hw : ∀ b ∈ w, isNamePart b = true) (hd : w.head?.any Ascii.isDigit = false)
    (hn : w ≠ []) : Delimits (w ++ utf8 "(") [.name w, .sign [0x28]] :=
  delimits_word hw hd hn (u := utf8 "(") (fun _ => rfl) (stops_cons.mpr (by decide)) (by decide)

theorem readDate?_code (d : DateTime) : readDate? d.code = some ⟨utf8 "\\" ++ d.className, d.clock.text, d.zone⟩ := by
  have hc : Delimits (utf8 "\\" ++ d.className ++ utf8 "(") [.name (utf8 "\\" ++ d.className), .sign [0x28]] := by
    rw [DateTime.className]
    split <;> exact delimits_call (List.all_iff_forall_prop.mp (by decide)) rfl (by decide)
  have hs : Delimits (utf8 ", ") [.comma] := fun _ => rfl
  have hz : Delimits (utf8 "\\DateTimeZone" ++ utf8 "(") _ :=
    delimits_call (List.all_iff_forall_prop.mp (by decide)) rfl (by decide)
  have hp : Delimits (utf8 ")") [.sign [0x29]] := fun _ => rfl
  have h := ((delimits_new.append hc).append (delimits_stringLiteral d.clock.text)).append
    ((hs.append (delimits_new.append hz)).append ((delimits_stringLiteral d.zone).append (hp.append hp))) []
  have e₁ : utf8 "new \\" = utf8 "new " ++ utf8 "\\" := rfl
  have e₂ : utf8 ", new \\DateTimeZone(" = utf8 ", " ++ (utf8 "new " ++ (utf8 "\\DateTimeZone" ++ utf8 "(")) := rfl
  have e₃ : utf8 "))" = utf8 ")" ++ utf8 ")" := rfl
  have e : d.code = (utf8 "new " ++ (utf8 "\\" ++ d.className ++ utf8 "(") ++ stringLiteral d.clock.text) ++
      (utf8 ", " ++ (utf8 "new " ++ (utf8 "\\DateTimeZone" ++ utf8 "(")) ++
        (stringLiteral d.zone ++ (utf8 ")" ++ utf8 ")"))) ++ [] := by
    simp only [DateTime.code, e₁, e₂, e₃, List.append_assoc, List.append_nil]
  rw [readDate?, e, h]
  rfl

end PhpLiteral.Syntax
