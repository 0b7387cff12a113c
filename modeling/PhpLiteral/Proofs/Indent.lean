import PhpLiteral.Indent
import PhpLiteral.Proofs.Text.Blank
import PhpLiteral.Proofs.Text.Decimal

/-!
# Names of indentation units

A text names a unit exactly if it is `tab`, `tabs` or a decimal number from 1 to 8, white space around it aside
(`Indent.parse_spec`). The tab character, which is white space itself, names none (`Indent.parse_tabCharacter`).
-/

namespace PhpLiteral

theorem IsNumeral.isGraphic {t : Text} {n : Nat} (h : IsNumeral t n) : ∀ b ∈ t, isGraphic b = true := by
  obtain ⟨sign, digits, rfl, hs, -, hd, -⟩ := h
  refine List.forall_mem_append.mpr ⟨?_, fun b hb => ?_⟩
  · rcases hs with rfl | rfl
    · exact nofun
    · exact List.forall_mem_singleton.mpr rfl
  · have := hd b hb
    simp only [PhpLiteral.isGraphic, Bool.and_eq_true, decide_eq_true_eq]
    grind

/-- A name without white space is what trimming leaves of the text around it. -/
theorem surrounds_iff {t name : Text} (h : ∀ b ∈ name, isGraphic b = true) : Surrounds t name ↔ trim t = name :=
  ⟨fun hs => trim_eq_of_surrounds hs (isTight_of_isGraphic h), fun e => e ▸ (isTrimmed_trim t).surrounded⟩

theorem exists_surrounds_iff {t : Text} {n : Nat} :
    (∃ name, Surrounds t name ∧ IsNumeral name n) ↔ unsigned? (trim t) = some n := by
  constructor
  · rintro ⟨name, hs, hn⟩
    rw [(surrounds_iff hn.isGraphic).mp hs]
    exact unsigned?_eq_some_iff.mpr hn
  · exact fun h => ⟨_, (isTrimmed_trim t).surrounded, unsigned?_eq_some_iff.mp h⟩

namespace Indent

/-- The names of the tab. -/
def tabNames : List Text := [utf8 "tab", utf8 "tabs"]

theorem surrounds_tabNames {t : Text} :
    Surrounds t (utf8 "tab") ∨ Surrounds t (utf8 "tabs") ↔ trim t ∈ tabNames := by
  rw [surrounds_iff (by decide +kernel), surrounds_iff (by decide +kernel)]
  simp [tabNames]

theorem unsigned?_of_mem_tabNames : ∀ name ∈ tabNames, unsigned? name = none := by decide

/-- A text without the white space around it is not the tab character. -/
theorem trim_ne_tab (t : Text) : trim t ≠ [Ascii.tab] := fun e =>
  IsTrimmed.not_prefix (isTrimmed_trim t) [Ascii.tab] (by decide) (e ▸ List.prefix_rfl)

/-- What is trimmed decides how a text is read: the third spelling of the tab is never left. -/
theorem parse_eq (t : Text) :
    parse t =
      if trim t ∈ tabNames then .ok .tab
      else
        match unsigned? (trim t) with
        | some n => if n < 256 then ofCount n else .error (.unknownName t)
        | none => .error (.unknownName t) := by
  have hm : trim t = utf8 "tab" ∨ trim t = utf8 "tabs" ∨ trim t = [Ascii.tab] ↔ trim t ∈ tabNames := by
    simp [tabNames, trim_ne_tab]
  exact if_congr hm rfl rfl

theorem ofCount_eq (n : Nat) : ofCount n = if 1 ≤ n ∧ n ≤ 8 then .ok (.spaces n) else .error (.badCount n) := by
  simp [ofCount, isCount]

/-- A text is read as the tab exactly if it is `tab` or `tabs`, and as a number of spaces exactly if it is a decimal
number from 1 to 8, white space around it aside. Otherwise it is an error: about the number, if the text is another
number of one byte, and else about the whole text. -/
theorem parse_spec (t : Text) :
    (parse t = .ok .tab ↔ Surrounds t (utf8 "tab") ∨ Surrounds t (utf8 "tabs")) ∧
      (∀ n, parse t = .ok (.spaces n) ↔ (1 ≤ n ∧ n ≤ 8) ∧ ∃ name, Surrounds t name ∧ IsNumeral name n) ∧
      (∀ n, parse t = .error (.badCount n) ↔
        (n < 256 ∧ ¬ (1 ≤ n ∧ n ≤ 8)) ∧ ∃ name, Surrounds t name ∧ IsNumeral name n) ∧
      ∀ given, parse t = .error (.unknownName given) → given = t := by
  simp only [surrounds_tabNames, exists_surrounds_iff]
  rw [parse_eq]
  by_cases ht : trim t ∈ tabNames
  · have hn := unsigned?_of_mem_tabNames _ ht
    simp [ht, hn]
  cases hn : unsigned? (trim t) with
  | none => simp [ht, eq_comm]
  | some m =>
    simp only [if_neg ht, ofCount_eq, Option.some.injEq]
    by_cases hb : m < 256
    · by_cases hc : 1 ≤ m ∧ m ≤ 8
      · simp [hb, hc]
        grind
      · simp [hb, hc]
        grind
    · simp [hb]
      grind

/-- The tab character, which is listed among the names of the tab, is none. -/
theorem parse_tabCharacter :
    parse [Ascii.tab] = .error (.unknownName [Ascii.tab]) ∧
      ¬ ∀ t, parse t = .ok .tab ↔ ∃ name ∈ [utf8 "tab", utf8 "tabs", [Ascii.tab]], Surrounds t name := by
  have hp : parse [Ascii.tab] = .error (.unknownName [Ascii.tab]) := by decide
  refine ⟨hp, fun h => ?_⟩
  have := (h [Ascii.tab]).mpr ⟨[Ascii.tab], by decide, [], [], nofun, rfl⟩
  rw [hp] at this
  cases this

example : parse (utf8 "\n +08\t") = .ok (.spaces 8) := by decide

end Indent

end PhpLiteral
