import Mathlib.Data.List.TakeWhile
import PhpLiteral.Text.Lines

/-!
# Line feeds

Which texts have line feeds, and the parts of a text that belong to the line of a place in it (`lineBefore`,
`lineBehind`).
-/

namespace PhpLiteral

@[simp] theorem hasLineFeed_append (t u : Text) : hasLineFeed (t ++ u) = (hasLineFeed t || hasLineFeed u) := by
  simp [hasLineFeed, Bool.decide_or]

@[simp] theorem hasLineFeed_lineFeed_cons (t : Text) : hasLineFeed (Ascii.lineFeed :: t) = true := rfl

theorem hasLineFeed_eq_false {t : Text} : hasLineFeed t = false ↔ Ascii.lineFeed ∉ t := by
  simp [hasLineFeed]

/-- The part of a text that stands on the line of the place behind it. -/
def lineBefore (t : Text) : Text := (t.reverse.takeWhile (· != Ascii.lineFeed)).reverse

/-- The part of a text that stands on the line of the place before it. -/
def lineBehind (t : Text) : Text := t.takeWhile (· != Ascii.lineFeed)

theorem ne_lineFeed {t : Text} (h : hasLineFeed t = false) : ∀ b ∈ t, (b != Ascii.lineFeed) = true := by
  rintro b hb
  rw [bne_iff_ne]
  rintro rfl
  exact hasLineFeed_eq_false.mp h hb

theorem lineBehind_eq_self {t : Text} (h : hasLineFeed t = false) : lineBehind t = t :=
  List.takeWhile_eq_self_iff.mpr (ne_lineFeed h)

theorem lineBehind_append {t : Text} (h : hasLineFeed t = false) (u : Text) :
    lineBehind (t ++ Ascii.lineFeed :: u) = t := by
  rw [lineBehind, List.takeWhile_append_of_pos (ne_lineFeed h), List.takeWhile_cons_of_neg (by simp), List.append_nil]

theorem hasLineFeed_reverse (t : Text) : hasLineFeed t.reverse = hasLineFeed t := by
  simp [hasLineFeed]

theorem lineBefore_eq_self {t : Text} (h : hasLineFeed t = false) : lineBefore t = t := by
  have := lineBehind_eq_self (t := t.reverse) (by rwa [hasLineFeed_reverse])
  rw [lineBefore, ← lineBehind, this, List.reverse_reverse]

theorem lineBefore_append {t : Text} (h : hasLineFeed t = false) (u : Text) :
    lineBefore (u ++ Ascii.lineFeed :: t) = t := by
  have := lineBehind_append (t := t.reverse) (by rwa [hasLineFeed_reverse]) u.reverse
  rw [lineBefore, List.reverse_append, List.reverse_cons, List.append_assoc, List.singleton_append, ← lineBehind, this,
    List.reverse_reverse]

theorem lineBefore_append_of_not_hasLineFeed (t : Text) {u : Text} (h : hasLineFeed u = false) :
    lineBefore (t ++ u) = lineBefore t ++ u := by
  rw [lineBefore, List.reverse_append, List.takeWhile_append_of_pos, List.reverse_append, List.reverse_reverse,
    lineBefore]
  exact ne_lineFeed (by rwa [hasLineFeed_reverse])

theorem lineBefore_append_of_hasLineFeed (t : Text) {u : Text} (h : hasLineFeed u = true) :
    lineBefore (t ++ u) = lineBefore u := by
  have hn : (u.reverse.takeWhile (· != Ascii.lineFeed)).length ≠ u.reverse.length := by
    intro e
    have hs := (List.takeWhile_prefix _).eq_of_length e
    rw [← Bool.not_eq_false, ← hasLineFeed_reverse, hasLineFeed_eq_false] at h
    exact h fun hm => by simpa using List.takeWhile_eq_self_iff.mp hs _ hm
  rw [lineBefore, List.reverse_append, List.takeWhile_append, if_neg hn, lineBefore]

theorem lineBehind_append_of_not_hasLineFeed {t : Text} (h : hasLineFeed t = false) (u : Text) :
    lineBehind (t ++ u) = t ++ lineBehind u := by
  rw [lineBehind, List.takeWhile_append_of_pos (ne_lineFeed h), lineBehind]

end PhpLiteral
