import PhpLiteral.Text.Utf8

/-!
# Boundaries of characters in UTF-8

A valid text is valid on both sides of a byte that continues no character (`isValid_append_start`). An ASCII byte is a
character of its own and never part of another one, so that what stands on either side of it in a valid text is valid,
too (`isValid_append_ascii`).
-/

namespace PhpLiteral.Utf8

theorem eq_of_first_whole {b : UInt8} {n : Nat} (h : first b = .whole n) : n = b.toNat := by
  unfold first at h
  repeat' split at h
  all_goals cases h <;> rfl

/-- No byte of a character of several bytes is an ASCII byte: not the first one, nor the next one. -/
theorem le_of_first_lead {b : UInt8} {p : Pending} (h : first b = .lead p) : 0x80 ≤ b ∧ 0x80 ≤ p.low := by
  unfold first at h
  repeat' split at h
  all_goals cases h <;> grind

theorem first_ascii {b : UInt8} (h : b < 0x80) : first b = .whole b.toNat := by
  have : b ≤ 0x7f := by grind
  rw [first, if_pos this]

theorem high_of_first_lead {b : UInt8} {p : Pending} (h : first b = .lead p) : p.high ≤ 0xbf := by
  unfold first at h
  repeat' split at h
  all_goals cases h <;> grind

/-- A byte that continues no character. -/
def IsStart (b : UInt8) : Prop := b < 0x80 ∨ 0xbf < b

/-- The characters before a byte that continues none are complete. -/
theorem decodeFrom_append_start {t u : Text} {b : UInt8} (hb : IsStart b) {p : Option Pending}
    (hp : ∀ q ∈ p, 0x80 ≤ q.low ∧ q.high ≤ 0xbf) (h : (decodeFrom p (t ++ b :: u)).all Option.isSome = true) :
    (decodeFrom p t).all Option.isSome = true ∧ isValid (b :: u) = true := by
  induction t generalizing p with
  | nil =>
    cases p with
    | none => exact ⟨rfl, h⟩
    | some q =>
      have hl : ¬ (q.low ≤ b ∧ b ≤ q.high) := by
        rintro ⟨hlow, hhigh⟩
        obtain ⟨hql, hqh⟩ := hp q rfl
        rcases hb with hb | hb
        · exact absurd hb (UInt8.not_lt.mpr (UInt8.le_trans hql hlow))
        · exact absurd hb (UInt8.not_lt.mpr (UInt8.le_trans hhigh hqh))
      rw [List.nil_append, decodeFrom, if_neg hl] at h
      cases h
  | cons a t ih =>
    cases p with
    | none =>
      rw [List.cons_append, decodeFrom] at h
      rw [decodeFrom]
      cases hf : first a with
      | whole n =>
        rw [hf] at h
        exact ih (by simp) h
      | lead q =>
        rw [hf] at h
        exact ih (by simpa using ⟨(le_of_first_lead hf).2, high_of_first_lead hf⟩) h
      | stray =>
        rw [hf] at h
        cases h
    | some q =>
      rw [List.cons_append, decodeFrom] at h
      rw [decodeFrom]
      split at h
      · rename_i hr
        rw [if_pos hr]
        split at h
        · rename_i ho
          rw [if_pos ho]
          exact ih (by simp) h
        · rename_i ho
          rw [if_neg ho]
          exact ih (by simp [Pending.push]) h
      · cases h

theorem isValid_append_start {t u : Text} {b : UInt8} (hb : IsStart b) (h : isValid (t ++ b :: u) = true) :
    isValid t = true ∧ isValid (b :: u) = true :=
  decodeFrom_append_start hb (by simp) h

/-- What follows a text of complete characters is read as if it stood alone. -/
theorem decodeFrom_append {t : Text} {p : Option Pending} (h : (decodeFrom p t).all Option.isSome = true) (u : Text) :
    decodeFrom p (t ++ u) = decodeFrom p t ++ decode u := by
  induction t generalizing p with
  | nil =>
    cases p with
    | none => rfl
    | some q => cases h
  | cons a t ih =>
    cases p with
    | none =>
      rw [decodeFrom] at h
      rw [List.cons_append, decodeFrom, decodeFrom]
      cases hf : first a with
      | whole n =>
        rw [hf] at h
        exact congrArg (some n :: ·) (ih h)
      | lead q =>
        rw [hf] at h
        exact ih h
      | stray =>
        rw [hf] at h
        cases h
    | some q =>
      rw [decodeFrom] at h
      rw [List.cons_append, decodeFrom, decodeFrom]
      split at h
      · rename_i hr
        rw [if_pos hr, if_pos hr]
        split at h
        · rename_i ho
          rw [if_pos ho, if_pos ho]
          exact congrArg (some (q.push a).value :: ·) (ih h)
        · rename_i ho
          rw [if_neg ho, if_neg ho]
          exact ih h
      · cases h

theorem isValid_append {t : Text} (h : isValid t = true) (u : Text) : isValid (t ++ u) = isValid u := by
  have ht : decode (t ++ u) = decode t ++ decode u := decodeFrom_append h u
  rw [isValid, ht, List.all_append]
  show (isValid t && isValid u) = isValid u
  rw [h, Bool.true_and]

/-- A valid text is valid on both sides of ASCII bytes in it. -/
theorem isValid_append_ascii {t w u : Text} (hw : w.all (· < 0x80) = true) (hn : w ≠ [])
    (h : isValid (t ++ (w ++ u)) = true) : isValid t = true ∧ isValid u = true := by
  induction w generalizing t with
  | nil => exact absurd rfl hn
  | cons b w ih =>
    rw [List.all_cons, Bool.and_eq_true, decide_eq_true_eq] at hw
    obtain ⟨hb, hr⟩ := hw
    obtain ⟨ht, hu⟩ := isValid_append_start (.inl hb) h
    have hv : isValid [b] = true := by
      rw [isValid, decode, decodeFrom, first_ascii hb]
      rfl
    rw [← List.singleton_append, isValid_append hv] at hu
    refine ⟨ht, ?_⟩
    by_cases he : w = []
    · rwa [he] at hu
    · exact (ih hr he (t := []) hu).2

end PhpLiteral.Utf8
