import PhpLiteral.Proofs.Syntax.Name

/-!
# Brackets outside of strings

How many square brackets are open behind a text, where the brackets in quoted strings do not count (`openBrackets?`).

* `Shifts`: a text that takes one number of open brackets to another one, whatever follows it;
* `Neutral`: a text that leaves any number of open brackets as it is.
-/

namespace PhpLiteral.Syntax

/-- The brackets that are open behind a text, if `depth` of them are open behind its next `skip` bytes. There is no
such number if a string in the text is not closed or a bracket in it was never opened. -/
def openFrom (depth : Nat) : (skip : Nat) → Text → Option Nat
  | 0, [] => some depth
  | _ + 1, [] => none
  | skip + 1, _ :: rest => openFrom depth skip rest
  | 0, b :: rest =>
    if b = Ascii.quote ∨ b = Ascii.doubleQuote then
      match readString (b :: rest) with
      | .closed _ behind => openFrom depth (rest.length - behind.length) rest
      | _ => none
    else if b = Ascii.openBracket then openFrom (depth + 1) 0 rest
    else if b = Ascii.closeBracket then if depth = 0 then none else openFrom (depth - 1) 0 rest
    else openFrom depth 0 rest

/-- The brackets of a text that are opened outside of strings and not closed in it. -/
def openBrackets? (t : Text) : Option Nat := openFrom 0 0 t

example : openBrackets? (utf8 "['a]' => [\"[\", f([1])") = some 2 := by decide

/-- Behind a text, as many brackets are open as the second number says if there were as many before as the first one
says. -/
def Shifts (depth : Nat) (t : Text) (depth' : Nat) : Prop :=
  ∀ rest, openFrom depth 0 (t ++ rest) = openFrom depth' 0 rest

/-- A text leaves the open brackets as they are. -/
def Neutral (t : Text) : Prop := ∀ depth, Shifts depth t depth

/-- A byte that neither starts a string nor is a bracket. -/
def isInert (b : UInt8) : Bool :=
  b != Ascii.quote && b != Ascii.doubleQuote && b != Ascii.openBracket && b != Ascii.closeBracket

section

variable {depth depth' depth'' : Nat} {t u : Text}

theorem Shifts.openFrom_eq (h : Shifts depth t depth') : openFrom depth 0 t = some depth' := by
  have := h []
  rwa [List.append_nil] at this

theorem Shifts.append (ht : Shifts depth t depth') (hu : Shifts depth' u depth'') : Shifts depth (t ++ u) depth'' := by
  intro rest
  rw [List.append_assoc, ht, hu]

theorem shifts_open (depth : Nat) : Shifts depth [Ascii.openBracket] (depth + 1) := fun _ => rfl

theorem shifts_close (depth : Nat) : Shifts (depth + 1) [Ascii.closeBracket] depth := fun _ => rfl

end

namespace Neutral

variable {t u : Text}

theorem nil : Neutral [] := fun _ _ => rfl

theorem append (ht : Neutral t) (hu : Neutral u) : Neutral (t ++ u) := fun depth => (ht depth).append (hu depth)

theorem of_isInert (h : t.all isInert = true) : Neutral t := by
  induction t with
  | nil => exact nil
  | cons b t ih =>
    rw [List.all_cons, Bool.and_eq_true] at h
    obtain ⟨hb, ht⟩ := h
    simp only [isInert, Bool.and_eq_true, bne_iff_ne] at hb
    obtain ⟨⟨⟨hq, hd⟩, ho⟩, hc⟩ := hb
    intro depth rest
    rw [List.cons_append, openFrom, if_neg (not_or.mpr ⟨hq, hd⟩), if_neg ho, if_neg hc, ih ht]

/-- Brackets around a text are closed again. -/
theorem enclosed (h : Neutral t) : Neutral (Ascii.openBracket :: t ++ [Ascii.closeBracket]) := fun depth =>
  ((shifts_open depth).append (h (depth + 1))).append (shifts_close depth)

end Neutral

theorem openFrom_append (depth : Nat) (w rest : Text) :
    openFrom depth w.length (w ++ rest) = openFrom depth 0 rest := by
  induction w with
  | nil => rfl
  | cons b w ih => exact ih

/-- A string is skipped up to its closing quote. -/
theorem neutral_quoted {q : UInt8} {w bytes : Text} (hq : q = Ascii.quote ∨ q = Ascii.doubleQuote)
    (h : ∀ rest, readString (q :: w ++ rest) = .closed bytes rest) : Neutral (q :: w) := by
  intro depth rest
  have hr := h rest
  rw [List.cons_append] at hr ⊢
  rw [openFrom, if_pos hq, hr]
  show openFrom depth ((w ++ rest).length - rest.length) (w ++ rest) = _
  rw [List.length_append, Nat.add_sub_cancel, openFrom_append]

theorem neutral_stringLiteral (bytes : Text) : Neutral (stringLiteral bytes) := by
  have hr := readString_stringLiteral bytes
  obtain ⟨q, w, hw, hq⟩ := exists_stringLiteral_cons bytes
  rw [hw] at hr ⊢
  exact neutral_quoted hq hr

/-! ## Names -/

theorem isInert_of_isNamePart {b : UInt8} (h : isNamePart b = true) : isInert b = true := by
  have hn : ∀ c : UInt8, isNamePart c = false → b ≠ c := by
    rintro c hc rfl
    rw [h] at hc
    cases hc
  simp only [isInert, Bool.and_eq_true, bne_iff_ne]
  exact ⟨⟨⟨hn _ (by decide), hn _ (by decide)⟩, hn _ (by decide)⟩, hn _ (by decide)⟩

theorem neutral_quotedName {t : Text} (h : isName t = true) : Neutral (Ascii.quote :: (t ++ [Ascii.quote])) :=
  neutral_quoted (.inl rfl) (readString_quotedName h)

end PhpLiteral.Syntax
