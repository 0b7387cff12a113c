import PhpLiteral.Proofs.Syntax.Token

/-!
# What tokens spell

Tokens spell code if they are this code when trailing commas are left out (`Spells`), and a text writes code if its
tokens spell it (`Writes`). Code is put together from the code of its parts: entries with commas between them
(`Spells.append_comma`), and entries between brackets, where a comma behind the last entry does not show
(`writes_enclosed`).
-/

namespace PhpLiteral.Syntax

/-! ## Tokens -/

variable {ts us ls code code' : List Token}

/-- Tokens of an expression, or of entries without a comma behind the last one, that are `code` when trailing commas
are left out. -/
structure Spells (ts code : List Token) : Prop where
  code : withoutTrailing ts = code
  ne_nil : ts ≠ []
  head : ts.head? ≠ some closeBracket
  last : ts.getLast? ≠ some comma

theorem IsPlain.spells (h : IsPlain ts) : Spells ts ts where
  code := withoutTrailing_eq_self h.not_mem
  ne_nil := h.ne_nil
  head e := h.not_mem (List.mem_of_mem_head? e)
  last := h.last

theorem Spells.label (hl : closeBracket ∉ ls) (h : Spells ts code) : Spells (ls ++ ts) (ls ++ code) where
  code := by rw [withoutTrailing_append (.inr h.head), withoutTrailing_eq_self hl, h.code]
  ne_nil e := h.ne_nil (List.append_eq_nil_iff.mp e).2
  head := by
    cases ls with
    | nil => exact h.head
    | cons l ls => exact fun e => hl (List.mem_of_mem_head? (show (l :: ls).head? = _ from e))
  last := getLast?_append_ne h.ne_nil h.last

theorem Spells.append_comma (h : Spells ts code) (h' : Spells us code') :
    Spells (ts ++ comma :: us) (code ++ comma :: code') where
  code := by
    rw [withoutTrailing_append (.inl h.last), withoutTrailing_cons (.inr h'.head), h.code, h'.code]
  ne_nil e := h.ne_nil (List.append_eq_nil_iff.mp e).1
  head := by
    obtain ⟨t, ts, rfl⟩ := List.exists_cons_of_ne_nil h.ne_nil
    exact h.head
  last := by
    rw [← List.singleton_append, ← List.append_assoc]
    exact getLast?_append_ne h'.ne_nil h'.last

/-- Tokens between brackets: none, those of entries, or those of entries with a comma behind the last one. -/
inductive Fills : (ts code : List Token) → Prop
  | none : Fills [] []
  | entries {ts code : List Token} : Spells ts code → Fills ts code
  | trailing {ts code : List Token} : Spells ts code → Fills (ts ++ [comma]) code

/-- A comma before the closing bracket is left out. -/
theorem Fills.withoutTrailing_eq {tl : List Token} (ht : closeBracket ∉ tl) (h : Fills ts code) :
    withoutTrailing (ts ++ closeBracket :: tl) = code ++ closeBracket :: tl := by
  have hc : withoutTrailing (closeBracket :: tl) = closeBracket :: tl := by
    rw [withoutTrailing_cons (.inl (by decide)), withoutTrailing_eq_self ht]
  cases h with
  | none => exact hc
  | entries h => rw [withoutTrailing_append (.inl h.last), h.code, hc]
  | trailing h =>
    rw [List.append_assoc, withoutTrailing_append (.inl h.last), h.code, List.singleton_append, withoutTrailing,
      if_pos ⟨rfl, rfl⟩, hc]

theorem Fills.enclosed {hs tl : List Token} (hh : closeBracket ∉ hs) (ht : closeBracket ∉ tl)
    (hl : tl.getLast? ≠ some comma) (h : Fills ts code) :
    Spells (hs ++ [openBracket] ++ (ts ++ closeBracket :: tl))
      (hs ++ [openBracket] ++ (code ++ closeBracket :: tl)) := by
  have hb : closeBracket ∉ hs ++ [openBracket] := fun hm =>
    (List.mem_append.mp hm).elim hh (show closeBracket ∉ [openBracket] by decide)
  have ho : (hs ++ [openBracket]).getLast? ≠ some comma := by
    rw [List.getLast?_concat]
    decide
  refine ⟨?_, by simp, ?_, ?_⟩
  · rw [withoutTrailing_append (.inl ho), withoutTrailing_eq_self hb, h.withoutTrailing_eq ht]
  · cases hs with
    | nil => exact fun e => absurd (Option.some.inj e) (by decide)
    | cons t hs => exact fun e => hh (List.mem_of_mem_head? (show (t :: hs).head? = _ from e))
  · rw [← List.append_assoc]
    refine getLast?_append_ne (List.cons_ne_nil _ _) ?_
    cases tl with
    | nil => decide
    | cons t tl => rwa [List.getLast?_cons_cons]

/-! ## Texts -/

/-- A text gives tokens that are `code`, trailing commas aside. -/
def Writes (text : Text) (code : List Token) : Prop := ∃ ts, Tokenizes Stops text ts ∧ Spells ts code

theorem stops_of_isSpace {w u : Text} (hw : ∀ b ∈ w, isSpace b = true) (hu : Stops u) : Stops (w ++ u) := by
  cases w with
  | nil => exact hu
  | cons b w =>
    have : ∀ b, isSpace b = true → isNamePart b = false ∧ b ≠ Ascii.dot := by
      intro b hb
      simp only [isSpace, Bool.or_eq_true, beq_iff_eq] at hb
      rcases hb with ((rfl | rfl) | rfl) | rfl <;> decide
    exact stops_cons.mpr (this b (hw b List.mem_cons_self))

/-- Entries between brackets, with white space at both ends, behind a piece that leads to them. -/
theorem writes_enclosed {lead w entries w' rest : Text} {hs ts code tl : List Token}
    (hl : Tokenizes Always lead hs) (hh : closeBracket ∉ hs) (hw : ∀ b ∈ w, isSpace b = true)
    (he : Tokenizes Stops entries ts) (hf : Fills ts code) (hw' : ∀ b ∈ w', isSpace b = true)
    (hr : Tokenizes Stops rest tl) (ht : closeBracket ∉ tl) (htl : tl.getLast? ≠ some comma) :
    Writes (lead ++ [Ascii.openBracket] ++ w ++ entries ++ w' ++ Ascii.closeBracket :: rest)
      (hs ++ [openBracket] ++ (code ++ closeBracket :: tl)) := by
  refine ⟨_, ?_, hf.enclosed hh ht htl⟩
  have hc : Tokenizes Stops (w' ++ Ascii.closeBracket :: rest) (closeBracket :: tl) :=
    (tokenizes_of_isSpace hw').cons (tokenizes_close.cons hr)
  have hs : Stops (w' ++ Ascii.closeBracket :: rest) := stops_of_isSpace hw' (stops_cons.mpr (by decide))
  have := ((hl.cons tokenizes_open).cons (tokenizes_of_isSpace hw)).cons (he.append_stops hc hs (by simp))
  simpa using this

end PhpLiteral.Syntax
