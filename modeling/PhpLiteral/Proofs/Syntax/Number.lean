import PhpLiteral.Proofs.FloatForm
import PhpLiteral.Proofs.Syntax.Name

/-!
# Number literals as tokens

The literal of an integer or a double is a number with a sign before it, or a constant (`isTerm_intLiteral`,
`isTerm_floatLiteral`).
-/

namespace PhpLiteral

namespace Syntax

open Ascii (isDigit)

/-! ## Numbers with a point -/

theorem exponentOf_append {sign : UInt8} {d rest : Text} (hs : sign = Ascii.plus ∨ sign = Ascii.minus)
    (hd : ∀ b ∈ d, isDigit b = true) (hn : d ≠ []) (hr : Stops rest) :
    exponentOf (0x45 :: sign :: d ++ rest) = 0x45 :: sign :: d := by
  have ht := takeWhile_append_of_stops hd (not_isDigit_of_stops hr)
  simp [exponentOf, hs, ht, hn]

theorem numberOf_fraction {a f rest : Text} (ha : ∀ b ∈ a, isDigit b = true) (hf : ∀ b ∈ f, isDigit b = true)
    (hr : ∀ b ∈ rest.head?, isDigit b = false) :
    numberOf (a ++ Ascii.dot :: f ++ rest) = a ++ Ascii.dot :: f ++ exponentOf rest := by
  have hw : (a ++ Ascii.dot :: f ++ rest).takeWhile isDigit = a := by
    rw [List.append_assoc, List.cons_append]
    exact takeWhile_append_of_stops ha (by simp; rfl)
  have hd : fractionOf (Ascii.dot :: f ++ rest) = Ascii.dot :: f := by
    rw [fractionOf, List.cons_append, List.head?_cons, if_pos rfl, List.tail_cons,
      takeWhile_append_of_stops hf hr]
  have hda : (a ++ Ascii.dot :: f ++ rest).drop a.length = Ascii.dot :: f ++ rest := by
    rw [List.append_assoc, List.drop_left]
  have hdf : (a ++ Ascii.dot :: f ++ rest).drop (a.length + (Ascii.dot :: f).length) = rest := by
    rw [← List.length_append, List.drop_left]
  rw [numberOf, hw, hda, hd, hdf, List.append_assoc]

theorem head?_digits_append {a : Text} (ha : ∀ b ∈ a, isDigit b = true) (hn : a ≠ []) (t : Text) :
    (a ++ t).head?.any isDigit = true := by
  obtain ⟨b, a, rfl⟩ := List.exists_cons_of_ne_nil hn
  exact ha b List.mem_cons_self

theorem head?_unsigned {f : FloatForm} (hf : f.IsWellFormed) : f.unsigned.head?.any isDigit = true :=
  head?_digits_append hf.whole.2 hf.whole.1 _

/-- A number with a point is one token, its sign aside. -/
theorem tokenizes_unsigned {f : FloatForm} (hf : f.IsWellFormed) : Tokenizes Stops f.unsigned [f.unsigned] := by
  refine tokenizes_number (head?_unsigned hf) fun rest hr => ?_
  have he : exponentOf (FloatForm.exponentText f.exponent ++ rest) = FloatForm.exponentText f.exponent ∧
      ∀ b ∈ (FloatForm.exponentText f.exponent ++ rest).head?, isDigit b = false := by
    cases hx : f.exponent with
    | none => exact ⟨exponentOf_of_stops hr, not_isDigit_of_stops hr⟩
    | some e =>
      obtain ⟨isNegative, digits⟩ := e
      obtain ⟨-, hn, hd⟩ := hf.exponent _ _ hx
      refine ⟨exponentOf_append ?_ hd hn hr, ?_⟩
      · cases isNegative <;> simp
      · rintro b ⟨⟩
        rfl
  have h := numberOf_fraction hf.whole.2 hf.fraction.2 he.2
  rw [he.1] at h
  simpa [FloatForm.unsigned] using h

/-! ## Literals -/

/-- A word that begins with a digit is no sign. -/
theorem isTerm_of_digit {w : Text} (hw : Tokenizes Stops w [w]) (h : w.head?.any isDigit = true) : IsTerm w := by
  refine ⟨_, hw, ?_⟩
  apply isPlain_singleton <;> rintro rfl <;> exact absurd h (by decide)

theorem IsTerm.minus_of_digit {w : Text} (hw : IsTerm w) (h : w.head?.any isDigit = true) :
    IsTerm (Ascii.minus :: w) := by
  refine hw.minus fun e => ?_
  rw [e] at h
  exact absurd h (by decide)

theorem isTerm_text {f : FloatForm} (hf : f.IsWellFormed) : IsTerm f.text := by
  have ht := isTerm_of_digit (tokenizes_unsigned hf) (head?_unsigned hf)
  rw [FloatForm.text, FloatForm.signText]
  split
  · exact ht.minus_of_digit (head?_unsigned hf)
  · exact ht

theorem isTerm_floatLiteral (x : Binary64) : IsTerm (floatLiteral x) := by
  rcases x.floatLiteral_cases with h | h
  · generalize floatLiteral x = w at h
    have hi : IsTerm (utf8 "INF") := isTerm_name (by decide)
    simp only [List.mem_cons, List.not_mem_nil, or_false] at h
    rcases h with rfl | rfl | rfl
    · exact isTerm_name (by decide)
    · exact hi
    · exact hi.minus (by decide)
  · rw [h]
    exact isTerm_text x.isWellFormed_form

theorem head?_decimal_any (n : Nat) : (decimal n).head?.any isDigit = true := by
  have := head?_digits_append (fun _ => isDigit_of_mem_decimal) (decimal_ne_nil n) []
  rwa [List.append_nil] at this

theorem isTerm_decimal (n : Nat) : IsTerm (decimal n) :=
  isTerm_of_digit (tokenizes_number (head?_decimal_any n) fun _ => numberOf_append fun _ => isDigit_of_mem_decimal)
    (head?_decimal_any n)

theorem isTerm_decimalInt (i : Int) : IsTerm (decimalInt i) := by
  unfold decimalInt
  split
  · exact (isTerm_decimal _).minus_of_digit (head?_decimal_any _)
  · exact isTerm_decimal _

theorem isTerm_intLiteral (i : Int64) : IsTerm (intLiteral i) := by
  unfold intLiteral
  split
  · -- The least integer is a difference.
    obtain ⟨ts, ht, hp⟩ := isTerm_decimalInt (i.toInt + 1)
    obtain ⟨us, hu, hq⟩ := (isTerm_decimal 1).minus_of_digit rfl
    exact ⟨ts ++ us, ht.append_stops hu (stops_cons.mpr (by decide)) (List.cons_ne_nil _ _), .append hp.not_mem hq⟩
  · exact isTerm_decimalInt _

end Syntax

end PhpLiteral
