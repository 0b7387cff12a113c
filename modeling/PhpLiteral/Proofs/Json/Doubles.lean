import PhpLiteral.Proofs.Binary64.Arithmetic
import PhpLiteral.Proofs.Json.Numbers

/-!
# Doubles of JSON texts

A number that is no integer is read as the nearest double as long as its digits make a double and the power of ten that
they are multiplied with or divided by is one, too (`Json.Numeral.exists_number?_float`). Beyond that the digits, the
power and their product or quotient are all rounded, and what this gives need not be the nearest double.
-/

namespace PhpLiteral.Json

open Binary64 (IsRounded nearest unitsOf unit unitsOf_nearest isRounded_mul isRounded_div)

namespace Numeral

/-! ## Values -/

/-- All digits of a number as an integer. -/
def significand (n : Numeral) : Nat := digitsValue 0 (n.integer ++ n.fraction.getD [])

/-- The exponent of a number as it is written. -/
def writtenExponent (n : Numeral) : Int :=
  match n.exponent with
  | none => 0
  | some (isNegative, digits) => if isNegative then -(digitsValue 0 digits : Int) else digitsValue 0 digits

/-- The power of ten that all digits are multiplied with. -/
def scale (n : Numeral) : Int := n.writtenExponent - (n.fraction.getD []).length

/-- The value of a number, its sign aside. -/
def absolute (n : Numeral) : ℚ := n.significand * 10 ^ n.scale

example : (⟨true, [1], some [5], some (true, [2])⟩ : Numeral).absolute = 15 / 1000 := by
  norm_num [absolute, significand, scale, writtenExponent, digitsValue]

theorem exponentValue_eq {n : Numeral} (h : n.writtenExponent.natAbs < 2 ^ 31) :
    n.exponentValue = n.writtenExponent := by
  rw [writtenExponent] at h
  rw [exponentValue, writtenExponent]
  cases e : n.exponent with
  | none => rfl
  | some p =>
    obtain ⟨isNegative, digits⟩ := p
    rw [e] at h
    have hv : digitsValue 0 digits < 2 ^ 31 := by
      dsimp only at h
      split at h <;> omega
    have hm : min (digits.foldl (fun e d => 10 * e + d) 0) 2147483648 = digitsValue 0 digits := Nat.min_eq_left hv.le
    simp only [hm]

/-! ## Rounding -/

/-- Powers of ten up to the twenty-second are doubles. -/
theorem unitsOf_nearest_ten {k : Nat} (h : k ≤ 22) : unitsOf (nearest (Nat.pow 10 k) 1) = 10 ^ k * unit := by
  have hf : 5 ^ k ≤ 2 * Binary64.exponentBit :=
    Nat.le_trans (Nat.pow_le_pow_right (by decide) h) (by decide)
  have ht : Nat.pow 10 k = 5 ^ k * 2 ^ k := by
    rw [← mul_pow]
    rfl
  rw [ht, unitsOf_nearest hf (by omega), ← mul_pow]
  rfl

/-- Digits that make a double, with a power of ten that is one, are rounded once. -/
theorem exists_scale?_eq {s : Nat} {e : Int} (hs : s ≤ 2 ^ 53) (he : e.natAbs ≤ 22) (tries : Nat) :
    ∃ m, scale? (nearest s 1) e (tries + 1) = some m ∧ IsRounded (s * 10 ^ e) m := by
  have hx : unitsOf (nearest s 1) = s * unit := by simpa using @unitsOf_nearest s 0 hs (Nat.zero_le _)
  have hy := unitsOf_nearest_ten he
  have hp : 10 ^ e.natAbs ≤ 10 ^ 22 := Nat.pow_le_pow_right (by decide) he
  rw [scale?]
  have hm : min e.natAbs greatestPower = e.natAbs := Nat.min_eq_left (Nat.le_trans he (by decide))
  simp only [hm, if_pos (Nat.le_trans he (by decide : 22 ≤ greatestPower))]
  split
  · rename_i h0
    have hb : s * 10 ^ e.natAbs < 2 ^ 200 :=
      Nat.lt_of_le_of_lt (Nat.mul_le_mul hs hp) (by decide)
    have hr := isRounded_mul hx hy (by decide) hb
    have hz : (10 : ℚ) ^ e = (10 ^ e.natAbs : Nat) := by
      conv_lhs => rw [← Int.natAbs_of_nonneg h0]
      rw [zpow_natCast, Nat.cast_pow]
      rfl
    rw [if_pos hr.finite, hz]
    exact ⟨_, rfl, hr⟩
  · rename_i h0
    have hb : s < 2 ^ 200 * 10 ^ e.natAbs :=
      Nat.lt_of_le_of_lt hs (Nat.lt_of_lt_of_le (by decide) (Nat.le_mul_of_pos_right _ (Nat.pow_pos (by decide))))
    have hr := isRounded_div hx hy (Nat.pow_pos (by decide)) (by decide) hb
    have hz : (10 : ℚ) ^ e = ((10 ^ e.natAbs : Nat) : ℚ)⁻¹ := by
      rw [Nat.cast_pow, ← zpow_natCast, ← zpow_neg]
      congr 1
      omega
    rw [if_pos hr.finite, hz, ← div_eq_mul_inv]
    exact ⟨_, rfl, hr⟩

/-- The magnitude of a number is that of the nearest double, if its digits and its power of ten are doubles. -/
theorem exists_magnitude?_eq {n : Numeral} (hs : n.significand ≤ 2 ^ 53) (hw : n.writtenExponent.natAbs < 2 ^ 31)
    (he : n.scale.natAbs ≤ 22) : ∃ m, n.magnitude? = some m ∧ IsRounded n.absolute m := by
  have hd : digitsValue (digitsValue 0 n.integer) (n.fraction.getD []) = n.significand := by
    rw [significand, digitsValue, digitsValue, digitsValue, List.foldl_append]
  have hlt : n.significand < UInt64.size := Nat.lt_of_le_of_lt hs (by decide)
  have hi : digitsValue 0 n.integer < UInt64.size := Nat.lt_of_le_of_lt (hd ▸ le_digitsValue _ _) hlt
  have hscale : n.exponentValue + ((0 : Nat) : Int) - ((n.fraction.getD []).length - 0 : Nat) = n.scale := by
    rw [exponentValue_eq hw, scale]
    omega
  rw [magnitude?, accumulate_of_lt hi]
  simp only
  rw [accumulate_of_lt (hd ▸ hlt), hd]
  simp only [hscale]
  exact exists_scale?_eq hs he 3

/-- A number that is no integer of 64 bits is read as the nearest double, with its sign. -/
theorem exists_number?_float {n : Numeral} (hi : ∀ v, n.value? = some v → ¬ IsWord v) (hs : n.significand ≤ 2 ^ 53)
    (hw : n.writtenExponent.natAbs < 2 ^ 31) (he : n.scale.natAbs ≤ 22) :
    ∃ m, n.number? = some (.float (.ofMagnitude n.isNegative m)) ∧ IsRounded n.absolute m := by
  obtain ⟨m, hm, hr⟩ := exists_magnitude?_eq hs hw he
  refine ⟨m, ?_, hr⟩
  rw [number?, hm]
  cases hk : n.integer? with
  | none => rfl
  | some k =>
    obtain ⟨v, hv⟩ := exists_value?_of_integer? hk
    obtain ⟨hw, hr⟩ := exists_integer?_iff.mp ⟨k, hk, hv⟩
    exact absurd hr (hi v hw)

-- The twenty-third power of ten is no double; three times the nearest one is rounded to one that is not the nearest.
example : (Numeral.parse? (utf8 "3e23")).bind magnitude? ≠ some (nearest (3 * 10 ^ 23) 1) := by decide +kernel

end Numeral

end PhpLiteral.Json
