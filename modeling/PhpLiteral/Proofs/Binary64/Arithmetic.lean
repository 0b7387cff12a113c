import PhpLiteral.Proofs.Binary64.Shortest

/-!
# Products and quotients of doubles

An integer of 53 bits, and one that is such an integer shifted, is a double (`unitsOf_nearest`). The product and the
quotient of two integers that are doubles are rounded once, to the nearest double (`isRounded_mul`, `isRounded_div`).
-/

namespace PhpLiteral.Binary64

/-- A significand and a shift that leaves room for all its bits make a magnitude. -/
theorem exists_unitsOf_eq {s shift : Nat} (hs : s ≤ 2 * exponentBit) (h : 52 ≤ shift) :
    ∃ m, m ≤ shift * exponentBit + 2 * exponentBit ∧ unitsOf m = s * 2 ^ shift := by
  have he : exponentBit = 2 ^ 52 := rfl
  rcases Nat.eq_zero_or_pos s with rfl | hpos
  · exact ⟨0, Nat.zero_le _, by rw [Nat.zero_mul]; rfl⟩
  -- The significand is moved up so that its first bit is that of all significands.
  obtain ⟨up, hup, hlo, hhi⟩ : ∃ up, up ≤ 52 ∧ exponentBit ≤ s * 2 ^ up ∧ s * 2 ^ up ≤ 2 * exponentBit := by
    refine ⟨52 - s.log2, Nat.sub_le _ _, ?_, ?_⟩
    · calc exponentBit ≤ 2 ^ (s.log2 + (52 - s.log2)) := he ▸ Nat.pow_le_pow_right two_pos (by omega)
        _ = 2 ^ s.log2 * 2 ^ (52 - s.log2) := pow_add _ _ _
        _ ≤ s * 2 ^ (52 - s.log2) := Nat.mul_le_mul_right _ (Nat.log2_self_le hpos.ne')
    · rcases Nat.lt_or_ge s.log2 53 with hl | hl
      · calc s * 2 ^ (52 - s.log2) ≤ 2 ^ (s.log2 + 1) * 2 ^ (52 - s.log2) := Nat.mul_le_mul_right _ Nat.lt_log2_self.le
          _ = 2 ^ (s.log2 + 1 + (52 - s.log2)) := (pow_add _ _ _).symm
          _ = 2 * exponentBit := by rw [show s.log2 + 1 + (52 - s.log2) = 52 + 1 by omega, he, pow_succ, Nat.mul_comm]
      · rwa [Nat.sub_eq_zero_of_le (by omega), Nat.pow_zero, Nat.mul_one]
  refine ⟨(shift - up) * exponentBit + s * 2 ^ up, ?_, ?_⟩
  · exact Nat.add_le_add (Nat.mul_le_mul_right _ (Nat.sub_le _ _)) hhi
  · rw [unitsOf_packed hhi (.inr hlo), Nat.mul_assoc, ← pow_add, show up + (shift - up) = shift by omega]

/-- A shifted significand is a double. -/
theorem unitsOf_nearest {s shift : Nat} (hs : s ≤ 2 * exponentBit) (h : shift ≤ 900) :
    unitsOf (nearest (s * 2 ^ shift) 1) = s * 2 ^ shift * unit := by
  obtain ⟨m, hm, hu⟩ := exists_unitsOf_eq hs (show 52 ≤ shift + 1074 by omega)
  have hu : unitsOf m = s * 2 ^ shift * unit := by rw [hu, pow_add, ← Nat.mul_assoc, unit, Nat.one_shiftLeft]
  have hf : m < infinityMagnitude := by
    have hi : infinityMagnitude = 1974 * exponentBit + 73 * exponentBit := rfl
    have hl : (shift + 1074) * exponentBit ≤ 1974 * exponentBit := Nat.mul_le_mul_right _ (by omega)
    have hp := exponentBit_pos
    omega
  have hv : valueOf m = ((s * 2 ^ shift : Nat) : ℚ) / (1 : Nat) := by
    rw [valueOf, hu, Nat.cast_mul _ unit, mul_div_cancel_right₀ _ unit_pos.ne', Nat.cast_one, div_one]
  have hn : s * 2 ^ shift < 2 ^ (shift + 54) * 1 := by
    rw [Nat.mul_one, Nat.add_comm, pow_add]
    exact Nat.mul_lt_mul_of_pos_right (Nat.lt_of_le_of_lt hs (by decide)) (Nat.two_pow_pos _)
  have hr := isRounded_nearest Nat.one_pos (nearest_lt_infinityMagnitude Nat.one_pos (by omega) hn)
  rw [hr.unique (hv ▸ isRounded_valueOf hf), hu]

variable {x y a b k : Nat}

/-- The product of two integers that are doubles is rounded once. -/
theorem isRounded_mul (hx : unitsOf x = a * unit) (hy : unitsOf y = b * unit) (hk : k ≤ 1023) (h : a * b < 2 ^ k) :
    IsRounded ((a : ℚ) * b) (mul x y) := by
  have hu : 0 < unit := Nat.cast_pos.mp unit_pos
  have hd : 0 < unit * unit := Nat.mul_pos hu hu
  have hn : a * unit * (b * unit) < 2 ^ k * (unit * unit) := by
    rw [Nat.mul_mul_mul_comm]
    exact Nat.mul_lt_mul_of_pos_right h hd
  have hq : ((a * unit * (b * unit) : Nat) : ℚ) / (unit * unit : Nat) = a * b := by
    have := unit_pos
    push_cast
    field_simp
  rw [mul, hx, hy, ← hq]
  exact isRounded_nearest hd (nearest_lt_infinityMagnitude hd hk hn)

/-- The quotient of two integers that are doubles is rounded once. -/
theorem isRounded_div (hx : unitsOf x = a * unit) (hy : unitsOf y = b * unit) (hb : 0 < b) (hk : k ≤ 1023)
    (h : a < 2 ^ k * b) : IsRounded ((a : ℚ) / b) (div x y) := by
  have hu : 0 < unit := Nat.cast_pos.mp unit_pos
  have hd : 0 < b * unit := Nat.mul_pos hb hu
  have hn : a * unit < 2 ^ k * (b * unit) := by
    rw [← Nat.mul_assoc]
    exact Nat.mul_lt_mul_of_pos_right h hu
  have hq : ((a * unit : Nat) : ℚ) / (b * unit : Nat) = a / b := by
    rw [Nat.cast_mul, Nat.cast_mul, mul_div_mul_right _ _ unit_pos.ne']
  rw [div, hx, hy, ← hq]
  exact isRounded_nearest hd (nearest_lt_infinityMagnitude hd hk hn)

end PhpLiteral.Binary64
