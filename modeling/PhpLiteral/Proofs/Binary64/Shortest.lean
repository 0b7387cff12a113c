import Mathlib.Algebra.Order.Field.Power
import PhpLiteral.Proofs.Binary64.Nearest
import PhpLiteral.Proofs.FloatForm

/-!
# The value of the shortest decimal

The shortest decimal of a finite double is rounded to the double again (`isRounded_shortest`): it was chosen because it
reads back as the double, or it is the exact value.
-/

namespace PhpLiteral

/-! ## Values of decimals -/

/-- The value of a decimal in scientific form. -/
def Decimal.value (d : Decimal) : ℚ := (digits? d.digits).getD 0 * 10 ^ (d.exponent + 1 - d.digits.length)

/-- Leaving out zeros at the end does not change the value. -/
theorem Decimal.value_ofScaled {n : Nat} (scale : Int) (hn : n ≠ 0) : (ofScaled n scale).value = n * 10 ^ scale := by
  obtain ⟨k, hk⟩ : ∃ k, decimal n = (ofScaled n scale).digits ++ List.replicate k Ascii.zero := eq_append_zeros _
  have ht := digits_ofScaled_ne_nil scale hn
  obtain ⟨v, hv⟩ := exists_digits? ht fun _ => mem_digits_ofScaled
  have hnv : v * 10 ^ k = n := by
    have := digits?_append_zeros hv k
    rw [← hk, digits?_decimal] at this
    exact (Option.some.inj this).symm
  have he : (ofScaled n scale).exponent + 1 - (ofScaled n scale).digits.length = k + scale := by
    have hl : ((decimal n).length : Int) = (ofScaled n scale).digits.length + k := by
      rw [hk, List.length_append, List.length_replicate, Int.natCast_add]
    show scale + (decimal n).length - 1 + 1 - _ = _
    omega
  rw [value, hv, he, zpow_add₀ (by norm_num), zpow_natCast, Option.getD_some, ← hnv]
  push_cast
  ring

namespace Binary64

theorem units_pos {m : Nat} (hm : m ≠ 0) : 0 < unitsOf m := Nat.pos_of_ne_zero (unitsOf_ne_zero hm)

/-- The value of a double is rounded to it. -/
theorem isRounded_valueOf {m : Nat} (h : m < infinityMagnitude) : IsRounded (valueOf m) m where
  finite := h
  compare {k} _ hk := by
    left
    rw [sub_self, abs_zero, abs_pos, sub_ne_zero]
    rcases Nat.lt_or_gt_of_ne hk with h | h
    · exact (valueOf_lt_iff.mpr h).ne'
    · exact (valueOf_lt_iff.mpr h).ne

/-- A power of five as many decimal places below one is as many halves. -/
theorem value_ofScaled_five {n : Nat} (hn : n ≠ 0) (k : Nat) :
    (Decimal.ofScaled (n * Nat.pow 5 k) (-(k : Int))).value = n / (1 <<< k : Nat) := by
  have hp : Nat.pow 5 k ≠ 0 := Nat.ne_of_gt (Nat.pow_pos (by decide))
  have hc : ((Nat.pow 5 k : Nat) : ℚ) = 5 ^ k := Nat.cast_pow 5 k
  rw [Decimal.value_ofScaled _ (Nat.mul_ne_zero hn hp), Nat.cast_mul, hc, Nat.shiftLeft_eq, Nat.one_mul, Nat.cast_pow,
    Nat.cast_two, zpow_neg, zpow_natCast, show (10 : ℚ) = 5 * 2 by norm_num, mul_pow]
  field_simp

theorem value_exactDecimal {m : Nat} (hm : m ≠ 0) : (exactDecimal m).value = valueOf m := by
  unfold exactDecimal valueOf unit
  rw [show (-1074 : Int) = -((1074 : Nat) : Int) from rfl]
  generalize (1074 : Nat) = k
  exact value_ofScaled_five (unitsOf_ne_zero hm) k

/-- Seventeen digits are never more than a double has before the last of the decimal places. -/
theorem count_le_length {x : Binary64} (hx : x.magnitude ≠ 0) {count : Nat} (hc : count ≤ 17) :
    count ≤ (decimal (x.units * Nat.pow 10 places / unit)).length := by
  have hlo : 10 ^ 16 ≤ Nat.pow 10 places / unit := by decide +kernel
  have hu : Nat.pow 10 places / unit ≤ x.units * Nat.pow 10 places / unit :=
    Nat.div_le_div_right (Nat.le_mul_of_pos_left _ (units_pos hx))
  by_contra h
  have hlen : (decimal (x.units * Nat.pow 10 places / unit)).length ≤ 16 := by omega
  rw [decimal, List.length_map, Nat.length_toDigits_le_iff (by decide) (by decide)] at hlen
  omega

/-- A decimal that reads back as a double is rounded to it. -/
theorem isRounded_of_readsBack {m n up : Nat} (hm : m < infinityMagnitude) (h : readsBack m n up = true) :
    IsRounded ((n : ℚ) * 10 ^ ((up : ℤ) - places)) m := by
  have h : nearest (n * Nat.pow 10 up) (Nat.pow 10 places) = m := eq_of_beq h
  have hv : (n : ℚ) * 10 ^ ((up : ℤ) - places) = (n * Nat.pow 10 up : Nat) / (Nat.pow 10 places : Nat) := by
    have hp : ∀ k : Nat, ((Nat.pow 10 k : Nat) : ℚ) = 10 ^ k := fun k => Nat.cast_pow 10 k
    rw [Nat.cast_mul, hp, hp, zpow_sub₀ (by norm_num), zpow_natCast, zpow_natCast, mul_div_assoc]
  rw [hv, ← h]
  exact isRounded_nearest (pow_ten_pos places) (h ▸ hm)

/-- The shortest decimal of a finite double other than zero is rounded to the double. -/
theorem isRounded_shortest {x : Binary64} (h : x.magnitude < infinityMagnitude) (hx : x.magnitude ≠ 0) :
    IsRounded x.shortest.value x.magnitude := by
  rw [shortest]
  cases hs : (List.range' 1 17).findSome? (ofDigits? x.magnitude (x.units * Nat.pow 10 places / unit)
      (decimal (x.units * Nat.pow 10 places / unit)).length) with
  | none =>
    rw [Option.getD_none, value_exactDecimal hx]
    exact isRounded_valueOf h
  | some d =>
    obtain ⟨count, hc, hd⟩ := List.exists_of_findSome?_eq_some hs
    have hc : count ≤ 17 := by
      have := List.mem_range'_1.mp hc
      omega
    have hl := count_le_length hx hc
    obtain ⟨n, hn, rfl⟩ := Option.map_eq_some_iff.mp hd
    have hr := readsBack_of_onGrid? hn
    have hn0 : n ≠ 0 := by
      rintro rfl
      rw [readsBack_zero hx] at hr
      cases hr
    rw [Option.getD_some, Decimal.value_ofScaled _ hn0, ← Int.ofNat_sub hl]
    exact isRounded_of_readsBack h hr

end Binary64

end PhpLiteral
