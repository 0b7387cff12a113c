import Mathlib.Algebra.Order.Field.Basic
import Mathlib.Data.Rat.Defs
import Mathlib.Algebra.Order.Ring.Rat
import Mathlib.Algebra.Order.Group.Abs
import Mathlib.Data.Nat.Cast.Order.Field
import Mathlib.Tactic.FieldSimp
import Mathlib.Tactic.Linarith
import Mathlib.Tactic.Positivity
import Mathlib.Tactic.Ring
import PhpLiteral.Binary64

/-!
# Rounding to a double

`Binary64.nearest` rounds a fraction to the nearest double, a tie going to the even one (`isRounded_nearest`). Doubles
are compared with each other and with a fraction as multiples of the least positive double; the infinity stands for
`2 ^ 1024` in that.
-/

namespace PhpLiteral.Binary64

/-! ## Magnitudes in order -/

theorem exponentBit_pos : 0 < exponentBit := by decide

/-- A significand of up to two exponent bits, and a shift of it. -/
theorem unitsOf_packed {shift s : Nat} (hs : s ≤ 2 * exponentBit) (h : shift = 0 ∨ exponentBit ≤ s) :
    unitsOf (shift * exponentBit + s) = s * 2 ^ shift := by
  have he := exponentBit_pos
  rw [unitsOf]
  rcases Nat.lt_or_ge s exponentBit with hl | hl
  · obtain rfl : shift = 0 := h.resolve_right (Nat.not_le.mpr hl)
    rw [Nat.zero_mul, Nat.zero_add, if_pos hl, Nat.pow_zero, Nat.mul_one]
  · obtain ⟨b, rfl⟩ := Nat.exists_eq_add_of_le hl
    rw [if_neg (by omega), show shift * exponentBit + (exponentBit + b) = b + (shift + 1) * exponentBit by
      rw [Nat.succ_mul]; omega]
    rw [Nat.add_mul_mod_self_right, Nat.add_mul_div_right _ _ he, Nat.shiftLeft_eq]
    rcases Nat.eq_or_lt_of_le hs with hb | hb
    · obtain rfl : b = exponentBit := by omega
      rw [Nat.mod_self, Nat.div_self he, show 1 + (shift + 1) - 1 = shift + 1 by omega, Nat.pow_succ]
      ring
    · rw [Nat.mod_eq_of_lt (by omega), Nat.div_eq_of_lt (by omega), Nat.zero_add, Nat.add_sub_cancel]

/-- A magnitude is packed from a shift and a significand, which has its first bit unless nothing is shifted. -/
theorem exists_packed (m : Nat) :
    ∃ shift s, m = shift * exponentBit + s ∧ s < 2 * exponentBit ∧ (shift = 0 ∨ exponentBit ≤ s) := by
  have he := exponentBit_pos
  rcases Nat.lt_or_ge m exponentBit with hm | hm
  · exact ⟨0, m, by omega, by omega, .inl rfl⟩
  · obtain ⟨q, hq⟩ : ∃ q, m / exponentBit = q + 1 := Nat.exists_eq_add_of_le' (Nat.div_pos hm he)
    have hd := Nat.div_add_mod' m exponentBit
    have hr := Nat.mod_lt m he
    rw [hq, Nat.succ_mul] at hd
    exact ⟨q, exponentBit + m % exponentBit, by omega, by omega, .inr (by omega)⟩

theorem unitsOf_lt_succ (m : Nat) : unitsOf m < unitsOf (m + 1) := by
  obtain ⟨shift, s, rfl, hs, h⟩ := exists_packed m
  rw [unitsOf_packed hs.le h, Nat.add_assoc, unitsOf_packed hs (h.imp_right (Nat.le_succ_of_le))]
  exact Nat.mul_lt_mul_of_pos_right (Nat.lt_succ_self s) (Nat.two_pow_pos shift)

theorem strictMono_unitsOf : StrictMono unitsOf := strictMono_nat_of_lt_succ unitsOf_lt_succ

/-! ## Rounding to whole numbers -/

/-- A whole number that is nearest to a fraction, the even one of two. -/
structure IsNearestNat (q : ℚ) (s : Nat) : Prop where
  le_half : |q - s| ≤ 1 / 2
  even : |q - s| = 1 / 2 → s % 2 = 0

theorem isNearestNat_roundDiv (num : Nat) {den : Nat} (hd : 0 < den) :
    IsNearestNat (num / den) (roundDiv num den) := by
  have hr := Nat.mod_lt num hd
  have hd' : (0 : ℚ) < den := Nat.cast_pos.mpr hd
  have hq : (num : ℚ) / den = (num / den : Nat) + (num % den : Nat) / (den : ℚ) := by
    rw [eq_comm, add_div' _ _ _ hd'.ne', div_left_inj' hd'.ne']
    exact_mod_cast Nat.div_add_mod' num den
  rw [hq, roundDiv]
  generalize num / den = q at *
  generalize num % den = r at *
  split
  · rename_i h
    have ha : |(q : ℚ) + r / den - q| = r / den := by rw [add_sub_cancel_left, abs_of_nonneg (by positivity)]
    constructor
    · rw [ha, div_le_div_iff₀ hd' two_pos]
      exact_mod_cast (by omega : r * 2 ≤ 1 * den)
    · intro e
      rw [ha, div_eq_div_iff hd'.ne' two_ne_zero] at e
      have e : r * 2 = 1 * den := by exact_mod_cast e
      omega
  · rename_i h
    have hle : (r : ℚ) / den ≤ 1 := (div_le_one hd').mpr (Nat.cast_le.mpr hr.le)
    have ha : |(q : ℚ) + r / den - (q + 1 : Nat)| = 1 - r / den := by
      rw [abs_of_nonpos (by push_cast; linarith)]
      push_cast
      ring
    have hhalf : (1 : ℚ) / 2 ≤ r / den := by
      rw [div_le_div_iff₀ two_pos hd']
      exact_mod_cast (by omega : 1 * den ≤ r * 2)
    constructor
    · rw [ha]
      linarith
    · intro e
      have e : (r : ℚ) / den = 1 / 2 := by linarith
      rw [div_eq_div_iff hd'.ne' two_ne_zero] at e
      have e : r * 2 = 1 * den := by exact_mod_cast e
      omega

variable {q : ℚ} {s : Nat}

/-- Rounding does not pass a whole number. -/
theorem IsNearestNat.le_bound (h : IsNearestNat q s) {n : Nat} (hq : q < n) : s ≤ n := by
  have hle := abs_le.mp h.le_half
  have : (s : ℚ) < (n + 1 : Nat) := by push_cast; linarith
  exact Nat.lt_succ_iff.mp (Nat.cast_lt.mp this)

theorem IsNearestNat.bound_le (h : IsNearestNat q s) {n : Nat} (hq : n ≤ q) : n ≤ s := by
  have hle := abs_le.mp h.le_half
  have : (n : ℚ) < (s + 1 : Nat) := by push_cast; linarith
  exact Nat.lt_succ_iff.mp (Nat.cast_lt.mp this)

/-- No other whole number is nearer. -/
theorem IsNearestNat.half_le (h : IsNearestNat q s) {j : Nat} (hj : j ≠ s) : 1 / 2 ≤ |q - j| := by
  have hd : (1 : ℚ) ≤ |(j : ℚ) - s| := by
    have : (1 : ℤ) ≤ |(j : ℤ) - s| := Int.one_le_abs (by omega)
    exact_mod_cast this
  have ht := abs_sub_le (j : ℚ) q s
  have := h.le_half
  rw [abs_sub_comm (j : ℚ) q] at ht
  linarith

theorem IsNearestNat.compare (h : IsNearestNat q s) {j : Nat} (hj : j ≠ s) :
    |q - s| < |q - j| ∨ |q - s| = |q - j| ∧ s % 2 = 0 := by
  have h₁ := h.le_half
  have h₂ := h.half_le hj
  rcases lt_or_eq_of_le (h₁.trans h₂) with hlt | heq
  · exact .inl hlt
  · exact .inr ⟨heq, h.even (le_antisymm h₁ (heq ▸ h₂))⟩

theorem IsNearestNat.abs_le (h : IsNearestNat q s) (j : Nat) : |q - s| ≤ |q - j| := by
  by_cases hj : j = s
  · rw [hj]
  · exact (h.compare hj).elim le_of_lt fun h => h.1.le

/-! ## Rounding to doubles -/

/-- Where the first bit of a shifted significand stands, doubles are multiples of the shift from there on. -/
theorem unitsOf_cases (shift k : Nat) :
    (∃ j, unitsOf k = j * 2 ^ shift) ∨ unitsOf k < exponentBit * 2 ^ shift := by
  obtain ⟨a, s, rfl, hs, h⟩ := exists_packed k
  rw [unitsOf_packed hs.le h]
  rcases Nat.lt_or_ge a shift with ha | ha
  · right
    calc s * 2 ^ a < 2 * exponentBit * 2 ^ a := Nat.mul_lt_mul_of_pos_right hs (Nat.two_pow_pos a)
      _ = exponentBit * 2 ^ (a + 1) := by rw [Nat.pow_succ]; ring
      _ ≤ exponentBit * 2 ^ shift := Nat.mul_le_mul_left _ (Nat.pow_le_pow_right two_pos ha)
  · left
    obtain ⟨b, rfl⟩ := Nat.exists_eq_add_of_le ha
    exact ⟨s * 2 ^ b, by rw [Nat.pow_add]; ring⟩

/-- A number of units rounded to a significand is rounded to its double: other doubles with this shift are other
significands, and those below them are farther away than the least one. -/
theorem compare_packed {w : ℚ} {shift s : Nat} (hw : IsNearestNat w s) (hs : s ≤ 2 * exponentBit)
    (h : shift = 0 ∨ exponentBit ≤ s ∧ exponentBit ≤ w) {k : Nat} (hk : k ≠ shift * exponentBit + s) :
    |w * 2 ^ shift - unitsOf (shift * exponentBit + s)| < |w * 2 ^ shift - unitsOf k| ∨
      |w * 2 ^ shift - unitsOf (shift * exponentBit + s)| = |w * 2 ^ shift - unitsOf k| ∧
        (shift * exponentBit + s) % 2 = 0 := by
  have hu := unitsOf_packed hs (h.imp_right And.left)
  have hp : (0 : ℚ) < 2 ^ shift := by positivity
  have habs : ∀ u : ℚ, |w * 2 ^ shift - u * 2 ^ shift| = |w - u| * 2 ^ shift := fun u => by
    rw [← sub_mul, abs_mul, abs_of_pos hp]
  have heven : s % 2 = 0 → (shift * exponentBit + s) % 2 = 0 := fun he => by
    have : exponentBit % 2 = 0 := rfl
    rw [Nat.add_mod, Nat.mul_mod, this, he, Nat.mul_zero]
  have hm : (unitsOf (shift * exponentBit + s) : ℚ) = s * 2 ^ shift := by exact_mod_cast hu
  have hc : (∃ j, unitsOf k = j * 2 ^ shift) ∨
      unitsOf k < exponentBit * 2 ^ shift ∧ (exponentBit : ℚ) ≤ w := by
    rcases h with rfl | ⟨-, hw'⟩
    · exact .inl ⟨unitsOf k, by simp⟩
    · exact (unitsOf_cases shift k).imp_right fun h => ⟨h, hw'⟩
  rcases hc with ⟨j, hj⟩ | ⟨hlt, hw'⟩
  · have hjs : j ≠ s := by
      rintro rfl
      exact hk (strictMono_unitsOf.injective (hj.trans hu.symm))
    have hj : (unitsOf k : ℚ) = j * 2 ^ shift := by exact_mod_cast hj
    rw [hm, hj, habs, habs]
    exact (hw.compare hjs).imp (fun h => mul_lt_mul_of_pos_right h hp) fun h => ⟨by rw [h.1], heven h.2⟩
  · left
    obtain ⟨u, hu⟩ : ∃ u : ℚ, (unitsOf k : ℚ) = u * 2 ^ shift := ⟨unitsOf k / 2 ^ shift, by field_simp⟩
    have hlt : (unitsOf k : ℚ) < exponentBit * 2 ^ shift := by exact_mod_cast hlt
    rw [hu] at hlt
    have hlt := lt_of_mul_lt_mul_right hlt hp.le
    rw [hm, hu, habs, habs]
    refine mul_lt_mul_of_pos_right ?_ hp
    calc |w - s| ≤ |w - exponentBit| := hw.abs_le exponentBit
      _ = w - exponentBit := abs_of_nonneg (by linarith)
      _ < w - u := by linarith
      _ ≤ |w - u| := le_abs_self _

/-- The value of the double of a magnitude; that of infinity counts as `2 ^ 1024`. -/
def valueOf (m : Nat) : ℚ := unitsOf m / unit

theorem unit_pos : (0 : ℚ) < unit := by
  rw [unit, Nat.shiftLeft_eq]
  positivity

/-- Rounding a fraction to the nearest double, a tie going to the even one, gives the finite double of a magnitude. What
would be rounded to `2 ^ 1024` is too great for that. -/
structure IsRounded (q : ℚ) (m : Nat) : Prop where
  finite : m < infinityMagnitude
  compare {k : Nat} : k ≤ infinityMagnitude → k ≠ m →
    |q - valueOf m| < |q - valueOf k| ∨ |q - valueOf m| = |q - valueOf k| ∧ m % 2 = 0

theorem valueOf_lt_iff {m k : Nat} : valueOf m < valueOf k ↔ m < k := by
  rw [valueOf, valueOf, div_lt_div_iff_of_pos_right unit_pos, Nat.cast_lt, strictMono_unitsOf.lt_iff_lt]

/-- A fraction is rounded to one double only. -/
theorem IsRounded.unique {q : ℚ} {m k : Nat} (hm : IsRounded q m) (hk : IsRounded q k) : m = k := by
  wlog hlt : m < k generalizing m k
  · rcases Nat.lt_or_eq_of_le (Nat.not_lt.mp hlt) with h | h
    · exact (this hk hm h).symm
    · exact h.symm
  exfalso
  -- Both are as near, so that both are even and the fraction lies between them; the double in between is nearer.
  have h₁ := hm.compare hk.finite.le (Nat.ne_of_gt hlt)
  have h₂ := hk.compare hm.finite.le (Nat.ne_of_lt hlt)
  obtain ⟨he, hme⟩ : |q - valueOf m| = |q - valueOf k| ∧ m % 2 = 0 := by
    rcases h₁ with h₁ | h₁
    · rcases h₂ with h₂ | h₂
      · exact absurd h₁ (lt_asymm h₂)
      · exact absurd h₂.1 (ne_of_gt h₁)
    · exact h₁
  have hke : k % 2 = 0 := by
    rcases h₂ with h₂ | h₂
    · exact absurd he (ne_of_gt h₂)
    · exact h₂.2
  have hlo := valueOf_lt_iff.mpr (Nat.lt_succ_self m)
  have hhi := valueOf_lt_iff.mpr (show m + 1 < k by omega)
  have hq : q - valueOf m = -(q - valueOf k) := by
    rcases abs_eq_abs.mp he with h | h
    · linarith
    · exact h
  have hn : |q - valueOf m| ≤ |q - valueOf (m + 1)| :=
    (hm.compare (by have := hk.finite; omega) (Nat.succ_ne_self m)).elim le_of_lt fun h => h.1.le
  rw [abs_of_nonneg (by linarith : 0 ≤ q - valueOf m)] at hn
  have : |q - valueOf (m + 1)| < q - valueOf m := abs_lt.mpr ⟨by linarith, by linarith⟩
  linarith

/-- The significand of a fraction: shifted so that it has as many bits as one, or not shifted if it has fewer. -/
theorem significand_bounds {n : Nat} {v : ℚ} (hle : (n : ℚ) ≤ v) (hlt : v < n + 1) :
    v / 2 ^ (n.log2 - 52) < 2 * exponentBit ∧ (n.log2 - 52 = 0 ∨ exponentBit ≤ v / 2 ^ (n.log2 - 52)) := by
  have hp : (0 : ℚ) < 2 ^ (n.log2 - 52) := by positivity
  have he : exponentBit = 2 ^ 52 := rfl
  constructor
  · have hn : n + 1 ≤ 2 * exponentBit * 2 ^ (n.log2 - 52) := by
      calc n + 1 ≤ 2 ^ (n.log2 + 1) := Nat.lt_log2_self
        _ ≤ 2 ^ (1 + 52 + (n.log2 - 52)) := Nat.pow_le_pow_right two_pos (by omega)
        _ = 2 * exponentBit * 2 ^ (n.log2 - 52) := by rw [he, Nat.pow_add, Nat.pow_add]
    have hn : (n : ℚ) + 1 ≤ 2 * exponentBit * 2 ^ (n.log2 - 52) := by exact_mod_cast hn
    rw [div_lt_iff₀ hp]
    exact hlt.trans_le hn
  · rcases Nat.eq_zero_or_pos (n.log2 - 52) with h0 | hpos
    · exact .inl h0
    · right
      have hn : exponentBit * 2 ^ (n.log2 - 52) ≤ n := by
        calc exponentBit * 2 ^ (n.log2 - 52) = 2 ^ n.log2 := by rw [he, ← Nat.pow_add]; congr 1; omega
          _ ≤ n := Nat.log2_self_le (by rintro rfl; simp at hpos)
      have hn : (exponentBit : ℚ) * 2 ^ (n.log2 - 52) ≤ n := by exact_mod_cast hn
      rw [le_div_iff₀ hp]
      exact hn.trans hle

/-- Shifting the denominator divides what is rounded. -/
theorem isNearestNat_roundDiv_shiftLeft (num shift : Nat) {den : Nat} (hd : 0 < den) :
    IsNearestNat (num / den / 2 ^ shift) (roundDiv num (den <<< shift)) := by
  have hp : 0 < den <<< shift := by
    rw [Nat.shiftLeft_eq]
    exact Nat.mul_pos hd (Nat.two_pow_pos shift)
  have hw := isNearestNat_roundDiv num hp
  rwa [Nat.shiftLeft_eq, Nat.cast_mul den, Nat.cast_pow, Nat.cast_two, div_mul_eq_div_div,
    ← Nat.shiftLeft_eq] at hw

/-- The number of units of a fraction is its whole part or lies between it and the next one. -/
theorem units_bounds (num : Nat) {den : Nat} (hd : 0 < den) :
    ((num * unit / den : Nat) : ℚ) ≤ (num * unit : Nat) / den ∧
      ((num * unit : Nat) : ℚ) / den < (num * unit / den : Nat) + 1 := by
  refine ⟨Nat.cast_div_le, ?_⟩
  rw [div_lt_iff₀ (Nat.cast_pos.mpr hd)]
  exact_mod_cast Nat.mul_comm den _ ▸ Nat.lt_mul_div_succ (num * unit) hd

/-- A fraction below a power of two that is no more than half of what infinity stands for has a finite double. -/
theorem nearest_lt_infinityMagnitude {num den k : Nat} (hd : 0 < den) (hk : k ≤ 1023) (h : num < 2 ^ k * den) :
    nearest num den < infinityMagnitude := by
  obtain ⟨hle, hlt⟩ := units_bounds num hd
  have hs := isNearestNat_roundDiv_shiftLeft (num * unit) ((num * unit / den).log2 - 52) hd
  have hs := hs.le_bound (n := 2 * exponentBit) (by exact_mod_cast (significand_bounds hle hlt).1)
  have hu : num * unit / den < 2 ^ (k + 1074) := by
    rw [Nat.div_lt_iff_lt_mul hd]
    calc num * unit < 2 ^ k * den * unit := Nat.mul_lt_mul_of_pos_right h (by decide)
      _ = 2 ^ (k + 1074) * den := by rw [unit, Nat.one_shiftLeft, Nat.mul_right_comm, ← pow_add]
  have hl : (num * unit / den).log2 < k + 1074 := by
    rcases Nat.eq_zero_or_pos (num * unit / den) with h0 | hpos
    · rw [h0, Nat.log2_zero]
      omega
    · exact (Nat.log2_lt hpos.ne').mpr hu
  have he : ((num * unit / den).log2 - 52) * exponentBit ≤ 2044 * exponentBit := Nat.mul_le_mul_right _ (by omega)
  have hi : infinityMagnitude = 2044 * exponentBit + 3 * exponentBit := rfl
  have hp := exponentBit_pos
  rw [nearest]
  exact min_lt_of_left_lt (by omega)

/-- A fraction with a finite double is rounded to it. -/
theorem isRounded_nearest {num den : Nat} (hd : 0 < den) (h : nearest num den < infinityMagnitude) :
    IsRounded (num / den) (nearest num den) := by
  obtain ⟨hle, hlt⟩ := units_bounds num hd
  obtain ⟨hhi, hlo⟩ := significand_bounds hle hlt
  rw [nearest] at h ⊢
  generalize (num * unit / den).log2 - 52 = shift at *
  have hw := isNearestNat_roundDiv_shiftLeft (num * unit) shift hd
  generalize hs : roundDiv (num * unit) (den <<< shift) = s at *
  generalize hv : ((num * unit : Nat) : ℚ) / den / 2 ^ shift = w at *
  have hq : (num : ℚ) / den = w * 2 ^ shift / unit := by
    have := unit_pos
    rw [← hv, div_mul_cancel₀ _ (by positivity), Nat.cast_mul]
    field_simp
  have hsle : s ≤ 2 * exponentBit := hw.le_bound (by exact_mod_cast hhi)
  have hm : shift * exponentBit + s < infinityMagnitude := (min_lt_iff.mp h).resolve_right (lt_irrefl _)
  rw [Nat.min_eq_left hm.le]
  refine ⟨hm, fun {k} _ hk => ?_⟩
  have habs : ∀ u : Nat, |(num : ℚ) / den - valueOf u| = |w * 2 ^ shift - unitsOf u| / unit := fun u => by
    rw [hq, valueOf, ← sub_div, abs_div, abs_of_pos unit_pos]
  rw [habs, habs, div_lt_div_iff_of_pos_right unit_pos, div_left_inj' unit_pos.ne']
  exact compare_packed hw hsle (hlo.imp_right fun h => ⟨hw.bound_le h, h⟩) hk

end PhpLiteral.Binary64
