import PhpLiteral.Proofs.Binary64.Shortest

/-!
# Literals of doubles

The literal of a finite double is a number with a point (`floatLiteral_exact`). Its value is that of the shortest
decimal (`Decimal.magnitude_toExponentForm`, `Decimal.magnitude_toPositionalForm`), which is rounded to the double, so
that no two doubles have the same literal. Which of both forms it has is decided by a comparison with two doubles; no
double lies between one of them and the bound that it stands for (`Binary64.isExponential_iff`).
-/

namespace PhpLiteral

/-! ## Values of numbers with a point -/

/-- The power of ten of the exponent. -/
def FloatForm.scale (f : FloatForm) : ℤ :=
  match f.exponent with
  | none => 0
  | some (isNegative, digits) => if isNegative then -((digits? digits).getD 0 : ℤ) else (digits? digits).getD 0

/-- The value of the number, its sign aside. -/
def FloatForm.magnitude (f : FloatForm) : ℚ :=
  (digits? (f.whole ++ f.fraction)).getD 0 * 10 ^ (f.scale - f.fraction.length)

/-- Zeros before the digits of a decimal count for nothing, and those behind them for the point. -/
theorem FloatForm.magnitude_eq {f : FloatForm} {d : Decimal} {v : Nat} (hv : digits? d.digits = some v)
    (before behind : Nat) (ht : f.whole ++ f.fraction =
      List.replicate before Ascii.zero ++ (d.digits ++ List.replicate behind Ascii.zero))
    (hs : f.scale - f.fraction.length = d.exponent + 1 - d.digits.length - behind) : f.magnitude = d.value := by
  have hn : d.digits ++ List.replicate behind Ascii.zero ≠ [] := by
    intro h
    rw [(List.append_eq_nil_iff.mp h).1] at hv
    cases hv
  rw [magnitude, ht, digits?_zeros_append hn, digits?_append_zeros hv, hs, Decimal.value, hv, zpow_sub₀ (by norm_num),
    zpow_natCast, Option.getD_some, Option.getD_some, Nat.cast_mul, Nat.cast_pow, Nat.cast_ofNat]
  field_simp

namespace Decimal

variable {d : Decimal}

theorem scale_toExponentForm (isNegative : Bool) : (d.toExponentForm isNegative).scale = d.exponent := by
  rw [toExponentForm, FloatForm.scale]
  simp only [decide_eq_true_eq, digits?_decimal, Option.getD_some]
  split <;> omega

theorem magnitude_toExponentForm {v : Nat} (hv : digits? d.digits = some v) (isNegative : Bool) :
    (d.toExponentForm isNegative).magnitude = d.value := by
  have hs := scale_toExponentForm (d := d) isNegative
  have hl : 0 < d.digits.length := List.length_pos_of_ne_nil fun h => by rw [h] at hv; cases hv
  have ht := List.take_append_drop 1 d.digits
  have hdl := List.length_drop (i := 1) (l := d.digits)
  by_cases h : d.digits.drop 1 = []
  · refine FloatForm.magnitude_eq hv 0 1 ?_ ?_
    · simp only [toExponentForm, h, afterPoint_nil, List.append_nil] at ht ⊢
      rw [ht]
      rfl
    · rw [hs]
      simp only [toExponentForm, h, afterPoint_nil, List.length_nil, List.length_singleton] at hdl ⊢
      omega
  · refine FloatForm.magnitude_eq hv 0 0 ?_ ?_
    · simp only [toExponentForm, afterPoint_of_ne_nil h, ht]
      simp
    · rw [hs]
      simp only [toExponentForm, afterPoint_of_ne_nil h, hdl]
      omega

theorem magnitude_toPositionalForm {v : Nat} (hv : digits? d.digits = some v) (isNegative : Bool) :
    (d.toPositionalForm isNegative).magnitude = d.value := by
  have hl : 0 < d.digits.length := List.length_pos_of_ne_nil fun h => by rw [h] at hv; cases hv
  rw [toPositionalForm]
  split
  · rename_i he
    refine FloatForm.magnitude_eq hv d.exponent.natAbs 0 ?_ ?_
    · obtain ⟨k, hk⟩ : ∃ k, d.exponent.natAbs = k + 1 := Nat.exists_eq_add_of_le' (by omega)
      rw [hk, List.replicate_succ]
      simp [show utf8 "0" = [Ascii.zero] from rfl]
    · simp only [FloatForm.scale, List.length_append, List.length_replicate]
      omega
  · rename_i he
    extract_lets point
    have hp : (point : Int) = d.exponent + 1 := by omega
    by_cases h : d.digits.drop point = []
    · -- All digits stand before the point.
      have hlp : d.digits.length ≤ point := List.drop_eq_nil_iff.mp h
      refine FloatForm.magnitude_eq hv 0 (point - d.digits.length + 1) ?_ ?_
      · simp only [h, afterPoint_nil, List.take_of_length_le hlp, List.replicate_succ']
        simp
      · simp only [FloatForm.scale, h, afterPoint_nil, List.length_singleton]
        omega
    · have hlp : point < d.digits.length := Nat.not_le.mp fun hle => h (List.drop_eq_nil_iff.mpr hle)
      refine FloatForm.magnitude_eq hv 0 0 ?_ ?_
      · simp only [afterPoint_of_ne_nil h, Nat.sub_eq_zero_of_le hlp.le]
        simp
      · simp only [FloatForm.scale, afterPoint_of_ne_nil h, List.length_drop]
        omega

end Decimal

/-! ## The bounds of the positional form -/

namespace Binary64

theorem valueOf_lt_div_iff {m num den : Nat} (hd : 0 < den) :
    valueOf m < (num : ℚ) / den ↔ unitsOf m * den < num * unit := by
  rw [valueOf, div_lt_div_iff₀ unit_pos (Nat.cast_pos.mpr hd)]
  exact_mod_cast Iff.rfl

/-- A double is below the double of a fraction exactly if it is below the fraction, where the double is not below it and
the one before it is. -/
theorem lt_iff_valueOf_lt (m bound num : Nat) {den : Nat} (hd : 0 < den) (h₁ : unitsOf bound * den < num * unit)
    (h₂ : num * unit ≤ unitsOf (bound + 1) * den) : m < bound + 1 ↔ valueOf m < (num : ℚ) / den := by
  rw [valueOf_lt_div_iff hd]
  constructor
  · intro h
    exact Nat.lt_of_le_of_lt (Nat.mul_le_mul_right _ (strictMono_unitsOf.monotone (Nat.le_of_lt_succ h))) h₁
  · intro h
    by_contra hm
    have := Nat.mul_le_mul_right den (strictMono_unitsOf.monotone (Nat.not_lt.mp hm))
    omega

theorem nearest_tenThousandth : nearest 1 (Nat.pow 10 4) = 4547007122018943788 + 1 := by decide +kernel

theorem nearest_quadrillion : nearest (Nat.pow 10 15) 1 = 4831355200913801215 + 1 := by decide +kernel

/-- The doubles next to the bounds of the positional form lie on the same sides of them as their magnitudes do. -/
theorem isExponential_iff {x : Binary64} : x.isExponential = true ↔
    x.magnitude ≠ 0 ∧ (valueOf x.magnitude < 1 / 10 ^ 4 ∨ 10 ^ 15 ≤ valueOf x.magnitude) := by
  have hlo := lt_iff_valueOf_lt x.magnitude 4547007122018943788 1 (by decide : 0 < 10 ^ 4) (by decide +kernel)
    (by decide +kernel)
  have hhi := lt_iff_valueOf_lt x.magnitude 4831355200913801215 (10 ^ 15) Nat.one_pos (by decide +kernel)
    (by decide +kernel)
  rw [isExponential, nearest_tenThousandth, nearest_quadrillion]
  simp only [Bool.and_eq_true, Bool.or_eq_true, decide_eq_true_eq, ne_eq]
  rw [hlo, ← Nat.not_lt, hhi, not_lt]
  norm_num

/-! ## The form of a literal -/

/-- A double is its sign and its magnitude. -/
theorem eq_of_magnitude_eq {x y : Binary64} (hs : x.isNegative = y.isNegative) (hm : x.magnitude = y.magnitude) :
    x = y := by
  have hx := x.bits.toNat_lt
  have hy := y.bits.toNat_lt
  have hb : signBit = 2 ^ 63 := rfl
  have hs : signBit ≤ x.bits.toNat ↔ signBit ≤ y.bits.toNat := by
    simpa only [isNegative, decide_eq_decide] using hs
  rw [magnitude, magnitude] at hm
  rw [hb] at hs hm
  have : x.bits.toNat = y.bits.toNat := by omega
  cases x
  cases y
  exact congrArg mk (UInt64.toNat_inj.mp this)

variable {x : Binary64}

theorem isRounded_form (h : x.magnitude < infinityMagnitude) : IsRounded x.form.magnitude x.magnitude := by
  rw [form]
  split
  · rename_i hx
    have hv : (⟨x.isNegative, utf8 "0", utf8 "0", none⟩ : FloatForm).magnitude = valueOf x.magnitude := by
      have hd : digits? (utf8 "0" ++ utf8 "0") = some 0 := by decide
      rw [FloatForm.magnitude, hd, hx, valueOf, show unitsOf 0 = 0 from rfl, Option.getD_some, Nat.cast_zero, zero_mul,
        zero_div]
    rw [hv]
    exact isRounded_valueOf h
  rename_i hx
  obtain ⟨n, scale, hn, e⟩ := exists_shortest hx
  obtain ⟨v, hv⟩ := exists_digits? (digits_ofScaled_ne_nil scale hn) fun _ => mem_digits_ofScaled
  rw [← e] at hv
  split
  · rw [Decimal.magnitude_toExponentForm hv]
    exact isRounded_shortest h hx
  · rw [Decimal.magnitude_toPositionalForm hv]
    exact isRounded_shortest h hx

end Binary64

open Binary64 (IsRounded infinityMagnitude valueOf)

/-- The literal of a finite double is a number with a point and the sign of the double, and the double is the nearest
one to its value. It has an exponent exactly if the double is not zero and below `1e-4` or at least `1e15`, and it is
not the literal of any other double. -/
theorem floatLiteral_exact {x : Binary64} (h : x.magnitude < infinityMagnitude) :
    ∃ f : FloatForm, f.IsWellFormed ∧ floatLiteral x = f.text ∧ FloatForm.read? (floatLiteral x) = some f ∧
      f.isNegative = x.isNegative ∧ IsRounded f.magnitude x.magnitude ∧
      (f.exponent.isSome = true ↔
        x.magnitude ≠ 0 ∧ (valueOf x.magnitude < 1 / 10 ^ 4 ∨ 10 ^ 15 ≤ valueOf x.magnitude)) ∧
      ∀ y : Binary64, y.magnitude < infinityMagnitude → floatLiteral y = floatLiteral x → y = x := by
  have hr {x : Binary64} (h : x.magnitude < infinityMagnitude) : FloatForm.read? (floatLiteral x) = some x.form := by
    rw [x.floatLiteral_eq_text h, FloatForm.read?_text x.isWellFormed_form]
  refine ⟨x.form, x.isWellFormed_form, x.floatLiteral_eq_text h, hr h, x.isNegative_form, x.isRounded_form h, ?_,
    fun y hy he => ?_⟩
  · rw [x.isSome_exponent_form, Binary64.isExponential_iff]
  · have hf : y.form = x.form := by
      have hy := hr hy
      rw [he, hr h] at hy
      exact (Option.some.inj hy).symm
    apply Binary64.eq_of_magnitude_eq
    · rw [← y.isNegative_form, hf, x.isNegative_form]
    · have := y.isRounded_form hy
      rw [hf] at this
      exact this.unique (x.isRounded_form h)

/-- The negative double next to zero. -/
theorem floatLiteral_exact_least : (⟨0x8000000000000001⟩ : Binary64).magnitude < infinityMagnitude ∧
    ∃ f : FloatForm, f.IsWellFormed ∧ floatLiteral ⟨0x8000000000000001⟩ = f.text ∧ f.text = utf8 "-5.0E-324" ∧
      IsRounded f.magnitude 1 := by
  obtain ⟨f, hf, ht, -, -, hr, -⟩ := floatLiteral_exact (x := ⟨0x8000000000000001⟩) (by decide)
  exact ⟨by decide, f, hf, ht, ht ▸ by decide +kernel, hr⟩

end PhpLiteral
