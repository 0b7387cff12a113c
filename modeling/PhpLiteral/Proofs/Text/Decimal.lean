import Mathlib.Algebra.Ring.Nat
import Mathlib.Data.List.DropRight
import Mathlib.Data.Nat.Digits.Defs
import PhpLiteral.Key

/-!
# Digits of numbers

The decimal digits of a number are read back as this number, and they are its canonical form: `digits?_decimal`,
`canonicalNat?_eq_some_iff`. Zeros before them count for nothing, so that any digits are those of the number that they
write, filled up to their count (`paddedDecimal_of_digits?`). The number that is read is the sum of the digits by their
places (`digits?_eq_some_iff`).
-/

namespace PhpLiteral

theorem isDigit_toUInt8 {c : Char} (h : c.isDigit = true) :
    Ascii.isDigit c.toUInt8 = true ∧ c.toUInt8.toNat = c.toNat := by
  simp only [Char.isDigit, Bool.and_eq_true, decide_eq_true_eq] at h
  have h₁ : 48 ≤ c.toNat := h.1
  have h₂ : c.toNat ≤ 57 := h.2
  have hn : c.toUInt8.toNat = c.toNat := by
    show c.val.toUInt8.toNat = _
    rw [UInt32.toNat_toUInt8]
    exact Nat.mod_eq_of_lt (by show c.toNat < 256; omega)
  refine ⟨?_, hn⟩
  simp only [Ascii.isDigit, Bool.and_eq_true, decide_eq_true_eq, UInt8.le_iff_toNat_le, hn]
  exact ⟨h₁, h₂⟩

theorem digitsFrom?_map {l : List Char} (h : ∀ c ∈ l, c.isDigit = true) (m : Nat) :
    digitsFrom? m (l.map Char.toUInt8) = some (Nat.ofDigitChars 10 l m) := by
  induction l generalizing m with
  | nil => rfl
  | cons c l ih =>
    obtain ⟨hd, hn⟩ := isDigit_toUInt8 (h c List.mem_cons_self)
    rw [List.map_cons, digitsFrom?, if_pos hd, ih (fun x hx => h x (List.mem_cons_of_mem _ hx)), hn]
    rfl

theorem isDigit_of_mem_decimal {n : Nat} {b : UInt8} (h : b ∈ decimal n) : Ascii.isDigit b = true := by
  obtain ⟨c, hc, rfl⟩ := List.mem_map.mp h
  exact (isDigit_toUInt8 (Nat.isDigit_of_mem_toDigits (by decide) (by decide) hc)).1

theorem decimal_ne_nil (n : Nat) : decimal n ≠ [] := by
  simp [decimal, Nat.toDigits_ne_nil]

theorem digits?_decimal (n : Nat) : digits? (decimal n) = some n := by
  have h := digitsFrom?_map (l := Nat.toDigits 10 n)
    (fun c hc => Nat.isDigit_of_mem_toDigits (by decide) (by decide) hc) 0
  rw [Nat.ofDigitChars_ten_toDigits] at h
  unfold digits?
  split
  · rename_i e
    exact absurd e (decimal_ne_nil n)
  · exact h

/-- The last digit of a number of several digits, and the digits before it. -/
theorem decimal_of_le {n : Nat} (h : 10 ≤ n) : decimal n = decimal (n / 10) ++ decimal (n % 10) := by
  simp only [decimal, ← List.map_append]
  rw [Nat.toDigits_of_base_le (by decide) h, Nat.toDigits_of_lt_base (Nat.mod_lt n (by decide))]

/-- A number other than zero is written without a leading zero. -/
theorem head?_decimal {n : Nat} (hn : n ≠ 0) : (decimal n).head? ≠ some Ascii.zero := by
  induction n using Nat.strongRecOn with
  | _ n ih =>
    by_cases h : n < 10
    · have : ∀ m < 10, m ≠ 0 → (decimal m).head? ≠ some Ascii.zero := by decide
      exact this n h hn
    · have := ih (n / 10) (by omega) (by omega)
      obtain ⟨b, rest, hq⟩ := List.exists_cons_of_ne_nil (decimal_ne_nil (n / 10))
      rw [hq] at this
      rwa [decimal_of_le (by omega), hq]

theorem canonicalNat?_decimal (n : Nat) : canonicalNat? (decimal n) = some n := by
  by_cases hn : n = 0
  · subst hn; rfl
  · have h₀ := head?_decimal hn
    cases hd : decimal n with
    | nil => exact absurd hd (decimal_ne_nil n)
    | cons b rest =>
      rw [hd, List.head?_cons] at h₀
      have hb : b ≠ Ascii.zero := fun e => h₀ (congrArg some e)
      rw [canonicalNat?, if_neg hb, ← hd, digits?_decimal]
      exact fun e => absurd e hb

/-! ## Digits that are read -/

theorem decimal_of_isDigit {b : UInt8} (h : Ascii.isDigit b = true) :
    b.toNat - 0x30 < 10 ∧ decimal (b.toNat - 0x30) = [b] := by
  simp only [Ascii.isDigit, Bool.and_eq_true, decide_eq_true_eq, UInt8.le_iff_toNat_le] at h
  have h₁ : 0x30 ≤ b.toNat := h.1
  have h₂ : b.toNat ≤ 0x39 := h.2
  have hd : ∀ d < 10, decimal d = [(d + 0x30).toUInt8] := by decide
  refine ⟨by omega, ?_⟩
  rw [hd _ (by omega), Nat.sub_add_cancel h₁]
  exact congrArg (fun c => [c]) UInt8.ofNat_toNat

/-- Digits behind a number other than zero write the number that they continue it to. -/
theorem decimal_of_digitsFrom? {t : Text} {m n : Nat} (hm : 0 < m) (h : digitsFrom? m t = some n) :
    decimal n = decimal m ++ t := by
  induction t generalizing m with
  | nil =>
    cases h
    rw [List.append_nil]
  | cons b t ih =>
    rw [digitsFrom?] at h
    split at h
    · rename_i hb
      obtain ⟨hlt, hd⟩ := decimal_of_isDigit hb
      have hdiv : (10 * m + (b.toNat - 0x30)) / 10 = m ∧ (10 * m + (b.toNat - 0x30)) % 10 = b.toNat - 0x30 := by omega
      rw [ih (by omega) h, decimal_of_le (by omega), hdiv.1, hdiv.2, hd, List.append_assoc, List.singleton_append]
    · cases h

theorem eq_decimal_of_canonicalNat? {t : Text} {n : Nat} (h : canonicalNat? t = some n) : t = decimal n := by
  unfold canonicalNat? at h
  split at h
  · cases h
    rfl
  · rename_i b rest _
    split at h
    · cases h
    rename_i hb
    rw [digits?, digitsFrom?] at h
    · split at h
      · rename_i hd
        obtain ⟨-, hd'⟩ := decimal_of_isDigit hd
        have hpos : 0 < 10 * 0 + (b.toNat - 0x30) := by
          rw [Nat.mul_zero, Nat.zero_add, Nat.pos_iff_ne_zero]
          intro e
          rw [e] at hd'
          cases hd'
          exact hb rfl
        rw [decimal_of_digitsFrom? hpos h, Nat.mul_zero, Nat.zero_add, hd', List.singleton_append]
      · cases h
    · simp
  · cases h

/-- The canonical form of a number is its decimal digits. -/
theorem canonicalNat?_eq_some_iff {t : Text} {n : Nat} : canonicalNat? t = some n ↔ t = decimal n :=
  ⟨eq_decimal_of_canonicalNat?, fun h => h ▸ canonicalNat?_decimal n⟩

theorem ne_minus_cons_decimal (n : Nat) (t : Text) : decimal n ≠ Ascii.minus :: t := by
  intro e
  have h : Ascii.isDigit Ascii.minus = true := isDigit_of_mem_decimal (n := n) (e ▸ List.mem_cons_self)
  cases h

theorem canonicalInt?_decimalInt (i : Int) : canonicalInt? (decimalInt i) = some i := by
  rw [decimalInt]
  split
  · rename_i hi
    obtain ⟨n, hn⟩ := Nat.exists_eq_add_of_lt (Int.natAbs_pos.mpr (Int.ne_of_lt hi))
    -- The equation matches the bits of the minus sign, so that a rewrite does not find it.
    have he := canonicalInt?.eq_1 (decimal i.natAbs)
    rw [canonicalNat?_decimal, hn] at he
    rw [hn]
    exact he.trans (congrArg some (by omega))
  · rename_i hi
    rw [canonicalInt?, canonicalNat?_decimal, Option.map_some, Int.ofNat_eq_natCast, Int.natAbs_of_nonneg (by omega)]
    exact fun t => ne_minus_cons_decimal _ t

/-- The canonical form of an integer is its decimal text. -/
theorem canonicalInt?_eq_some_iff {t : Text} {i : Int} : canonicalInt? t = some i ↔ t = decimalInt i := by
  refine ⟨fun h => ?_, fun h => h ▸ canonicalInt?_decimalInt i⟩
  unfold canonicalInt? at h
  split at h
  · split at h
    · rename_i n hn
      cases h
      rw [eq_decimal_of_canonicalNat? hn, decimalInt, if_pos (by omega)]
      rfl
    · cases h
  · obtain ⟨n, hn, rfl⟩ := Option.map_eq_some_iff.mp h
    rw [eq_decimal_of_canonicalNat? hn]
    rfl

/-! ## Leading zeros and zeros at the end -/

theorem digitsFrom?_append (n : Nat) (t u : Text) :
    digitsFrom? n (t ++ u) = (digitsFrom? n t).bind fun m => digitsFrom? m u := by
  induction t generalizing n with
  | nil => rfl
  | cons b t ih =>
    rw [List.cons_append, digitsFrom?, digitsFrom?]
    split
    · exact ih _
    · rfl

theorem digits?_eq_digitsFrom? {t : Text} (h : t ≠ []) : digits? t = digitsFrom? 0 t := by
  cases t with
  | nil => exact absurd rfl h
  | cons b t => rfl

theorem digitsFrom?_zeros (n k : Nat) : digitsFrom? n (List.replicate k Ascii.zero) = some (n * 10 ^ k) := by
  induction k generalizing n with
  | zero => simp [digitsFrom?]
  | succ k ih =>
    rw [List.replicate_succ, digitsFrom?, if_pos (by decide), ih, Nat.pow_succ']
    exact congrArg some (by show 10 * n * 10 ^ k = n * (10 * 10 ^ k); rw [Nat.mul_comm 10 n, Nat.mul_assoc])

theorem digits?_append_zeros {t : Text} {n : Nat} (h : digits? t = some n) (k : Nat) :
    digits? (t ++ List.replicate k Ascii.zero) = some (n * 10 ^ k) := by
  have ht : t ≠ [] := by
    rintro rfl
    cases h
  rw [digits?_eq_digitsFrom? ht] at h
  rw [digits?_eq_digitsFrom? (by simp [ht]), digitsFrom?_append, h, Option.bind_some, digitsFrom?_zeros]

theorem digits?_zeros_append {t : Text} (h : t ≠ []) (k : Nat) :
    digits? (List.replicate k Ascii.zero ++ t) = digits? t := by
  rw [digits?_eq_digitsFrom? (by simp [h]), digits?_eq_digitsFrom? h, digitsFrom?_append, digitsFrom?_zeros,
    Option.bind_some, Nat.zero_mul]

theorem isDigit_of_digitsFrom? {t : Text} {n m : Nat} (h : digitsFrom? n t = some m) :
    ∀ b ∈ t, Ascii.isDigit b = true := by
  induction t generalizing n with
  | nil => simp
  | cons b t ih =>
    rw [digitsFrom?] at h
    split at h
    · rename_i hb
      exact List.forall_mem_cons.mpr ⟨hb, ih h⟩
    · cases h

/-- What is read as a number is digits. -/
theorem isDigit_of_digits? {t : Text} {n : Nat} (h : digits? t = some n) : ∀ b ∈ t, Ascii.isDigit b = true := by
  cases t with
  | nil => cases h
  | cons b t => exact isDigit_of_digitsFrom? h

/-- Every text of digits is read as a number. -/
theorem exists_digits? {t : Text} (ht : t ≠ []) (h : ∀ b ∈ t, Ascii.isDigit b = true) : ∃ n, digits? t = some n := by
  have hf : ∀ n, ∃ m, digitsFrom? n t = some m := by
    clear ht
    induction t with
    | nil => exact fun n => ⟨n, rfl⟩
    | cons b t ih =>
      intro n
      rw [List.forall_mem_cons] at h
      rw [digitsFrom?, if_pos h.1]
      exact ih h.2 _
  rw [digits?_eq_digitsFrom? ht]
  exact hf 0

theorem lt_of_digitsFrom? {t : Text} {n m : Nat} (h : digitsFrom? n t = some m) : m < (n + 1) * 10 ^ t.length := by
  induction t generalizing n with
  | nil =>
    cases h
    simp
  | cons b t ih =>
    rw [digitsFrom?] at h
    split at h
    · rename_i hb
      have hd := (decimal_of_isDigit hb).1
      calc m < (10 * n + (b.toNat - 0x30) + 1) * 10 ^ t.length := ih h
        _ ≤ ((n + 1) * 10) * 10 ^ t.length := Nat.mul_le_mul_right _ (by omega)
        _ = (n + 1) * 10 ^ (b :: t).length := by rw [List.length_cons, Nat.pow_succ', Nat.mul_assoc]
    · cases h

/-- A number of some digits is below the power of ten that has one digit more. -/
theorem lt_of_digits? {t : Text} {n : Nat} (h : digits? t = some n) : n < 10 ^ t.length := by
  cases t with
  | nil => cases h
  | cons b t => simpa using lt_of_digitsFrom? (n := 0) h

/-- A text without the zeros at its end, and these zeros. -/
theorem eq_append_zeros (t : Text) :
    ∃ k, t = (t.reverse.dropWhile (· == Ascii.zero)).reverse ++ List.replicate k Ascii.zero := by
  refine ⟨(t.rtakeWhile (· == Ascii.zero)).length, ?_⟩
  have hz : t.rtakeWhile (· == Ascii.zero) = List.replicate (t.rtakeWhile (· == Ascii.zero)).length Ascii.zero :=
    List.eq_replicate_iff.mpr ⟨rfl, fun b hb => eq_of_beq (List.mem_rtakeWhile_imp (p := (· == Ascii.zero)) hb)⟩
  rw [← hz]
  exact List.rdropWhile_append_rtakeWhile.symm

/-! ## A fixed count of digits -/

theorem length_paddedDecimal {k n : Nat} (hk : 0 < k) (h : n < 10 ^ k) : (paddedDecimal k n).length = k := by
  have hl : (decimal n).length ≤ k := by
    rwa [decimal, List.length_map, Nat.length_toDigits_le_iff (by decide) hk]
  rw [paddedDecimal, List.length_append, List.length_replicate]
  omega

theorem digits?_paddedDecimal (k n : Nat) : digits? (paddedDecimal k n) = some n := by
  rw [paddedDecimal, digits?_zeros_append (decimal_ne_nil n), digits?_decimal]

theorem isDigit_of_mem_paddedDecimal {k n : Nat} {b : UInt8} (h : b ∈ paddedDecimal k n) : Ascii.isDigit b = true :=
  isDigit_of_digits? (digits?_paddedDecimal k n) b h

/-- Digits are those of the number that they write, filled up with zeros. -/
theorem paddedDecimal_of_digits? {t : Text} {n : Nat} (h : digits? t = some n) : paddedDecimal t.length n = t := by
  have hz : t.takeWhile (· == Ascii.zero) = List.replicate (t.takeWhile (· == Ascii.zero)).length Ascii.zero :=
    List.eq_replicate_iff.mpr ⟨rfl, fun b hb => eq_of_beq (List.mem_takeWhile_imp (p := (· == Ascii.zero)) hb)⟩
  have ht := List.takeWhile_append_dropWhile (p := (· == Ascii.zero)) (l := t)
  rw [hz] at ht
  generalize (t.takeWhile (· == Ascii.zero)).length = k at ht
  cases hu : t.dropWhile (· == Ascii.zero) with
  | nil =>
    rw [hu, List.append_nil] at ht
    subst ht
    cases k with
    | zero => cases h
    | succ k =>
      rw [digits?_eq_digitsFrom? (by simp), digitsFrom?_zeros, Nat.zero_mul] at h
      cases h
      rw [List.length_replicate, List.replicate_succ']
      rfl
  | cons b rest =>
    have hb : b ≠ Ascii.zero := by
      have := List.head?_dropWhile_not (· == Ascii.zero) t
      rw [hu] at this
      simpa using this
    rw [← ht, hu, digits?_zeros_append (List.cons_ne_nil b rest)] at h
    have hc : canonicalNat? (b :: rest) = some n := by
      rw [canonicalNat?, if_neg hb, h]
      exact fun e => absurd e hb
    rw [← ht, hu, eq_decimal_of_canonicalNat? hc, paddedDecimal, List.length_append, List.length_replicate,
      Nat.add_sub_cancel]

/-! ## Digits by their places -/

/-- The digits of a text write a number: each counts for its place, the last one for itself. -/
def IsDecimal (t : Text) (n : Nat) : Prop :=
  t ≠ [] ∧ (∀ b ∈ t, 0x30 ≤ b ∧ b ≤ 0x39) ∧ n = Nat.ofDigits 10 (t.reverse.map fun b => b.toNat - 0x30)

/-- A decimal number, perhaps with a plus sign before its digits. -/
def IsNumeral (t : Text) (n : Nat) : Prop :=
  ∃ sign digits, t = sign ++ digits ∧ (sign = [] ∨ sign = [Ascii.plus]) ∧ IsDecimal digits n

/-- The one form of an integer: digits that start with no zero if there are several, and a minus sign before them if
the integer is negative. -/
def IsCanonicalDecimal (t : Text) (i : Int) : Prop :=
  ∃ digits, t = (if i < 0 then [Ascii.minus] else []) ++ digits ∧ IsDecimal digits i.natAbs ∧
    (digits.head? = some Ascii.zero → digits = [Ascii.zero])

theorem digitsFrom?_eq_some_iff {t : Text} {n m : Nat} :
    digitsFrom? n t = some m ↔ (∀ b ∈ t, 0x30 ≤ b ∧ b ≤ 0x39) ∧
      m = n * 10 ^ t.length + Nat.ofDigits 10 (t.reverse.map fun b => b.toNat - 0x30) := by
  induction t generalizing n with
  | nil => simp [digitsFrom?, eq_comm]
  | cons b t ih =>
    have hd : Ascii.isDigit b = true ↔ 0x30 ≤ b ∧ b ≤ 0x39 := by simp [Ascii.isDigit]
    have hs : (10 * n + (b.toNat - 0x30)) * 10 ^ t.length +
        Nat.ofDigits 10 (t.reverse.map fun b => b.toNat - 0x30) = n * 10 ^ (b :: t).length +
          Nat.ofDigits 10 ((b :: t).reverse.map fun b => b.toNat - 0x30) := by
      rw [List.reverse_cons, List.map_append, Nat.ofDigits_append, List.map_singleton, Nat.ofDigits_singleton,
        List.length_map, List.length_reverse, List.length_cons]
      ring
    rw [digitsFrom?, List.forall_mem_cons, ← hd, ← hs]
    by_cases hb : Ascii.isDigit b = true
    · rw [if_pos hb, ih, and_iff_right hb]
    · simp [hb]

theorem digits?_eq_some_iff {t : Text} {n : Nat} : digits? t = some n ↔ IsDecimal t n := by
  by_cases ht : t = []
  · subst ht
    exact ⟨nofun, fun h => absurd rfl h.1⟩
  · rw [digits?_eq_digitsFrom? ht, digitsFrom?_eq_some_iff, Nat.zero_mul, Nat.zero_add, IsDecimal, and_iff_right ht]

theorem unsigned?_eq_some_iff {t : Text} {n : Nat} : unsigned? t = some n ↔ IsNumeral t n := by
  constructor
  · intro h
    unfold unsigned? at h
    split at h
    · exact ⟨[Ascii.plus], _, rfl, .inr rfl, digits?_eq_some_iff.mp h⟩
    · exact ⟨[], t, rfl, .inl rfl, digits?_eq_some_iff.mp h⟩
  · rintro ⟨sign, digits, rfl, rfl | rfl, hd⟩
    · rw [List.nil_append, unsigned?]
      · exact digits?_eq_some_iff.mpr hd
      · rintro u rfl
        exact absurd (hd.2.1 _ List.mem_cons_self) (by decide)
    · exact digits?_eq_some_iff.mpr hd

theorem canonicalNat?_eq_some_iff_isDecimal {t : Text} {n : Nat} :
    canonicalNat? t = some n ↔ IsDecimal t n ∧ (t.head? = some Ascii.zero → t = [Ascii.zero]) := by
  rw [← digits?_eq_some_iff]
  unfold canonicalNat?
  split
  · show some 0 = some n ↔ some 0 = some n ∧ (some Ascii.zero = some Ascii.zero → [Ascii.zero] = [Ascii.zero])
    exact (and_iff_left fun _ => rfl).symm
  · rename_i b rest hr
    split
    · rename_i hb
      refine iff_of_false nofun fun ⟨_, hz⟩ => ?_
      exact hr hb (List.cons.inj (hz (congrArg some hb))).2
    · rename_i hb
      simp [hb]
  · exact iff_of_false nofun fun ⟨h, _⟩ => nomatch h

/-- The decimal text of an integer is its one form. -/
theorem isCanonicalDecimal_iff {t : Text} {i : Int} : IsCanonicalDecimal t i ↔ t = decimalInt i := by
  simp only [IsCanonicalDecimal, ← canonicalNat?_eq_some_iff_isDecimal, canonicalNat?_eq_some_iff]
  rw [decimalInt]
  split <;> simp

end PhpLiteral
