import Mathlib.Data.List.TakeWhile
import PhpLiteral.Json
import PhpLiteral.Proofs.Text.Key

/-!
# Numbers of JSON texts

A number of a JSON text is an integer exactly if it is written as one that has 64 bits, and then it is this integer
(`Json.Numeral.exists_number?_iff`); every other number is a double. A text that is a number is read as it
(`Json.parse?_numeral`).
-/

namespace PhpLiteral.Json

/-- The number that digits continue. -/
def digitsValue (n : Nat) (digits : List Nat) : Nat := digits.foldl (fun n d => 10 * n + d) n

/-- The integer that a number is written as: without fraction and exponent, and no negative zero. -/
def Numeral.value? (n : Numeral) : Option Int :=
  if n.fraction.isSome || n.exponent.isSome || n.isNegative && digitsValue 0 n.integer = 0 then none
  else some (if n.isNegative then -(digitsValue 0 n.integer : Int) else digitsValue 0 n.integer)

theorem le_digitsValue (n : Nat) (digits : List Nat) : n ≤ digitsValue n digits := by
  induction digits generalizing n with
  | nil => exact Nat.le_refl n
  | cons d digits ih => exact Nat.le_trans (by omega) (ih (10 * n + d))

theorem accumulate_of_lt {n : Nat} {digits : List Nat} (h : digitsValue n digits < UInt64.size) :
    accumulate n digits = (digitsValue n digits, 0) := by
  induction digits generalizing n with
  | nil => rfl
  | cons d digits ih =>
    have hl : 10 * n + d ≤ digitsValue n (d :: digits) := le_digitsValue _ digits
    rw [accumulate, if_pos (Nat.lt_of_le_of_lt hl h)]
    exact ih h

/-- Of digits that leave 64 bits, some are left. -/
theorem accumulate_of_le {n : Nat} {digits : List Nat} (hn : n < UInt64.size) (h : UInt64.size ≤ digitsValue n digits) :
    (accumulate n digits).2 ≠ 0 := by
  induction digits generalizing n with
  | nil => exact absurd hn (Nat.not_lt.mpr h)
  | cons d digits ih =>
    rw [accumulate]
    split
    · rename_i hd
      exact ih hd h
    · exact Nat.succ_ne_zero _

/-- The integer that a number is. -/
def Number.value? : Number → Option Int
  | natural n => some n.toNat
  | negative i => some i.toInt
  | float _ => none

/-- The integers of 64 bits, with sign if they are below zero. -/
def IsWord (v : Int) : Prop := Int64.minValue.toInt ≤ v ∧ v < (UInt64.size : Int)

namespace Numeral

/-- The digits of a number that is written as an integer. -/
theorem word?_eq_some_iff {n : Numeral} {value : Nat} :
    n.word? = some value ↔
      (n.fraction.isSome || n.exponent.isSome) = false ∧ digitsValue 0 n.integer = value ∧ value < UInt64.size := by
  rw [word?]
  by_cases hf : (n.fraction.isSome || n.exponent.isSome) = true
  · rw [if_pos hf, hf]
    simp
  rw [if_neg hf, Bool.eq_false_iff.mpr hf]
  rcases Nat.lt_or_ge (digitsValue 0 n.integer) UInt64.size with h | h
  · rw [accumulate_of_lt h]
    simp only [Option.some.injEq, true_and]
    exact ⟨fun e => ⟨e, e ▸ h⟩, And.left⟩
  · have ha := accumulate_of_le (by decide) h
    simp only [true_and]
    refine iff_of_false ?_ fun ⟨e, hv⟩ => Nat.not_lt.mpr h (e ▸ hv)
    split
    · rename_i e
      rw [e] at ha
      exact absurd rfl ha
    · exact nofun

theorem value?_eq_some_iff {n : Numeral} {v : Int} :
    n.value? = some v ↔
      (n.fraction.isSome || n.exponent.isSome) = false ∧ (n.isNegative = true → digitsValue 0 n.integer ≠ 0) ∧
        v = if n.isNegative then -(digitsValue 0 n.integer : Int) else digitsValue 0 n.integer := by
  rw [value?, Option.ite_none_left_eq_some, Option.some.injEq]
  grind

/-- A number is read as an integer exactly if it is written as this integer and the integer has 64 bits. -/
theorem exists_integer?_iff {n : Numeral} {v : Int} :
    (∃ k, n.integer? = some k ∧ k.value? = some v) ↔ n.value? = some v ∧ IsWord v := by
  simp only [integer?, Option.bind_eq_some_iff, word?_eq_some_iff, value?_eq_some_iff]
  constructor
  · rintro ⟨k, ⟨value, ⟨hf, rfl, hv⟩, hk⟩, e⟩
    split at hk
    · rename_i hn
      rw [Bool.not_eq_true'] at hn
      cases hk
      obtain rfl := Option.some.inj e
      rw [UInt64.toNat_ofNat_of_lt' hv, hn]
      exact ⟨⟨hf, nofun, rfl⟩, Int.le_trans (by decide) (Int.natCast_nonneg _), Int.ofNat_lt.mpr hv⟩
    · rename_i hn
      rw [Bool.not_eq_true', Bool.not_eq_false] at hn
      split at hk
      · cases hk
      · rename_i hz
        obtain ⟨i, hi, rfl⟩ := Option.map_eq_some_iff.mp hk
        obtain rfl := Option.some.inj e
        rw [← int64?_eq_some_iff.mp hi, hn]
        have hm := int64?_eq_some_iff.mp hi ▸ i.le_toInt
        exact ⟨⟨hf, fun _ => hz, rfl⟩, hm, by omega⟩
  · rintro ⟨⟨hf, hz, rfl⟩, hlo, hhi⟩
    cases hn : n.isNegative with
    | false =>
      rw [hn] at hhi
      have hv : digitsValue 0 n.integer < UInt64.size := Int.ofNat_lt.mp hhi
      refine ⟨_, ⟨_, ⟨hf, rfl, hv⟩, rfl⟩, ?_⟩
      rw [Number.value?, UInt64.toNat_ofNat_of_lt' hv]
      rfl
    | true =>
      rw [hn] at hlo
      have hs : (UInt64.size : Int) = 2 ^ 64 := rfl
      have hm : Int64.minValue.toInt = -2 ^ 63 := rfl
      simp only [if_true] at hlo ⊢
      obtain ⟨i, hi⟩ : ∃ i, int64? (-(digitsValue 0 n.integer : Int)) = some i := by
        rw [int64?, if_pos ⟨hlo, Int.le_trans (by omega) (by decide : 0 ≤ Int64.maxValue.toInt)⟩]
        exact ⟨_, rfl⟩
      refine ⟨.negative i, ⟨_, ⟨hf, rfl, by omega⟩, ?_⟩, ?_⟩
      · rw [if_neg (by simp), if_neg (hz hn), hi]
        rfl
      · rw [int64?_eq_some_iff.mp hi]
        rfl

theorem exists_value?_of_integer? {n : Numeral} {k : Number} (h : n.integer? = some k) : ∃ v, k.value? = some v := by
  rw [integer?] at h
  obtain ⟨value, -, h⟩ := Option.bind_eq_some_iff.mp h
  split at h
  · cases h
    exact ⟨_, rfl⟩
  split at h
  · cases h
  · obtain ⟨i, -, rfl⟩ := Option.map_eq_some_iff.mp h
    exact ⟨_, rfl⟩

/-- A number is an integer exactly if it is written as this integer and the integer has 64 bits. -/
theorem exists_number?_iff {n : Numeral} {v : Int} :
    (∃ k, n.number? = some k ∧ k.value? = some v) ↔ n.value? = some v ∧ IsWord v := by
  rw [← exists_integer?_iff, number?]
  cases n.integer? with
  | some k => rfl
  | none =>
    simp only [Option.map_eq_some_iff]
    refine iff_of_false ?_ nofun
    rintro ⟨_, ⟨m, -, rfl⟩, e⟩
    cases e

end Numeral

/-! ## Texts of integers -/

/-- The values of the digits of a number. -/
def digitsOf (n : Nat) : List Nat := (decimal n).map fun b => b.toNat - 0x30

theorem digitsFrom?_eq {t : Text} (h : ∀ b ∈ t, Ascii.isDigit b = true) (n : Nat) :
    digitsFrom? n t = some (digitsValue n (t.map fun b => b.toNat - 0x30)) := by
  induction t generalizing n with
  | nil => rfl
  | cons b t ih =>
    rw [List.forall_mem_cons] at h
    rw [digitsFrom?, if_pos h.1]
    exact ih h.2 _

theorem digitsValue_digitsOf (n : Nat) : digitsValue 0 (digitsOf n) = n := by
  have h := digits?_decimal n
  unfold digits? at h
  split at h
  · cases h
  · rw [digitsFrom?_eq fun _ => isDigit_of_mem_decimal] at h
    exact Option.some.inj h

theorem leadingDigits_decimal (n : Nat) : leadingDigits (decimal n) = digitsOf n := by
  rw [leadingDigits, List.takeWhile_eq_self_iff.mpr fun _ => isDigit_of_mem_decimal]
  rfl

/-- The digits of a number start with a zero only if there are no others. -/
theorem digitsOf_cases (n : Nat) : (∃ d, digitsOf n = [d]) ∨ ∃ d e more, digitsOf n = (d + 1) :: e :: more := by
  cases hn : decimal n with
  | nil => exact absurd hn (decimal_ne_nil n)
  | cons b rest =>
    cases rest with
    | nil => exact .inl ⟨_, by rw [digitsOf, hn]; rfl⟩
    | cons c rest =>
      have hz : n ≠ 0 := by
        rintro rfl
        exact absurd hn (by simp [show decimal 0 = [Ascii.zero] from rfl])
      have hb : b ≠ Ascii.zero := fun e => head?_decimal hz (by rw [hn, e]; rfl)
      have hd := isDigit_of_mem_decimal (hn ▸ List.mem_cons_self : b ∈ decimal n)
      simp only [Ascii.isDigit, Bool.and_eq_true, decide_eq_true_eq, UInt8.le_iff_toNat_le] at hd
      have hv : b.toNat ≠ 0x30 := fun e => hb (UInt8.toNat_inj.mp e)
      refine .inr ⟨b.toNat - 0x30 - 1, c.toNat - 0x30, rest.map fun b => b.toNat - 0x30, ?_⟩
      rw [digitsOf, hn, List.map_cons, List.map_cons, Nat.sub_add_cancel]
      have h₀ : UInt8.toNat 0x30 = 0x30 := rfl
      omega

/-- The sign and the decimal text of a number are read as this number. -/
theorem Numeral.parse?_decimal {t : Text} {n : Nat} {isNegative : Bool}
    (ht : t = if isNegative then Ascii.minus :: decimal n else decimal n) :
    Numeral.parse? t = some ⟨isNegative, digitsOf n, none, none⟩ := by
  have hl : (decimal n).drop (digitsOf n).length = [] := by rw [digitsOf, List.length_map, List.drop_length]
  unfold Numeral.parse?
  split
  rename_i sign digits e
  obtain ⟨rfl, rfl⟩ : sign = isNegative ∧ digits = decimal n := by
    split at e
    · cases e
      cases isNegative with
      | true => exact ⟨rfl, (List.cons.inj ht).2⟩
      | false => exact absurd ht.symm (ne_minus_cons_decimal n _)
    · rename_i hm
      cases e
      cases isNegative with
      | true => exact absurd ht (hm _)
      | false => exact ⟨rfl, ht⟩
  have hi : integerPart? (decimal n) = some (digitsOf n) := by
    rw [integerPart?, leadingDigits_decimal]
    rcases digitsOf_cases n with ⟨d, hd⟩ | ⟨d, e, more, hd⟩
    · rw [hd]
    · rw [hd]
      rfl
  simp only [hi, Option.bind_eq_bind, Option.bind_some, hl]
  rfl

theorem Numeral.parse?_decimalInt (i : Int) :
    Numeral.parse? (decimalInt i) = some ⟨decide (i < 0), digitsOf i.natAbs, none, none⟩ :=
  Numeral.parse?_decimal (by simp [decimalInt])

/-! ## Numbers as texts -/

/-- Digits are bytes of a number, so that what is left to read decides. -/
theorem forall_isNumberByte_of_drop {t : Text}
    (h : ∀ b ∈ t.drop (leadingDigits t).length, isNumberByte b = true) : ∀ b ∈ t, isNumberByte b = true := by
  intro b hb
  rw [leadingDigits, List.length_map] at h
  rw [← List.take_append_drop (t.takeWhile Ascii.isDigit).length t, List.mem_append,
    ← List.prefix_iff_eq_take.mp (List.takeWhile_prefix _)] at hb
  rcases hb with hb | hb
  · rw [isNumberByte, (List.mem_takeWhile_imp hb : Ascii.isDigit b = true)]
    rfl
  · exact h b hb

theorem forall_isNumberByte_of_fraction? {t rest : Text} {f : Option (List Nat)} (hf : fraction? t = some (f, rest))
    (h : ∀ b ∈ rest, isNumberByte b = true) : ∀ b ∈ t, isNumberByte b = true := by
  unfold fraction? at hf
  split at hf
  · split at hf
    · cases hf
    · cases hf
      exact List.forall_mem_cons.mpr ⟨by decide, forall_isNumberByte_of_drop h⟩
  · cases hf
    exact h

theorem isNumberByte_of_toLower {b : UInt8} (h : Ascii.toLower b = 0x65) : isNumberByte b = true := by
  rw [Ascii.toLower] at h
  split at h
  · obtain rfl : b = 0x45 := by rw [← UInt8.add_sub_cancel b 0x20, h]; rfl
    decide
  · rw [h]
    decide

theorem forall_isNumberByte_of_exponent? {t rest : Text} {e : Option (Bool × List Nat)}
    (he : exponent? t = some (e, rest)) (h : ∀ b ∈ rest, isNumberByte b = true) : ∀ b ∈ t, isNumberByte b = true := by
  unfold exponent? at he
  split at he
  · split at he
    · cases he
      exact h
    · rename_i b rest' hb
      refine List.forall_mem_cons.mpr ⟨isNumberByte_of_toLower (not_not.mp hb), ?_⟩
      split at he
      rename_i isNegative digits hd
      have hr : (∀ b ∈ digits, isNumberByte b = true) → ∀ b ∈ rest', isNumberByte b = true := by
        intro hb
        split at hd
        all_goals
          cases hd
        · exact List.forall_mem_cons.mpr ⟨by decide, hb⟩
        · exact List.forall_mem_cons.mpr ⟨by decide, hb⟩
        · exact hb
      split at he
      · cases he
      · cases he
        exact hr (forall_isNumberByte_of_drop h)
  · cases he
    exact h

theorem eq_leadingDigits_of_integerPart? {t : Text} {digits : List Nat} (h : integerPart? t = some digits) :
    digits = leadingDigits t ∧ ∃ b rest, t = b :: rest ∧ Ascii.isDigit b = true := by
  have hd : digits = leadingDigits t ∧ leadingDigits t ≠ [] := by
    unfold integerPart? at h
    split at h
    · cases h
    · rename_i e
      cases h
      simp [e]
    · cases h
    · rename_i hn _ _
      cases h
      exact ⟨rfl, hn⟩
  refine ⟨hd.1, ?_⟩
  cases t with
  | nil => exact absurd rfl hd.2
  | cons b rest =>
    refine ⟨b, rest, rfl, ?_⟩
    by_contra hb
    rw [leadingDigits, List.takeWhile_cons_of_neg hb] at hd
    exact hd.2 rfl

/-- A number consists of bytes of numbers, and begins with a minus sign or a digit. -/
theorem Numeral.bytes_of_parse? {t : Text} {n : Numeral} (h : Numeral.parse? t = some n) :
    (∀ b ∈ t, isNumberByte b = true) ∧ ∃ b rest, t = b :: rest ∧ (b = Ascii.minus ∨ Ascii.isDigit b = true) := by
  unfold Numeral.parse? at h
  split at h
  rename_i sign digits hs
  obtain ⟨integer, hi, h⟩ := Option.bind_eq_some_iff.mp h
  obtain ⟨⟨f, t₁⟩, hf, h⟩ := Option.bind_eq_some_iff.mp h
  obtain ⟨⟨e, t₂⟩, he, h⟩ := Option.bind_eq_some_iff.mp h
  obtain ⟨rfl, hne⟩ := eq_leadingDigits_of_integerPart? hi
  have hb : ∀ b ∈ digits, isNumberByte b = true := by
    dsimp only at h
    split at h
    · rename_i hz
      rw [List.isEmpty_iff.mp hz] at he
      have h₀ : ∀ b ∈ ([] : Text), isNumberByte b = true := List.forall_mem_nil _
      have h₁ := forall_isNumberByte_of_fraction? hf (forall_isNumberByte_of_exponent? he h₀)
      exact forall_isNumberByte_of_drop h₁
    · cases h
  obtain ⟨c, rest, rfl, hc⟩ := hne
  split at hs
  all_goals
    cases hs
  · exact ⟨List.forall_mem_cons.mpr ⟨by decide, hb⟩, _, _, rfl, .inl rfl⟩
  · exact ⟨hb, _, _, rfl, .inr hc⟩

/-- A minus sign or a digit begins a number. -/
theorem lexeme?_number {b : UInt8} {rest : Text} (hb : b = Ascii.minus ∨ Ascii.isDigit b = true)
    (ht : ∀ c ∈ b :: rest, isNumberByte c = true) :
    lexeme? (b :: rest) = ((Numeral.parse? (b :: rest)).bind Numeral.number?).map fun n =>
      (some (.scalar (.number n)), (b :: rest).length) := by
  have hne : ∀ c, Ascii.isDigit c = false → c ≠ Ascii.minus → b ≠ c := by
    rintro c hc hm rfl
    rcases hb with rfl | hb
    · exact hm rfl
    · rw [hb] at hc
      cases hc
  have hw : ¬ (b = Ascii.space ∨ b = Ascii.tab ∨ b = Ascii.lineFeed ∨ b = Ascii.carriageReturn) := by
    rintro (h | h | h | h) <;> exact hne _ (by decide) (by decide) h
  rw [lexeme?, if_neg hw, if_neg (hne _ (by decide) (by decide)), if_neg (hne _ (by decide) (by decide)),
    if_neg (hne _ (by decide) (by decide)), if_neg (hne _ (by decide) (by decide)),
    if_neg (hne _ (by decide) (by decide)), if_neg (hne _ (by decide) (by decide)),
    if_neg (hne _ (by decide) (by decide)), if_pos hb, List.takeWhile_eq_self_iff.mpr ht]

theorem lexemesFrom?_skip (t : Text) : lexemesFrom? t.length t = some [] := by
  induction t with
  | nil => rfl
  | cons b t ih => exact ih

/-- A text that is a number is read as it. -/
theorem parse?_numeral {t : Text} {n : Numeral} (h : Numeral.parse? t = some n) :
    parse? t = n.number?.map .number := by
  obtain ⟨ht, b, rest, rfl, hb⟩ := Numeral.bytes_of_parse? h
  rw [parse?, lexemes?, lexemesFrom?, lexeme?_number hb ht, h, Option.bind_some]
  cases n.number? with
  | none => rfl
  | some k =>
    simp only [Option.map_some, List.length_cons, Nat.add_sub_cancel, lexemesFrom?_skip]
    rfl

/-- The decimal text of an integer of 64 bits is read as this integer. -/
theorem exists_parse?_decimalInt {v : Int} (hv : IsWord v) :
    ∃ k, parse? (decimalInt v) = some (.number k) ∧ k.value? = some v := by
  have hw : Numeral.value? ⟨decide (v < 0), digitsOf v.natAbs, none, none⟩ = some v := by
    rw [Numeral.value?_eq_some_iff]
    simp only [digitsValue_digitsOf, decide_eq_true_eq]
    refine ⟨rfl, fun h => ?_, ?_⟩
    · omega
    · split <;> omega
  obtain ⟨k, hk, he⟩ := Numeral.exists_number?_iff.mpr ⟨hw, hv⟩
  refine ⟨k, ?_, he⟩
  rw [parse?_numeral (Numeral.parse?_decimalInt v), hk]
  rfl

end PhpLiteral.Json
