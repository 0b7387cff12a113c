import Mathlib.Data.List.TakeWhile
import PhpLiteral.NumberLiteral
import PhpLiteral.Proofs.Syntax.Lexeme
import PhpLiteral.Proofs.Text.Decimal

/-!
# Numbers with a point

The literal of a finite double is a number with a point (`Binary64.isWellFormed_form`), in positional form or with one
digit before the point and a signed exponent. The text of such a number (`FloatForm.text`) is read as this number only
(`FloatForm.read?_text`).
-/

namespace PhpLiteral

open Syntax (takeWhile_append_of_stops)

/-! ## Digits of the shortest decimal -/

theorem mem_digits_ofScaled {n : Nat} {scale : Int} {b : UInt8} (h : b ∈ (Decimal.ofScaled n scale).digits) :
    Ascii.isDigit b = true := by
  rw [Decimal.ofScaled, List.mem_reverse] at h
  exact isDigit_of_mem_decimal (List.mem_reverse.mp ((List.dropWhile_sublist _).subset h))

theorem digits_ofScaled_ne_nil {n : Nat} (scale : Int) (hn : n ≠ 0) : (Decimal.ofScaled n scale).digits ≠ [] := by
  intro h
  rw [Decimal.ofScaled, List.reverse_eq_nil_iff, List.dropWhile_eq_nil_iff] at h
  obtain ⟨b, rest, hd⟩ := List.exists_cons_of_ne_nil (decimal_ne_nil n)
  have hb : (b == Ascii.zero) = true := h b (by rw [hd]; simp)
  apply head?_decimal hn
  rw [hd, List.head?_cons, eq_of_beq hb]

namespace Binary64

theorem pow_ten_pos (n : Nat) : 0 < Nat.pow 10 n := Nat.pow_pos (by decide)

theorem nearest_zero {den : Nat} (hd : 0 < den) : nearest 0 den = 0 := by
  have hr : roundDiv 0 den = 0 := by
    rw [roundDiv, Nat.zero_div, Nat.zero_mod, if_pos (.inl (by omega))]
  simp [nearest, hr]

theorem readsBack_zero {magnitude : Nat} (hm : magnitude ≠ 0) (up : Nat) : readsBack magnitude 0 up = false := by
  rw [readsBack, Nat.zero_mul, nearest_zero (pow_ten_pos places)]
  exact beq_false_of_ne hm.symm

theorem readsBack_of_onGrid? {magnitude whole up n : Nat} (h : onGrid? magnitude whole up = some n) :
    readsBack magnitude n up = true := by
  unfold onGrid? at h
  exact List.find?_some (p := (readsBack magnitude · up)) h

theorem unitsOf_ne_zero {magnitude : Nat} (hm : magnitude ≠ 0) : unitsOf magnitude ≠ 0 := by
  unfold unitsOf
  split
  · exact hm
  · have he : 0 < exponentBit := by decide
    rw [Nat.shiftLeft_eq]
    exact Nat.mul_ne_zero (by omega) (Nat.ne_of_gt (Nat.pow_pos (by decide)))

/-- The shortest decimal of a double other than zero is not zero. -/
theorem exists_shortest {x : Binary64} (hx : x.magnitude ≠ 0) :
    ∃ n scale, n ≠ 0 ∧ x.shortest = .ofScaled n scale := by
  rw [shortest]
  cases hs : (List.range' 1 17).findSome? (ofDigits? x.magnitude (x.units * Nat.pow 10 places / unit)
      (decimal (x.units * Nat.pow 10 places / unit)).length) with
  | none =>
    have hp : ∀ k, Nat.pow 5 k ≠ 0 := fun k => Nat.ne_of_gt (Nat.pow_pos (by decide))
    exact ⟨_, _, Nat.mul_ne_zero (unitsOf_ne_zero hx) (hp _), rfl⟩
  | some d =>
    obtain ⟨count, -, hd⟩ := List.exists_of_findSome?_eq_some hs
    obtain ⟨n, hn, rfl⟩ := Option.map_eq_some_iff.mp hd
    refine ⟨n, _, ?_, rfl⟩
    rintro rfl
    have := readsBack_of_onGrid? hn
    rw [readsBack_zero hx] at this
    cases this

end Binary64

/-! ## Forms of numbers -/

/-- A number with a point as it is written: its sign, the digits before and behind the point, and perhaps an exponent
with its sign. -/
structure FloatForm where
  isNegative : Bool
  whole : Text
  fraction : Text
  exponent : Option (Bool × Text)
  deriving DecidableEq, Repr

namespace FloatForm

/-- A sign, which is left out if it is none of a negative number. -/
def signText (isNegative : Bool) : Text := if isNegative then utf8 "-" else []

def exponentText : Option (Bool × Text) → Text
  | none => []
  | some (isNegative, digits) => 0x45 :: (if isNegative then Ascii.minus else Ascii.plus) :: digits

/-- The number without its sign. -/
def unsigned (f : FloatForm) : Text := f.whole ++ Ascii.dot :: (f.fraction ++ exponentText f.exponent)

/-- The number as a text. -/
def text (f : FloatForm) : Text := signText f.isNegative ++ f.unsigned

/-- There are digits everywhere, and a single one before the point if there is an exponent. -/
structure IsWellFormed (f : FloatForm) : Prop where
  whole : f.whole ≠ [] ∧ ∀ b ∈ f.whole, Ascii.isDigit b = true
  fraction : f.fraction ≠ [] ∧ ∀ b ∈ f.fraction, Ascii.isDigit b = true
  exponent (isNegative : Bool) (digits : Text) : f.exponent = some (isNegative, digits) →
    f.whole.length = 1 ∧ digits ≠ [] ∧ ∀ b ∈ digits, Ascii.isDigit b = true

/-- A text of a number has digits, signs, a point and the letter of an exponent only. -/
theorem IsWellFormed.of_mem_text {f : FloatForm} (hf : f.IsWellFormed) {b : UInt8} (h : b ∈ f.text) :
    Ascii.isDigit b = true ∨ b ∈ [Ascii.minus, Ascii.plus, Ascii.dot, 0x45] := by
  have hs : b ∈ signText f.isNegative → b = Ascii.minus := by
    rw [signText]
    split
    · exact List.mem_singleton.mp
    · exact nofun
  have he : b ∈ exponentText f.exponent → Ascii.isDigit b = true ∨ b ∈ [Ascii.minus, Ascii.plus, 0x45] := by
    intro h
    cases hx : f.exponent with
    | none =>
      rw [hx] at h
      cases h
    | some e =>
      obtain ⟨isNegative, digits⟩ := e
      have hd := (hf.exponent _ _ hx).2.2
      rw [hx, exponentText] at h
      rcases List.mem_cons.mp h with rfl | h
      · exact .inr (by decide)
      rcases List.mem_cons.mp h with rfl | h
      · right
        split <;> decide
      · exact .inl (hd b h)
  rcases List.mem_append.mp h with h | h
  · rw [hs h]
    exact .inr (by decide)
  rcases List.mem_append.mp h with h | h
  · exact .inl (hf.whole.2 b h)
  rcases List.mem_cons.mp h with rfl | h
  · exact .inr (by decide)
  rcases List.mem_append.mp h with h | h
  · exact .inl (hf.fraction.2 b h)
  · refine (he h).imp_right fun h => ?_
    simp only [List.mem_cons, List.not_mem_nil, or_false] at h ⊢
    tauto

/-- Reads what follows a fraction: nothing, or an exponent. -/
def readExponent? : Text → Option (Option (Bool × Text))
  | [] => some none
  | e :: sign :: digits =>
    if e = 0x45 ∧ (sign = Ascii.plus ∨ sign = Ascii.minus) ∧ digits ≠ [] ∧ digits.all Ascii.isDigit then
      some (some (sign == Ascii.minus, digits))
    else none
  | _ => none

/-- Reads a text as a number with a point. -/
def read? (t : Text) : Option FloatForm := do
  let isNegative := t.head? == some Ascii.minus
  let t := if isNegative then t.tail else t
  let whole := t.takeWhile Ascii.isDigit
  let rest := t.drop whole.length
  let fraction := rest.tail.takeWhile Ascii.isDigit
  let exponent ← readExponent? (rest.tail.drop fraction.length)
  if rest.head? = some Ascii.dot ∧ whole ≠ [] ∧ fraction ≠ [] ∧ (exponent.isSome → whole.length = 1) then
    some ⟨isNegative, whole, fraction, exponent⟩
  else none

example : read? (utf8 "-1.50E-7") = some ⟨true, utf8 "1", utf8 "50", some (true, utf8 "7")⟩ := by decide

variable {f : FloatForm}

theorem readExponent?_text (hf : f.IsWellFormed) : readExponent? (exponentText f.exponent) = some f.exponent := by
  have h := hf.exponent
  generalize f.exponent = e at h
  match e with
  | none => rfl
  | some (isNegative, digits) =>
    obtain ⟨-, hn, hd⟩ := h _ _ rfl
    have hall : digits.all Ascii.isDigit = true := List.all_eq_true.mpr hd
    rw [exponentText, readExponent?]
    have hne : Ascii.plus ≠ Ascii.minus := by decide
    cases isNegative <;> simp [hn, hall, hne]

/-- A number is read from its text. -/
theorem read?_text (hf : f.IsWellFormed) : read? f.text = some f := by
  have he := readExponent?_text hf
  have hstop : ∀ b ∈ (exponentText f.exponent).head?, Ascii.isDigit b = false := by
    match f.exponent with
    | none => simp [exponentText]
    | some (isNegative, digits) =>
      rintro b ⟨⟩
      rfl
  have hdot : ∀ b ∈ (Ascii.dot :: (f.fraction ++ exponentText f.exponent)).head?, Ascii.isDigit b = false := by
    rintro b ⟨⟩
    rfl
  have hw := takeWhile_append_of_stops hf.whole.2 hdot
  have hfr := takeWhile_append_of_stops hf.fraction.2 hstop
  have hsign : ((f.text).head? == some Ascii.minus) = f.isNegative := by
    obtain ⟨b, rest, hb⟩ := List.exists_cons_of_ne_nil hf.whole.1
    have hm : b ≠ Ascii.minus := by
      rintro rfl
      exact absurd (hf.whole.2 _ (hb ▸ List.mem_cons_self)) (by decide)
    rw [text, signText]
    cases f.isNegative with
    | true => rfl
    | false => simp [unsigned, hb, hm]
  have hbody : (if f.isNegative then f.text.tail else f.text) =
      f.whole ++ Ascii.dot :: (f.fraction ++ exponentText f.exponent) := by
    rw [text, signText, unsigned]
    cases f.isNegative <;> rfl
  rw [read?]
  simp only [hsign, hbody, hw, List.drop_left, List.tail_cons, hfr, he, Option.bind_eq_bind, Option.bind_some,
    List.head?_cons]
  rw [if_pos]
  refine ⟨trivial, hf.whole.1, hf.fraction.1, fun h => ?_⟩
  obtain ⟨⟨isNegative, digits⟩, h⟩ := Option.isSome_iff_exists.mp h
  exact (hf.exponent _ _ h).1

end FloatForm

/-! ## The two forms of a decimal -/

theorem isDigit_zeros {n : Nat} {b : UInt8} (h : b ∈ List.replicate n Ascii.zero) : Ascii.isDigit b = true := by
  rw [List.eq_of_mem_replicate h]
  rfl

theorem utf8_dot : utf8 "." = [Ascii.dot] := rfl

namespace Decimal

variable {d : Decimal}

/-- Behind a point, where there are no digits left, stands a zero. -/
def afterPoint (fraction : Text) : Text := if fraction.isEmpty then utf8 "0" else fraction

theorem afterPoint_nil : afterPoint [] = [Ascii.zero] := rfl

theorem afterPoint_of_ne_nil {fraction : Text} (h : fraction ≠ []) : afterPoint fraction = fraction :=
  if_neg (by simpa using h)

/-- What stands behind a point is never empty. -/
theorem isDigit_afterPoint {fraction : Text} (h : ∀ b ∈ fraction, Ascii.isDigit b = true) :
    afterPoint fraction ≠ [] ∧ ∀ b ∈ afterPoint fraction, Ascii.isDigit b = true := by
  by_cases hn : fraction = []
  · rw [hn, afterPoint_nil]
    exact ⟨List.cons_ne_nil _ _, List.forall_mem_singleton.mpr rfl⟩
  · rw [afterPoint_of_ne_nil hn]
    exact ⟨hn, h⟩

/-- The exponent form of a decimal with a sign. -/
def toExponentForm (d : Decimal) (isNegative : Bool) : FloatForm where
  isNegative := isNegative
  whole := d.digits.take 1
  fraction := afterPoint (d.digits.drop 1)
  exponent := some (decide (d.exponent < 0), decimal d.exponent.natAbs)

/-- The positional form of a decimal with a sign. -/
def toPositionalForm (d : Decimal) (isNegative : Bool) : FloatForm :=
  if d.exponent < 0 then
    ⟨isNegative, utf8 "0", List.replicate (d.exponent.natAbs - 1) Ascii.zero ++ d.digits, none⟩
  else
    let point := d.exponent.toNat + 1
    ⟨isNegative, d.digits.take point ++ List.replicate (point - d.digits.length) Ascii.zero,
      afterPoint (d.digits.drop point), none⟩

theorem text_toExponentForm (isNegative : Bool) :
    (d.toExponentForm isNegative).text = FloatForm.signText isNegative ++ d.exponentForm := by
  rw [toExponentForm, FloatForm.text, FloatForm.unsigned, FloatForm.exponentText, exponentForm, utf8_dot]
  by_cases h : d.exponent < 0
  · simp [h, afterPoint, show utf8 "E-" = [0x45, Ascii.minus] from rfl]
  · simp [h, afterPoint, show utf8 "E+" = [0x45, Ascii.plus] from rfl]

theorem text_toPositionalForm (isNegative : Bool) :
    (d.toPositionalForm isNegative).text = FloatForm.signText isNegative ++ d.positionalForm := by
  rw [toPositionalForm, positionalForm]
  split
  · simp [FloatForm.text, FloatForm.unsigned, FloatForm.exponentText, show utf8 "0." = utf8 "0" ++ [Ascii.dot] from rfl]
  · simp [FloatForm.text, FloatForm.unsigned, FloatForm.exponentText, utf8_dot, afterPoint]

theorem isWellFormed_toExponentForm (hn : d.digits ≠ []) (hd : ∀ b ∈ d.digits, Ascii.isDigit b = true)
    (isNegative : Bool) : (d.toExponentForm isNegative).IsWellFormed where
  whole := ⟨by simpa [toExponentForm] using hn, fun b hb => hd b (List.mem_of_mem_take hb)⟩
  fraction := isDigit_afterPoint fun b hb => hd b (List.mem_of_mem_drop hb)
  exponent _ _ h := by
    cases h
    refine ⟨?_, decimal_ne_nil _, fun _ => isDigit_of_mem_decimal⟩
    have := List.length_pos_of_ne_nil hn
    rw [toExponentForm, List.length_take]
    omega

theorem isWellFormed_toPositionalForm (hn : d.digits ≠ []) (hd : ∀ b ∈ d.digits, Ascii.isDigit b = true)
    (isNegative : Bool) : (d.toPositionalForm isNegative).IsWellFormed := by
  have hz {k : Nat} : ∀ b ∈ List.replicate k Ascii.zero, Ascii.isDigit b = true := fun b => isDigit_zeros
  rw [toPositionalForm]
  split
  · refine ⟨⟨List.cons_ne_nil _ _, List.forall_mem_singleton.mpr rfl⟩, ⟨by simp [hn], fun b hb => ?_⟩, nofun⟩
    exact (List.mem_append.mp hb).elim (hz b) (hd b)
  · refine ⟨⟨?_, fun b hb => ?_⟩, isDigit_afterPoint fun b hb => hd b (List.mem_of_mem_drop hb), nofun⟩
    · simp [hn]
    · exact (List.mem_append.mp hb).elim (fun hb => hd b (List.mem_of_mem_take hb)) (hz b)

end Decimal

/-! ## The form of a literal -/

namespace Binary64

/-- The form of the literal of a finite double. -/
def form (x : Binary64) : FloatForm :=
  if x.magnitude = 0 then ⟨x.isNegative, utf8 "0", utf8 "0", none⟩
  else if x.isExponential then x.shortest.toExponentForm x.isNegative
  else x.shortest.toPositionalForm x.isNegative

variable {x : Binary64}

theorem floatLiteral_eq_text (h : x.magnitude < infinityMagnitude) : floatLiteral x = x.form.text := by
  have hnan : x.isNaN = false := decide_eq_false (Nat.not_lt.mpr h.le)
  have hinf : x.isInfinite = false := decide_eq_false (Nat.ne_of_lt h)
  rw [floatLiteral, hnan, hinf, form]
  simp only [Bool.false_eq_true, if_false]
  show FloatForm.signText x.isNegative ++ _ = _
  split
  · rfl
  split
  · rw [Decimal.text_toExponentForm]
  · rw [Decimal.text_toPositionalForm]

/-- Both forms of the shortest decimal of a double other than zero have digits everywhere. -/
theorem isWellFormed_form (x : Binary64) : x.form.IsWellFormed := by
  rw [form]
  split
  · exact ⟨⟨List.cons_ne_nil _ _, List.forall_mem_singleton.mpr rfl⟩,
      ⟨List.cons_ne_nil _ _, List.forall_mem_singleton.mpr rfl⟩, nofun⟩
  rename_i hx
  obtain ⟨n, scale, hn, e⟩ := exists_shortest hx
  rw [e]
  have hd : ∀ b ∈ (Decimal.ofScaled n scale).digits, Ascii.isDigit b = true := fun _ => mem_digits_ofScaled
  split
  · exact Decimal.isWellFormed_toExponentForm (digits_ofScaled_ne_nil scale hn) hd _
  · exact Decimal.isWellFormed_toPositionalForm (digits_ofScaled_ne_nil scale hn) hd _

theorem isNegative_form (x : Binary64) : x.form.isNegative = x.isNegative := by
  rw [form, Decimal.toPositionalForm]
  repeat' split
  all_goals rfl

theorem isSome_exponent_form (x : Binary64) : x.form.exponent.isSome = x.isExponential := by
  rw [form, Decimal.toPositionalForm]
  split
  · rename_i hx
    rw [isExponential, hx]
    rfl
  · split
    · rename_i he
      exact he.symm
    · rename_i he
      split <;> exact (Bool.eq_false_iff.mpr he).symm

/-- The literal of a double that is not finite is a constant, perhaps with a minus sign. -/
theorem floatLiteral_cases (x : Binary64) :
    floatLiteral x ∈ [utf8 "NAN", utf8 "INF", utf8 "-INF"] ∨ floatLiteral x = x.form.text := by
  by_cases h : x.magnitude < infinityMagnitude
  · exact .inr (floatLiteral_eq_text h)
  left
  rw [floatLiteral]
  split
  · decide
  rename_i hn
  have hm : x.magnitude ≤ infinityMagnitude := Nat.not_lt.mp fun hlt => hn (decide_eq_true hlt)
  have hi : x.isInfinite = true := decide_eq_true (Nat.le_antisymm hm (Nat.not_lt.mp h))
  rw [if_pos hi]
  split <;> decide

end Binary64

end PhpLiteral
