import PhpLiteral.Proofs.Text.Decimal
import PhpLiteral.Toml.Moment

/-!
# Texts of dates and times

The canonical text of a date-time (`Moment.text`) is read as that date-time (`Moment.parse?_text`), and every
date-time that is read has its parts in the bounds of the calendar and the clock (`Moment.isValid_of_parse?`). How its
offset is written shows at the end of the text: `Z` in either case if it is none, else the hours and minutes of the
offset (`Moment.offset_of_parse?`).
-/

namespace PhpLiteral.Toml

/-! ## Bounds -/

/-- A day that the calendar has, in a year of up to four digits. -/
structure Date.IsValid (d : Date) : Prop where
  year : d.year < 10000
  month : 1 ≤ d.month ∧ d.month ≤ 12
  day : 1 ≤ d.day ∧ d.day ≤ daysIn d.year d.month

/-- A time that the clock shows; second 60 is a leap second. -/
structure Time.IsValid (t : Time) : Prop where
  hour : t.hour ≤ 23
  minute : t.minute ≤ 59
  second : t.second ≤ 60
  nanosecond : t.nanosecond < 1000000000

/-- An offset of less than a day. -/
def Offset.IsValid : Offset → Prop
  | utc => True
  | minutes n => n.natAbs < 1440

def Moment.IsValid : Moment → Prop
  | offsetDateTime d t o => d.IsValid ∧ t.IsValid ∧ o.IsValid
  | localDateTime d t => d.IsValid ∧ t.IsValid
  | localDate d => d.IsValid
  | localTime t => t.IsValid

/-! ## Canonical texts -/

def Date.text (d : Date) : Text :=
  paddedDecimal 4 d.year ++ utf8 "-" ++ paddedDecimal 2 d.month ++ utf8 "-" ++ paddedDecimal 2 d.day

def Offset.text : Offset → Text
  | utc => utf8 "Z"
  | minutes n => offsetZone (60 * n)

/-- The canonical text of a moment, a `T` between date and time. -/
def Moment.text : Moment → Text
  | offsetDateTime d t o => d.text ++ utf8 "T" ++ t.text ++ o.text
  | localDateTime d t => d.text ++ utf8 "T" ++ t.text
  | localDate d => d.text
  | localTime t => t.text

/-- Hours, minutes and whole seconds, two digits each. -/
def Time.clockText (t : Time) : Text :=
  paddedDecimal 2 t.hour ++ utf8 ":" ++ paddedDecimal 2 t.minute ++ utf8 ":" ++ paddedDecimal 2 t.second

/-! ## Parts -/

theorem digitsOf?_eq_some_iff {k n : Nat} {t rest : Text} :
    digitsOf? k t = some (n, rest) ↔ ∃ w, w.length = k ∧ digits? w = some n ∧ t = w ++ rest := by
  rw [digitsOf?]
  constructor
  · intro h
    split at h
    · cases h
    · rename_i hk
      obtain ⟨m, hm, e⟩ := Option.map_eq_some_iff.mp h
      cases e
      exact ⟨t.take k, by rw [List.length_take]; omega, hm, (List.take_append_drop k t).symm⟩
  · rintro ⟨w, rfl, hw, rfl⟩
    rw [if_neg (by simp), List.take_left, List.drop_left, hw]
    rfl

theorem digitsOf?_paddedDecimal {k n : Nat} (hk : 0 < k) (h : n < 10 ^ k) (rest : Text) :
    digitsOf? k (paddedDecimal k n ++ rest) = some (n, rest) :=
  digitsOf?_eq_some_iff.mpr ⟨_, length_paddedDecimal hk h, digits?_paddedDecimal k n, rfl⟩

theorem after?_eq_some_iff {b : UInt8} {t rest : Text} : after? b t = some rest ↔ t = b :: rest := by
  cases t with
  | nil => simp [after?]
  | cons c t =>
    rw [after?]
    split
    · rename_i h
      simp [h]
    · rename_i h
      simp [h]

theorem after?_cons (b : UInt8) (rest : Text) : after? b (b :: rest) = some rest := after?_eq_some_iff.mpr rfl

/-! ## Dates -/

theorem daysIn_le (year month : Nat) : daysIn year month ≤ 31 := by
  unfold daysIn
  split
  · split <;> omega
  · split <;> omega

theorem Date.parse?_text {d : Date} (h : d.IsValid) (rest : Text) : Date.parse? (d.text ++ rest) = some (d, rest) := by
  have hd := daysIn_le d.year d.month
  obtain ⟨hy, hm, hday⟩ := h
  have ht : d.text ++ rest = paddedDecimal 4 d.year ++ (Ascii.minus :: (paddedDecimal 2 d.month ++ (Ascii.minus ::
      (paddedDecimal 2 d.day ++ rest)))) := by
    simp [Date.text, show utf8 "-" = [Ascii.minus] from rfl]
  rw [ht, Date.parse?, digitsOf?_paddedDecimal (by decide) hy]
  simp only [Option.bind_eq_bind, Option.bind_some, after?_cons]
  rw [digitsOf?_paddedDecimal (by decide) (by omega)]
  simp only [Option.bind_some, after?_cons]
  rw [digitsOf?_paddedDecimal (by decide) (by omega)]
  exact if_pos ⟨hm.1, hm.2, hday⟩

/-- A date that is read is one of the calendar, and is written by what comes before the rest. -/
theorem Date.isValid_of_parse? {t rest : Text} {d : Date} (h : Date.parse? t = some (d, rest)) :
    d.IsValid ∧ ∃ w, t = w ++ rest := by
  simp only [Date.parse?, Option.bind_eq_bind, Option.bind_eq_some_iff, Prod.exists, digitsOf?_eq_some_iff,
    after?_eq_some_iff] at h
  obtain ⟨year, t₁, ⟨y, hyl, hy, rfl⟩, t₂, rfl, month, t₃, ⟨m, -, -, rfl⟩, t₄, rfl, day, t₅, ⟨w, -, -, rfl⟩, h⟩ := h
  split at h
  · rename_i hb
    cases h
    have hlt := lt_of_digits? hy
    rw [hyl] at hlt
    exact ⟨⟨hlt, ⟨hb.1, hb.2.1⟩, hb.2.2⟩, y ++ (Ascii.minus :: (m ++ (Ascii.minus :: w))), by simp⟩
  · cases h

/-! ## Times -/

theorem nanoseconds?_append {f rest : Text} {n : Nat} (hf : ∀ b ∈ f, Ascii.isDigit b = true) (hn : f ≠ [])
    (hr : ∀ b ∈ rest.head?, Ascii.isDigit b = false)
    (h : digits? ((f ++ List.replicate 9 Ascii.zero).take 9) = some n) : nanoseconds? (f ++ rest) = some (n, rest) := by
  have ht : (f ++ rest).takeWhile Ascii.isDigit = f := by
    rw [List.takeWhile_append_of_pos hf, List.takeWhile_eq_nil_iff.mpr, List.append_nil]
    intro hl
    simpa [List.head?_eq_getElem?, hl] using hr (rest[0])
  have he : f.isEmpty = false := by simpa using hn
  rw [nanoseconds?, ht]
  simp only [h, Option.bind_some, he, Bool.false_eq_true, if_false, List.drop_left]

/-- What follows a clock is a fraction if it starts with a point. -/
theorem Time.parse?_clockText {t : Time} (h : t.IsValid) (rest : Text) :
    Time.parse? (t.clockText ++ rest) =
      match after? Ascii.dot rest with
      | none => some (⟨t.hour, t.minute, t.second, 0⟩, rest)
      | some f => (nanoseconds? f).map fun (n, rest) => (⟨t.hour, t.minute, t.second, n⟩, rest) := by
  obtain ⟨hh, hm, hs, -⟩ := h
  have ht : t.clockText ++ rest = paddedDecimal 2 t.hour ++ (Ascii.colon :: (paddedDecimal 2 t.minute ++ (Ascii.colon ::
      (paddedDecimal 2 t.second ++ rest)))) := by
    simp [Time.clockText, show utf8 ":" = [Ascii.colon] from rfl]
  rw [ht, Time.parse?, digitsOf?_paddedDecimal (by decide) (by omega)]
  simp only [Option.bind_eq_bind, Option.bind_some, after?_cons]
  rw [digitsOf?_paddedDecimal (by decide) (by omega)]
  simp only [Option.bind_some, after?_cons]
  rw [if_neg (by omega), digitsOf?_paddedDecimal (by decide) (by omega)]
  simp only [Option.bind_some]
  rw [if_neg (by omega)]
  cases after? Ascii.dot rest with
  | none => rfl
  | some f =>
    simp only
    cases nanoseconds? f <;> rfl

theorem Time.parse?_clockText_fraction {t : Time} (h : t.IsValid) {f rest : Text} {n : Nat}
    (hf : ∀ b ∈ f, Ascii.isDigit b = true) (hn : f ≠ []) (hr : ∀ b ∈ rest.head?, Ascii.isDigit b = false)
    (hv : digits? ((f ++ List.replicate 9 Ascii.zero).take 9) = some n) :
    Time.parse? (t.clockText ++ utf8 "." ++ f ++ rest) = some ({ t with nanosecond := n }, rest) := by
  have ht : t.clockText ++ utf8 "." ++ f ++ rest = t.clockText ++ (Ascii.dot :: (f ++ rest)) := by
    simp [show utf8 "." = [Ascii.dot] from rfl]
  rw [ht, Time.parse?_clockText h]
  simp only [after?_cons, nanoseconds?_append hf hn hr hv, Option.map_some]

/-- The digits of a fraction, without zeros at its end. -/
def Time.fraction (t : Time) : Text :=
  ((paddedDecimal 9 t.nanosecond).reverse.dropWhile (· == Ascii.zero)).reverse

theorem Time.text_eq (t : Time) :
    t.text = t.clockText ++ if t.nanosecond = 0 then [] else utf8 "." ++ t.fraction := rfl

/-- Zeros fill up a fraction to nine digits. -/
theorem take_append_zeros {f : Text} (h : f.length ≤ 9) :
    (f ++ List.replicate 9 Ascii.zero).take 9 = f ++ List.replicate (9 - f.length) Ascii.zero := by
  rw [List.take_append, List.take_of_length_le h, List.take_replicate, Nat.min_eq_left (Nat.sub_le _ _)]

/-- The zeros left out at the end of a fraction are those that reading it puts there. -/
theorem Time.digits?_fraction {t : Time} (h : t.nanosecond < 1000000000) :
    digits? ((t.fraction ++ List.replicate 9 Ascii.zero).take 9) = some t.nanosecond := by
  obtain ⟨k, hk⟩ : ∃ k, paddedDecimal 9 t.nanosecond = t.fraction ++ List.replicate k Ascii.zero := eq_append_zeros _
  have hl := length_paddedDecimal (k := 9) (by decide) h
  rw [hk, List.length_append, List.length_replicate] at hl
  rw [take_append_zeros (by omega), show 9 - t.fraction.length = k by omega, ← hk, digits?_paddedDecimal]

theorem Time.parse?_text {t : Time} (h : t.IsValid) {rest : Text}
    (hr : ∀ b ∈ rest.head?, Ascii.isDigit b = false ∧ b ≠ Ascii.dot) :
    Time.parse? (t.text ++ rest) = some (t, rest) := by
  by_cases hn : t.nanosecond = 0
  · have hd : after? Ascii.dot rest = none := by
      cases rest with
      | nil => rfl
      | cons b rest => exact if_neg (hr b rfl).2
    rw [Time.text_eq, if_pos hn, List.append_nil, Time.parse?_clockText h, hd, ← hn]
  · have hz := Time.digits?_fraction h.nanosecond
    have hf : ∀ b ∈ t.fraction, Ascii.isDigit b = true := fun b hb =>
      isDigit_of_mem_paddedDecimal (List.mem_reverse.mp ((List.dropWhile_sublist _).subset (List.mem_reverse.mp hb)))
    have hne : t.fraction ≠ [] := by
      intro e
      rw [e] at hz
      exact hn (Option.some.inj hz).symm
    rw [Time.text_eq, if_neg hn, ← List.append_assoc]
    exact Time.parse?_clockText_fraction h hf hne (fun b hb => (hr b hb).1) hz

theorem Time.parse?_text_only {t : Time} (h : t.IsValid) : Time.parse? t.text = some (t, []) := by
  have hr : ∀ b ∈ ([] : Text).head?, Ascii.isDigit b = false ∧ b ≠ Ascii.dot := nofun
  have := Time.parse?_text h hr
  rwa [List.append_nil] at this

/-- A time with a fraction of six digits, as PHP writes it. -/
theorem Time.parse?_microseconds {t : Time} (h : t.IsValid) :
    Time.parse? (t.clockText ++ utf8 "." ++ paddedDecimal 6 (t.nanosecond / 1000)) =
      some ({ t with nanosecond := t.nanosecond / 1000 * 1000 }, []) := by
  have hn := h.nanosecond
  have hl := length_paddedDecimal (k := 6) (n := t.nanosecond / 1000) (by decide) (by omega)
  have hv : digits? ((paddedDecimal 6 (t.nanosecond / 1000) ++ List.replicate 9 Ascii.zero).take 9) =
      some (t.nanosecond / 1000 * 1000) := by
    have he : 10 ^ (9 - 6) = 1000 := rfl
    rw [take_append_zeros (by omega), hl, digits?_append_zeros (digits?_paddedDecimal 6 _), he]
  have hr : ∀ b ∈ ([] : Text).head?, Ascii.isDigit b = false := nofun
  have := Time.parse?_clockText_fraction h (fun _ => isDigit_of_mem_paddedDecimal)
    (List.ne_nil_of_length_pos (by omega)) hr hv
  rwa [List.append_nil] at this

/-- What is read of a fraction is less than a second, and is written by what comes before the rest. -/
theorem lt_of_nanoseconds? {t rest : Text} {n : Nat} (h : nanoseconds? t = some (n, rest)) :
    n < 1000000000 ∧ ∃ w, t = w ++ rest := by
  rw [nanoseconds?] at h
  simp only [Option.bind_eq_some_iff] at h
  obtain ⟨m, hm, h⟩ := h
  split at h
  · cases h
  cases h
  have hl : ((t.takeWhile Ascii.isDigit ++ List.replicate 9 Ascii.zero).take 9).length ≤ 9 := List.length_take_le _ _
  exact ⟨Nat.lt_of_lt_of_le (lt_of_digits? hm) (Nat.pow_le_pow_right (by decide) hl), _,
    (List.take_append_drop _ t).symm⟩

/-- A time that is read is one of the clock, and is written by what comes before the rest. -/
theorem Time.isValid_of_parse? {t rest : Text} {time : Time} (h : Time.parse? t = some (time, rest)) :
    time.IsValid ∧ ∃ w, t = w ++ rest := by
  simp only [Time.parse?, Option.bind_eq_bind, Option.bind_eq_some_iff, Prod.exists, digitsOf?_eq_some_iff,
    after?_eq_some_iff] at h
  obtain ⟨hour, -, ⟨u, -, -, rfl⟩, t₂, rfl, minute, t₃, ⟨v, -, -, rfl⟩, h⟩ := h
  split at h
  · cases h
  rename_i hb
  have hh : hour ≤ 23 := by omega
  have hm : minute ≤ 59 := by omega
  split at h
  · -- The seconds are left out.
    cases h
    exact ⟨⟨hh, hm, Nat.zero_le _, Nat.succ_pos _⟩, u ++ (Ascii.colon :: v), by simp⟩
  rename_i t₄ ht
  rw [after?_eq_some_iff] at ht
  subst ht
  simp only [Option.bind_eq_some_iff, Prod.exists, digitsOf?_eq_some_iff] at h
  obtain ⟨second, t₅, ⟨w, -, -, rfl⟩, h⟩ := h
  split at h
  · cases h
  rename_i hs
  have hs : second ≤ 60 := by omega
  split at h
  · cases h
    exact ⟨⟨hh, hm, hs, Nat.succ_pos _⟩, u ++ (Ascii.colon :: (v ++ (Ascii.colon :: w))), by simp⟩
  rename_i t₆ ht
  rw [after?_eq_some_iff] at ht
  subst ht
  simp only [Option.bind_eq_some_iff, Prod.exists] at h
  obtain ⟨n, t₇, hn, h⟩ := h
  cases h
  obtain ⟨hlt, f, rfl⟩ := lt_of_nanoseconds? hn
  exact ⟨⟨hh, hm, hs, hlt⟩, u ++ (Ascii.colon :: (v ++ (Ascii.colon :: (w ++ (Ascii.dot :: f))))), by simp⟩

/-! ## Offsets -/

/-- Hours and minutes of an offset of minutes, behind its sign. -/
theorem Offset.text_minutes (n : Int) :
    (minutes n).text = (if n < 0 then Ascii.minus else Ascii.plus) ::
      (paddedDecimal 2 (n.natAbs / 60) ++ (Ascii.colon :: paddedDecimal 2 (n.natAbs % 60))) := by
  have hn : (60 * n).natAbs = 60 * n.natAbs := by omega
  have hh : 60 * n.natAbs / 3600 = n.natAbs / 60 := by omega
  have hm : 60 * n.natAbs / 60 % 60 = n.natAbs % 60 := by omega
  have hs : (if 60 * n < 0 then utf8 "-" else utf8 "+") = [if n < 0 then Ascii.minus else Ascii.plus] := by
    by_cases h : n < 0
    · rw [if_pos h, if_pos (by omega)]
      rfl
    · rw [if_neg h, if_neg (by omega)]
      rfl
  rw [text, offsetZone]
  simp only [hn, hh, hm, hs, if_pos (show 60 * n.natAbs % 60 = 0 by omega), List.append_nil,
    show utf8 ":" = [Ascii.colon] from rfl]
  simp

theorem Offset.parse?_text {o : Offset} (h : o.IsValid) : Offset.parse? o.text = some o := by
  cases o with
  | utc => rfl
  | minutes n =>
    have h : n.natAbs < 1440 := h
    rw [text_minutes]
    generalize hs : (if n < 0 then Ascii.minus else Ascii.plus) = sign
    have hz : ¬ ((sign = 0x5a ∨ sign = 0x7a) ∧
        paddedDecimal 2 (n.natAbs / 60) ++ (Ascii.colon :: paddedDecimal 2 (n.natAbs % 60)) = []) := by simp
    have hsign : sign = Ascii.plus ∨ sign = Ascii.minus := by
      rw [← hs]
      split <;> simp
    have hl := digitsOf?_paddedDecimal (k := 2) (n := n.natAbs % 60) (by decide) (by omega) []
    rw [List.append_nil] at hl
    rw [parse?, if_neg hz, if_pos hsign, digitsOf?_paddedDecimal (by decide) (by omega)]
    simp only [Option.bind_eq_bind, Option.bind_some, after?_cons]
    rw [hl]
    simp only [Option.bind_some]
    rw [if_pos ⟨by omega, by omega, trivial⟩, ← hs]
    by_cases hn : n < 0
    · rw [if_pos hn, if_pos rfl]
      exact congrArg (some ∘ minutes) (by omega)
    · rw [if_neg hn, if_neg (by decide)]
      exact congrArg (some ∘ minutes) (by omega)

/-- An offset is written as `Z` in either case or as its canonical text, apart from a minus sign before zeros. -/
theorem Offset.eq_of_parse? {t : Text} {o : Offset} (h : Offset.parse? t = some o) :
    o.IsValid ∧ (o = .utc ∧ (t = utf8 "Z" ∨ t = utf8 "z") ∨
      o ≠ .utc ∧ (t = o.text ∨ t = utf8 "-00:00" ∧ o.text = utf8 "+00:00")) := by
  cases t with
  | nil => cases h
  | cons b rest =>
  rw [parse?] at h
  split at h
  · rename_i hz
    cases h
    obtain ⟨rfl | rfl, rfl⟩ := hz
    · exact ⟨trivial, .inl ⟨rfl, .inl rfl⟩⟩
    · exact ⟨trivial, .inl ⟨rfl, .inr rfl⟩⟩
  split at h
  · rename_i hs
    simp only [Option.bind_eq_bind, Option.bind_eq_some_iff, Prod.exists, digitsOf?_eq_some_iff,
      after?_eq_some_iff] at h
    obtain ⟨hour, -, ⟨u, hul, hu, rfl⟩, t₂, rfl, minute, t₃, ⟨v, hvl, hv, rfl⟩, h⟩ := h
    split at h
    · rename_i hb
      obtain ⟨hh, hm, rfl⟩ := hb
      cases h
      obtain rfl : paddedDecimal 2 hour = u := by rw [← hul, paddedDecimal_of_digits? hu]
      obtain rfl : paddedDecimal 2 minute = v := by rw [← hvl, paddedDecimal_of_digits? hv]
      have hq : (60 * hour + minute) / 60 = hour := by omega
      have hr : (60 * hour + minute) % 60 = minute := by omega
      refine ⟨?_, .inr ⟨by simp, ?_⟩⟩
      · show Int.natAbs _ < 1440
        split <;> omega
      rcases hs with rfl | rfl
      · left
        rw [if_neg (by decide), text_minutes, if_neg (by omega), Int.natAbs_natCast, hq, hr, List.append_nil]
      · rw [if_pos rfl]
        rcases Nat.eq_zero_or_pos (60 * hour + minute) with hz | hz
        · right
          obtain ⟨rfl, rfl⟩ : hour = 0 ∧ minute = 0 := by omega
          exact ⟨rfl, rfl⟩
        · left
          rw [text_minutes, if_pos (by omega), Int.natAbs_neg, Int.natAbs_natCast, hq, hr, List.append_nil]
    · cases h
  · cases h

/-! ## Moments -/

theorem head?_offset (o : Offset) : ∀ b ∈ o.text.head?, Ascii.isDigit b = false ∧ b ≠ Ascii.dot := by
  cases o with
  | utc =>
    rintro b ⟨⟩
    decide
  | minutes n =>
    rw [Offset.text_minutes]
    rintro b ⟨⟩
    split <;> decide

/-- The text of a time is no date: a colon stands among its first four bytes. -/
theorem Date.parse?_time {t : Time} (h : t.IsValid) : Date.parse? t.text = none := by
  have hl := length_paddedDecimal (k := 2) (n := t.hour) (by decide) (by have := h.hour; omega)
  have hd : digitsOf? 4 t.text = none := by
    rw [Option.eq_none_iff_forall_ne_some]
    rintro ⟨n, rest⟩ he
    obtain ⟨w, hw, hn, ht⟩ := digitsOf?_eq_some_iff.mp he
    have hc : t.text[2]? = some Ascii.colon := by
      simp [Time.text, show utf8 ":" = [Ascii.colon] from rfl, hl]
    rw [ht, List.getElem?_append_left (by omega)] at hc
    exact absurd (isDigit_of_digits? hn _ (List.mem_of_getElem? hc)) (by decide)
  rw [Date.parse?, hd]
  rfl

/-- The canonical text of a moment is read as this moment. -/
theorem Moment.parse?_text {m : Moment} (h : m.IsValid) : Moment.parse? m.text = some m := by
  have hT : utf8 "T" = [0x54] := rfl
  cases m with
  | offsetDateTime d t o =>
    obtain ⟨hd, ht, ho⟩ := h
    rw [text, List.append_assoc, List.append_assoc, parse?, Date.parse?_text hd, hT]
    simp only [List.singleton_append, true_or, if_true, Time.parse?_text ht (head?_offset o)]
    obtain ⟨b, rest, hb⟩ : ∃ b rest, o.text = b :: rest := by
      cases o with
      | utc => exact ⟨_, _, rfl⟩
      | minutes n => exact ⟨_, _, Offset.text_minutes n⟩
    rw [hb]
    simp only
    rw [← hb, Offset.parse?_text ho, Option.map_some]
  | localDateTime d t =>
    obtain ⟨hd, ht⟩ := h
    rw [text, List.append_assoc, parse?, Date.parse?_text hd, hT]
    simp only [List.singleton_append, true_or, if_true, Time.parse?_text_only ht]
  | localDate d =>
    have hp := Date.parse?_text h []
    rw [List.append_nil] at hp
    rw [text, parse?, hp]
  | localTime t =>
    rw [text, parse?, Date.parse?_time h, Time.parse?_text_only h]

/-- A moment that is read has its parts in bounds, and an offset is read from the end of the text. -/
theorem Moment.isValid_of_parse? {w : Text} {m : Moment} (h : Moment.parse? w = some m) :
    m.IsValid ∧ ∀ d t o, m = .offsetDateTime d t o → ∃ before behind, w = before ++ behind ∧
      Offset.parse? behind = some o := by
  rw [parse?] at h
  split at h
  · rename_i d hd
    cases h
    exact ⟨(Date.isValid_of_parse? hd).1, fun _ _ _ => nofun⟩
  · rename_i d b rest hd
    obtain ⟨hv, u, rfl⟩ := Date.isValid_of_parse? hd
    split at h
    · split at h
      · rename_i t ht
        cases h
        exact ⟨⟨hv, (Time.isValid_of_parse? ht).1⟩, fun _ _ _ => nofun⟩
      · rename_i t behind _ ht
        obtain ⟨htv, v, rfl⟩ := Time.isValid_of_parse? ht
        obtain ⟨o, ho, rfl⟩ := Option.map_eq_some_iff.mp h
        refine ⟨⟨hv, htv, (Offset.eq_of_parse? ho).1⟩, ?_⟩
        rintro d' t' o' ⟨⟩
        exact ⟨u ++ b :: v, behind, by simp, ho⟩
      · cases h
    · cases h
  · split at h
    · rename_i t ht
      cases h
      exact ⟨(Time.isValid_of_parse? ht).1, fun _ _ _ => nofun⟩
    · cases h

/-- Whether a text ends with `Z` in either case. -/
def endsInZ (t : Text) : Bool := t.getLast? == some 0x5a || t.getLast? == some 0x7a

theorem endsInZ_append (t : Text) {u : Text} (h : u ≠ []) : endsInZ (t ++ u) = endsInZ u := by
  rw [endsInZ, List.getLast?_append_of_ne_nil t h]
  rfl

theorem endsInZ_text_minutes (n : Int) : endsInZ (Offset.minutes n).text = false := by
  have hne : paddedDecimal 2 (n.natAbs % 60) ≠ [] := by simp [paddedDecimal, decimal_ne_nil]
  rw [Offset.text_minutes, endsInZ, List.getLast?_cons, List.getLast?_append_of_ne_nil _ (List.cons_ne_nil _ _),
    List.getLast?_cons, List.getLast?_eq_some_getLast hne]
  have hd := isDigit_of_mem_paddedDecimal (List.getLast_mem hne)
  generalize (paddedDecimal 2 (n.natAbs % 60)).getLast hne = b at hd
  have hb : ∀ c : UInt8, Ascii.isDigit c = false → b ≠ c := by
    rintro c hc rfl
    rw [hd] at hc
    cases hc
  simpa using ⟨hb 0x5a (by decide), hb 0x7a (by decide)⟩

/-- A moment without offset from UTC is written with a `Z`; any other offset stands as it is at the end of the text,
apart from a minus sign before zeros. -/
theorem Moment.offset_of_parse? {w : Text} {d : Date} {t : Time} {o : Offset}
    (h : Moment.parse? w = some (.offsetDateTime d t o)) :
    (endsInZ w = true ↔ o = .utc) ∧ (o ≠ .utc → ∃ before, w = before ++ o.text ∨
      w = before ++ utf8 "-00:00" ∧ o.text = utf8 "+00:00") := by
  obtain ⟨before, behind, rfl, ho⟩ := (Moment.isValid_of_parse? h).2 d t o rfl
  have hne : behind ≠ [] := by
    rintro rfl
    cases ho
  rw [endsInZ_append before hne]
  rcases (Offset.eq_of_parse? ho).2 with ⟨rfl, hz⟩ | ⟨hn, hz⟩
  · refine ⟨iff_of_true ?_ rfl, fun h => absurd rfl h⟩
    rcases hz with rfl | rfl <;> decide
  · refine ⟨iff_of_false ?_ hn, fun _ => ⟨before, ?_⟩⟩
    · cases o with
      | utc => exact absurd rfl hn
      | minutes n =>
        rcases hz with rfl | ⟨rfl, -⟩
        · rw [endsInZ_text_minutes]
          exact Bool.false_ne_true
        · decide
    · rcases hz with rfl | ⟨rfl, hz⟩
      · exact .inl rfl
      · exact .inr ⟨rfl, hz⟩

end PhpLiteral.Toml
