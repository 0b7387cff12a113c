import PhpLiteral.Dump
import PhpLiteral.Proofs.Syntax.DateCall
import PhpLiteral.Proofs.Toml.Moment

/-!
# Date-times as PHP code

What PHP holds for a date-time of a TOML text (`dump_moment`). An offset date-time becomes a `DateTimeImmutable` with
the same wall clock at the same offset, and so the same instant to the microsecond; a local date-time and a local date
become one in UTC, and a local time a string.

A date-time gets there as its canonical text, which readers of three forms take one after another
(`Readers.document`). What they do with canonical texts is `Readers.AreSound`; `Readers.calendar` is an example.

* `instant`: a wall clock at an offset as a point in time;
* `Moment.IsShownBy`: code by which PHP holds a date-time.
-/

namespace PhpLiteral

/-! ## Documents of one value -/

/-- Code that a document is written as, whatever else there is. -/
def Document.IsWrittenAs (d : Document) (code : Text) : Prop :=
  ∀ (s : Settings) (heap : Heap) (column : Nat), dump s (d.store heap).2 (d.store heap).1 column = .ok code

theorem Document.isWrittenAs_dateTime {d : DateTime} {code : Text} :
    (Document.dateTime d).IsWrittenAs code ↔ code = d.code := by
  simp only [IsWrittenAs, Document.store, dump, Value.render, Value.renderWith, Atom.code, pure, Except.pure,
    Except.ok.injEq]
  exact ⟨fun h => (h {} .empty 0).symm, fun h _ _ _ => h.symm⟩

theorem Document.isWrittenAs_text {t code : Text} : (Document.text t).IsWrittenAs code ↔ code = stringLiteral t := by
  simp only [IsWrittenAs, Document.store, dump, Value.render, Value.renderWith, Atom.code, pure, Except.pure,
    Except.ok.injEq]
  exact ⟨fun h => (h {} .empty 0).symm, fun h _ _ _ => h.symm⟩

/-- The code of a date depends on the text of its clock only. -/
theorem Document.isWrittenAs_of_text_eq {c c' : WallClock} (h : c.text = c'.text) (zone : Text) :
    (Document.dateTime ⟨true, c, zone⟩).IsWrittenAs (DateTime.code ⟨true, c', zone⟩) := by
  rw [isWrittenAs_dateTime, DateTime.code, DateTime.code, h]
  rfl

namespace Toml

open Syntax (DateCall readDate? readDate?_code readString readString_stringLiteral)

/-! ## Points in time -/

/-- The number of minutes east of UTC. -/
def Offset.east : Offset → Int
  | utc => 0
  | minutes n => n

/-- The number of days of a year. -/
def daysOfYear (year : Nat) : Nat := ((List.range' 1 12).map (daysIn year)).sum

/-- The number of days from the first day of year 0 up to a day. -/
def Date.number (d : Date) : Nat :=
  ((List.range d.year).map daysOfYear).sum + ((List.range' 1 (d.month - 1)).map (daysIn d.year)).sum + (d.day - 1)

example : (⟨1, 3, 1⟩ : Date).number = 366 + 31 + 28 := by decide

/-- The nanoseconds from the start of year 0 in UTC up to a wall clock some minutes east of UTC. A leap second counts as
the one that follows it, as clocks without leap seconds have it. -/
def instant (d : Date) (t : Time) (east : Int) : Int :=
  ((1440 * d.number + 60 * t.hour + t.minute : Nat) - east) * 60000000000 + (1000000000 * t.second + t.nanosecond : Nat)

/-- The time without what microseconds cannot hold. -/
def Time.toMicroseconds (t : Time) : Time := { t with nanosecond := t.nanosecond / 1000 * 1000 }

/-- The minutes east of UTC of a zone that is given as UTC or as an offset. -/
def zoneEast? (zone : Text) : Option Int := if zone = utf8 "UTC" then some 0 else (Offset.parse? zone).map Offset.east

/-- The point in time of a constructed date: its wall clock in its zone. -/
def instant? (c : DateCall) : Option Int :=
  match Moment.parse? c.clock, zoneEast? c.zone with
  | some (.localDateTime d t), some east => some (instant d t east)
  | _, _ => none

theorem instant_toMicroseconds (d : Date) (t : Time) (east : Int) :
    instant d t.toMicroseconds east = instant d t east / 1000 * 1000 := by
  simp only [instant, Time.toMicroseconds]
  omega

/-! ## Clocks -/

/-- A wall clock whose leap second is a second 59 that lasts longer. -/
def longClock (d : Date) (t : Time) : WallClock :=
  if t.second = 60 then ⟨d.year, d.month, d.day, t.hour, t.minute, 59, 1000000000 + t.nanosecond⟩ else wallClock d t

theorem yearText_natCast {year : Nat} (h : year < 10000) : WallClock.yearText year = paddedDecimal 4 year := by
  rw [WallClock.yearText, if_neg (by omega), if_neg (by omega), Int.natAbs_natCast, List.nil_append]

theorem text_wallClock {d : Date} {t : Time} (hd : d.IsValid) (ht : t.IsValid) :
    (wallClock d t).text =
      d.text ++ (utf8 " " ++ (t.clockText ++ utf8 "." ++ paddedDecimal 6 (t.nanosecond / 1000))) := by
  have hn := ht.nanosecond
  have h₁ : t.nanosecond / 1000000000 = 0 := by omega
  have h₂ : t.nanosecond % 1000000000 = t.nanosecond := by omega
  simp only [WallClock.text, wallClock, yearText_natCast hd.year, h₁, h₂, Date.text, Time.clockText, List.append_assoc,
    Nat.add_zero]

/-- Both forms of a leap second are written alike. -/
theorem text_longClock {d : Date} {t : Time} (ht : t.IsValid) : (longClock d t).text = (wallClock d t).text := by
  have hn := ht.nanosecond
  rw [longClock]
  split
  · rename_i hs
    have h₁ : (1000000000 + t.nanosecond) / 1000000000 = 1 := by omega
    have h₂ : t.nanosecond / 1000000000 = 0 := by omega
    have h₃ : (1000000000 + t.nanosecond) % 1000000000 = t.nanosecond % 1000000000 := by omega
    simp only [WallClock.text, wallClock, hs, h₁, h₂, h₃]
  · rfl

theorem Time.isValid_midnight : (⟨0, 0, 0, 0⟩ : Time).IsValid := ⟨by decide, by decide, by decide, by decide⟩

/-- The text of a wall clock is read as its date and its time to the microsecond. -/
theorem parse?_wallClock {d : Date} {t : Time} (hd : d.IsValid) (ht : t.IsValid) :
    Moment.parse? (wallClock d t).text = some (.localDateTime d t.toMicroseconds) := by
  rw [text_wallClock hd ht, Moment.parse?, Date.parse?_text hd, show utf8 " " = [Ascii.space] from rfl]
  simp only [List.singleton_append, or_true, if_true, Time.parse?_microseconds ht]
  rfl

/-! ## The readers of canonical texts -/

/-- Readers of the three forms of dates, and the change of a wall clock at an offset in seconds to UTC. -/
structure Readers where
  /-- A date and a time with an offset: the wall clock and the seconds east of UTC. -/
  withOffset? : Text → Option (WallClock × Int)
  /-- A date and a time. -/
  dateTime? : Text → Option WallClock
  /-- Year, month and day. -/
  date? : Text → Option (Int × Nat × Nat)
  inUtc : WallClock → Int → WallClock

namespace Readers

/-- The document of the canonical text of a moment: of the first form that it has. -/
def document (r : Readers) (t : Text) : Document :=
  match r.withOffset? t with
  | some (clock, east) =>
    if endsInZ t then .dateTime ⟨true, r.inUtc clock east, utf8 "UTC"⟩ else .dateTime ⟨true, clock, offsetZone east⟩
  | none =>
    match r.dateTime? t with
    | some clock => .dateTime ⟨true, clock, utf8 "UTC"⟩
    | none =>
      match r.date? t with
      | some (year, month, day) => .dateTime ⟨true, ⟨year, month, day, 0, 0, 0, 0⟩, utf8 "UTC"⟩
      | none => .text t

/-- Each reader takes the canonical texts of its form and no others, and a clock at no offset is one in UTC. -/
structure AreSound (r : Readers) : Prop where
  withOffset?_text {d : Date} {t : Time} {o : Offset} : d.IsValid → t.IsValid → o.IsValid →
    r.withOffset? (Moment.offsetDateTime d t o).text = some (longClock d t, 60 * o.east)
  withOffset?_localDateTime {d : Date} {t : Time} : d.IsValid → t.IsValid →
    r.withOffset? (Moment.localDateTime d t).text = none
  withOffset?_localDate {d : Date} : d.IsValid → r.withOffset? (Moment.localDate d).text = none
  withOffset?_localTime {t : Time} : t.IsValid → r.withOffset? (Moment.localTime t).text = none
  dateTime?_text {d : Date} {t : Time} : d.IsValid → t.IsValid →
    r.dateTime? (Moment.localDateTime d t).text = some (longClock d t)
  dateTime?_localDate {d : Date} : d.IsValid → r.dateTime? (Moment.localDate d).text = none
  dateTime?_localTime {t : Time} : t.IsValid → r.dateTime? (Moment.localTime t).text = none
  date?_text {d : Date} : d.IsValid → r.date? (Moment.localDate d).text = some ((d.year : Int), d.month, d.day)
  date?_localTime {t : Time} : t.IsValid → r.date? (Moment.localTime t).text = none
  inUtc_zero (clock : WallClock) : r.inUtc clock 0 = clock

/-- Readers that take exactly the date-times of TOML. Only clocks at no offset are changed to UTC. -/
def calendar : Readers where
  withOffset? t :=
    match Moment.parse? t with
    | some (.offsetDateTime d t o) => some (longClock d t, 60 * o.east)
    | _ => none
  dateTime? t :=
    match Moment.parse? t with
    | some (.localDateTime d t) => some (longClock d t)
    | _ => none
  date? t :=
    match Moment.parse? t with
    | some (.localDate d) => some (d.year, d.month, d.day)
    | _ => none
  inUtc clock _ := clock

theorem areSound_calendar : calendar.AreSound where
  withOffset?_text hd ht ho := by simp only [calendar, Moment.parse?_text (m := .offsetDateTime _ _ _) ⟨hd, ht, ho⟩]
  withOffset?_localDateTime hd ht := by simp only [calendar, Moment.parse?_text (m := .localDateTime _ _) ⟨hd, ht⟩]
  withOffset?_localDate hd := by simp only [calendar, Moment.parse?_text (m := .localDate _) hd]
  withOffset?_localTime ht := by simp only [calendar, Moment.parse?_text (m := .localTime _) ht]
  dateTime?_text hd ht := by simp only [calendar, Moment.parse?_text (m := .localDateTime _ _) ⟨hd, ht⟩]
  dateTime?_localDate hd := by simp only [calendar, Moment.parse?_text (m := .localDate _) hd]
  dateTime?_localTime ht := by simp only [calendar, Moment.parse?_text (m := .localTime _) ht]
  date?_text hd := by simp only [calendar, Moment.parse?_text (m := .localDate _) hd]
  date?_localTime ht := by simp only [calendar, Moment.parse?_text (m := .localTime _) ht]
  inUtc_zero _ := rfl

end Readers

/-! ## What is written -/

/-- PHP holds what a date-time, read in a text, stands for by means of some code. -/
def Moment.IsShownBy (w code : Text) : Moment → Prop
  | offsetDateTime d t o =>
    ∃ c, readDate? code = some c ∧ c.className = utf8 "\\DateTimeImmutable" ∧
      Moment.parse? c.clock = some (.localDateTime d t.toMicroseconds) ∧
      instant? c = some (instant d t o.east / 1000 * 1000) ∧ (c.zone = utf8 "UTC" ↔ endsInZ w = true) ∧
      (endsInZ w = false → Offset.parse? c.zone = some o ∧
        ∃ before, w = before ++ c.zone ∨ w = before ++ utf8 "-00:00" ∧ c.zone = utf8 "+00:00")
  | localDateTime d t =>
    ∃ c, readDate? code = some c ∧ c.className = utf8 "\\DateTimeImmutable" ∧
      Moment.parse? c.clock = some (.localDateTime d t.toMicroseconds) ∧ c.zone = utf8 "UTC"
  | localDate d =>
    ∃ c, readDate? code = some c ∧ c.className = utf8 "\\DateTimeImmutable" ∧
      Moment.parse? c.clock = some (.localDateTime d ⟨0, 0, 0, 0⟩) ∧ c.zone = utf8 "UTC"
  | localTime t => readString code = .closed t.text []

/-- The name of an offset other than that of UTC is its canonical text. -/
theorem Offset.zone_eq_text {o : Offset} (h : o ≠ .utc) : o.zone = o.text := by
  cases o with
  | utc => exact absurd rfl h
  | minutes n => rfl

theorem Offset.zone_eq_offsetZone {o : Offset} (h : o ≠ .utc) : o.zone = offsetZone (60 * o.east) := by
  cases o with
  | utc => exact absurd rfl h
  | minutes n => rfl

theorem Offset.text_ne_utc (o : Offset) : o.text ≠ utf8 "UTC" := by
  cases o with
  | utc => decide
  | minutes n =>
    rw [text_minutes]
    intro h
    have hh := (List.cons.inj h).1
    split at hh <;> cases hh

theorem zoneEast?_zone {o : Offset} (h : o.IsValid) : zoneEast? o.zone = some o.east := by
  cases o with
  | utc => rfl
  | minutes n =>
    have hz : (Offset.minutes n).zone = (Offset.minutes n).text := rfl
    rw [zoneEast?, hz, if_neg (Offset.text_ne_utc _), Offset.parse?_text h]
    rfl

/-- A wall clock at an offset is the one of the moment, at its offset and the same instant. -/
theorem isShownBy_offsetDateTime {w : Text} {d : Date} {t : Time} {o : Offset}
    (h : Moment.parse? w = some (.offsetDateTime d t o)) (hd : d.IsValid) (ht : t.IsValid) (ho : o.IsValid) :
    (Moment.offsetDateTime d t o).IsShownBy w (DateTime.code ⟨true, wallClock d t, o.zone⟩) := by
  obtain ⟨hz, hb⟩ := Moment.offset_of_parse? h
  have hc := parse?_wallClock hd ht
  refine ⟨_, readDate?_code _, rfl, hc, ?_, ?_, fun he => ?_⟩
  · simp only [instant?, hc, zoneEast?_zone ho, instant_toMicroseconds]
  · rw [hz]
    refine ⟨fun e => ?_, fun e => e ▸ rfl⟩
    by_contra hn
    exact Offset.text_ne_utc o (Offset.zone_eq_text hn ▸ e)
  · have hn : o ≠ .utc := fun e => by
      rw [hz.mpr e] at he
      cases he
    rw [Offset.zone_eq_text hn]
    exact ⟨Offset.parse?_text ho, hb hn⟩

/-- A wall clock without offset is the same one in UTC. -/
theorem exists_readDate?_utc {d : Date} {t : Time} (hd : d.IsValid) (ht : t.IsValid) :
    ∃ c, readDate? (DateTime.code ⟨true, wallClock d t, utf8 "UTC"⟩) = some c ∧
      c.className = utf8 "\\DateTimeImmutable" ∧
      Moment.parse? c.clock = some (.localDateTime d t.toMicroseconds) ∧ c.zone = utf8 "UTC" :=
  ⟨_, readDate?_code _, rfl, parse?_wallClock hd ht, rfl⟩

/-- The readers, one after another, make the same of the canonical text of a moment as its document. -/
theorem Readers.AreSound.isWrittenAs {r : Readers} (hr : r.AreSound) {m : Moment} (h : m.IsValid) {code : Text}
    (hc : m.document.IsWrittenAs code) : (r.document m.text).IsWrittenAs code := by
  cases m with
  | offsetDateTime d t o =>
    obtain ⟨hd, ht, ho⟩ := h
    obtain rfl := Document.isWrittenAs_dateTime.mp hc
    have hz := (Moment.offset_of_parse? (Moment.parse?_text (m := .offsetDateTime d t o) ⟨hd, ht, ho⟩)).1
    rw [document, hr.withOffset?_text hd ht ho]
    simp only
    split
    · rename_i he
      obtain rfl := hz.mp he
      rw [show 60 * Offset.utc.east = 0 from rfl, hr.inUtc_zero]
      exact Document.isWrittenAs_of_text_eq (text_longClock ht) _
    · rename_i he
      have hn : o ≠ .utc := fun e => he (hz.mpr e)
      rw [Offset.zone_eq_offsetZone hn]
      exact Document.isWrittenAs_of_text_eq (text_longClock ht) _
  | localDateTime d t =>
    obtain ⟨hd, ht⟩ := h
    obtain rfl := Document.isWrittenAs_dateTime.mp hc
    rw [document, hr.withOffset?_localDateTime hd ht, hr.dateTime?_text hd ht]
    exact Document.isWrittenAs_of_text_eq (text_longClock ht) _
  | localDate d =>
    obtain rfl := Document.isWrittenAs_dateTime.mp hc
    rw [document, hr.withOffset?_localDate h, hr.dateTime?_localDate h, hr.date?_text h]
    exact Document.isWrittenAs_of_text_eq rfl _
  | localTime t => rwa [document, hr.withOffset?_localTime h, hr.dateTime?_localTime h, hr.date?_localTime h]

/-- A date-time of a TOML text keeps its moment: read back from its canonical text by sound readers and written as
code, it is held by PHP to the microsecond. -/
theorem dump_moment {w : Text} {m : Moment} (h : Moment.parse? w = some m) {r : Readers} (hr : r.AreSound) :
    ∃ code, m.document.IsWrittenAs code ∧ (r.document m.text).IsWrittenAs code ∧ m.IsShownBy w code ∧
      Moment.parse? m.text = some m := by
  have hv := (Moment.isValid_of_parse? h).1
  have hp := Moment.parse?_text hv
  suffices hs : ∃ code, m.document.IsWrittenAs code ∧ m.IsShownBy w code by
    obtain ⟨code, hw, hs⟩ := hs
    exact ⟨code, hw, hr.isWrittenAs hv hw, hs, hp⟩
  cases m with
  | offsetDateTime d t o =>
    obtain ⟨hd, ht, ho⟩ := hv
    exact ⟨_, Document.isWrittenAs_dateTime.mpr rfl, isShownBy_offsetDateTime h hd ht ho⟩
  | localDateTime d t => exact ⟨_, Document.isWrittenAs_dateTime.mpr rfl, exists_readDate?_utc hv.1 hv.2⟩
  | localDate d => exact ⟨_, Document.isWrittenAs_dateTime.mpr rfl, exists_readDate?_utc hv Time.isValid_midnight⟩
  | localTime t =>
    have hs := readString_stringLiteral t.text []
    rw [List.append_nil] at hs
    exact ⟨_, Document.isWrittenAs_text.mpr rfl, hs⟩

/-- A leap second with a fraction, west of UTC in a year that ends later there than in UTC. -/
theorem dump_moment_leapSecond :
    let w := utf8 "2016-12-31 23:59:60.1234567-05:30"
    let m := Moment.offsetDateTime ⟨2016, 12, 31⟩ ⟨23, 59, 60, 123456700⟩ (.minutes (-330))
    Moment.parse? w = some m ∧ Readers.calendar.AreSound ∧ ∃ code, m.document.IsWrittenAs code ∧
      (Readers.calendar.document m.text).IsWrittenAs code ∧ m.IsShownBy w code ∧ Moment.parse? m.text = some m ∧
      code = utf8 "new \\DateTimeImmutable('2016-12-31 23:59:60.123456', new \\DateTimeZone('-05:30'))" := by
  intro w m
  have hp : Moment.parse? w = some m := by decide
  obtain ⟨code, hw, hr, hs, ht⟩ := dump_moment hp Readers.areSound_calendar
  refine ⟨hp, Readers.areSound_calendar, code, hw, hr, hs, ht, ?_⟩
  rw [Document.isWrittenAs_dateTime.mp hw]
  decide

end Toml

end PhpLiteral
