import PhpLiteral.Document

/-!
# Dates and times in TOML

A TOML date-time (`Toml.Moment`) is a date, a time, or both with or without an offset from UTC. `Moment.parse?`
reads one, with all parts checked against the calendar and the clock; second 60 is a leap second. As a document
(`Moment.document`), a date is a wall clock in UTC or at its own offset, and a time alone is a text.
-/

namespace PhpLiteral.Toml

/-- A day of the calendar. -/
structure Date where
  year : Nat
  month : Nat
  day : Nat
  deriving DecidableEq, Repr

/-- A time of day. -/
structure Time where
  hour : Nat
  minute : Nat
  second : Nat
  nanosecond : Nat
  deriving DecidableEq, Repr

/-- An offset from UTC. -/
inductive Offset
  | utc
  /-- A number of minutes east. -/
  | minutes (n : Int)
  deriving DecidableEq, Repr

/-- A date, a time or both. -/
inductive Moment
  | offsetDateTime (d : Date) (t : Time) (o : Offset)
  | localDateTime (d : Date) (t : Time)
  | localDate (d : Date)
  | localTime (t : Time)
  deriving DecidableEq, Repr

/-! ## Reading -/

/-- The number that exactly `count` digits at the start of a text write, and the rest of the text. -/
def digitsOf? (count : Nat) (t : Text) : Option (Nat × Text) :=
  if t.length < count then none else (digits? (t.take count)).map fun n => (n, t.drop count)

/-- The rest of a text that starts with a byte. -/
def after? (b : UInt8) : Text → Option Text
  | c :: rest => if c = b then some rest else none
  | [] => none

/-- The number of days of a month. -/
def daysIn (year month : Nat) : Nat :=
  if month = 2 then if year % 4 = 0 ∧ (year % 100 ≠ 0 ∨ year % 400 = 0) then 29 else 28
  else if month = 4 ∨ month = 6 ∨ month = 9 ∨ month = 11 then 30
  else 31

/-- The date that a text starts with, and the rest of the text. -/
def Date.parse? (t : Text) : Option (Date × Text) := do
  let (year, t) ← digitsOf? 4 t
  let (month, t) ← digitsOf? 2 (← after? Ascii.minus t)
  let (day, t) ← digitsOf? 2 (← after? Ascii.minus t)
  if 1 ≤ month ∧ month ≤ 12 ∧ 1 ≤ day ∧ day ≤ daysIn year month then some (⟨year, month, day⟩, t) else none

/-- The nanoseconds of a fraction of a second, which needs a digit; digits behind the ninth count for nothing. -/
def nanoseconds? (t : Text) : Option (Nat × Text) :=
  let digits := t.takeWhile Ascii.isDigit
  (digits? ((digits ++ List.replicate 9 Ascii.zero).take 9)).bind fun n =>
    if digits.isEmpty then none else some (n, t.drop digits.length)

/-- The time that a text starts with, and the rest of the text. Seconds can be left out. -/
def Time.parse? (t : Text) : Option (Time × Text) := do
  let (hour, t) ← digitsOf? 2 t
  let (minute, t) ← digitsOf? 2 (← after? Ascii.colon t)
  if 23 < hour ∨ 59 < minute then none
  else
    match after? Ascii.colon t with
    | none => some (⟨hour, minute, 0, 0⟩, t)
    | some t => do
      let (second, t) ← digitsOf? 2 t
      if 60 < second then none
      else
        match after? Ascii.dot t with
        | none => some (⟨hour, minute, second, 0⟩, t)
        | some t => do
          let (nanosecond, t) ← nanoseconds? t
          some (⟨hour, minute, second, nanosecond⟩, t)

/-- The offset that a whole text writes. -/
def Offset.parse? : Text → Option Offset
  | b :: rest =>
    if (b = 0x5a ∨ b = 0x7a) ∧ rest = [] then some .utc
    else if b = Ascii.plus ∨ b = Ascii.minus then do
      let (h, t) ← digitsOf? 2 rest
      let (m, t) ← digitsOf? 2 (← after? Ascii.colon t)
      let n : Int := (60 * h + m : Nat)
      if h ≤ 23 ∧ m ≤ 59 ∧ t = [] then some (.minutes (if b = Ascii.minus then -n else n)) else none
    else none
  | [] => none

/-- The moment that a whole text writes. A `T` of either case or a space stands between date and time. -/
def Moment.parse? (t : Text) : Option Moment :=
  match Date.parse? t with
  | some (date, []) => some (.localDate date)
  | some (date, b :: rest) =>
    if b = 0x54 ∨ b = 0x74 ∨ b = Ascii.space then
      match Time.parse? rest with
      | some (time, []) => some (.localDateTime date time)
      | some (time, t) => (Offset.parse? t).map (.offsetDateTime date time)
      | none => none
    else none
  | none =>
    match Time.parse? t with
    | some (time, []) => some (.localTime time)
    | _ => none

/-! ## As documents -/

/-- The canonical text of a time: the fraction only if there is one, without zeros at its end. -/
def Time.text (t : Time) : Text :=
  paddedDecimal 2 t.hour ++ utf8 ":" ++ paddedDecimal 2 t.minute ++ utf8 ":" ++ paddedDecimal 2 t.second ++
    if t.nanosecond = 0 then []
    else utf8 "." ++ ((paddedDecimal 9 t.nanosecond).reverse.dropWhile (· == Ascii.zero)).reverse

/-- The wall clock of a date and a time. -/
def wallClock (d : Date) (t : Time) : WallClock :=
  ⟨d.year, d.month, d.day, t.hour, t.minute, t.second, t.nanosecond⟩

/-- The name of an offset as a time zone. -/
def Offset.zone : Offset → Text
  | utc => utf8 "UTC"
  | minutes n => offsetZone (60 * n)

/-- The document of a moment. -/
def Moment.document : Moment → Document
  | offsetDateTime d t o => .dateTime ⟨true, wallClock d t, o.zone⟩
  | localDateTime d t => .dateTime ⟨true, wallClock d t, utf8 "UTC"⟩
  | localDate d => .dateTime ⟨true, wallClock d ⟨0, 0, 0, 0⟩, utf8 "UTC"⟩
  | localTime t => .text t.text

end PhpLiteral.Toml
