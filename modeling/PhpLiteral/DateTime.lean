import PhpLiteral.StringLiteral

/-!
# Dates

A date value is a wall clock, a time zone and the PHP class that is to hold it. `DateTime.code` is the expression
that builds it.
-/

namespace PhpLiteral

/-- A date and a time of day. A leap second is second 60, or second 59 with a billion nanoseconds and more. -/
structure WallClock where
  year : Int
  month : Nat
  day : Nat
  hour : Nat
  minute : Nat
  second : Nat
  nanosecond : Nat
  deriving DecidableEq, Repr

namespace WallClock

/-- Four digits, and a sign before them where the year does not lie in 0 to 9999. -/
def yearText (year : Int) : Text :=
  (if year < 0 then utf8 "-" else if 9999 < year then utf8 "+" else []) ++ paddedDecimal 4 year.natAbs

/-- Date and time to the microsecond, the rest of the nanoseconds cut off. -/
def text (c : WallClock) : Text :=
  yearText c.year ++ utf8 "-" ++ paddedDecimal 2 c.month ++ utf8 "-" ++ paddedDecimal 2 c.day ++ utf8 " " ++
    paddedDecimal 2 c.hour ++ utf8 ":" ++ paddedDecimal 2 c.minute ++ utf8 ":" ++
    paddedDecimal 2 (c.second + c.nanosecond / 1000000000) ++ utf8 "." ++
    paddedDecimal 6 (c.nanosecond % 1000000000 / 1000)

end WallClock

/-- The name of the zone a fixed number of seconds east of UTC: hours and minutes, and seconds if there are any. -/
def offsetZone (seconds : Int) : Text :=
  let n := seconds.natAbs
  (if seconds < 0 then utf8 "-" else utf8 "+") ++ paddedDecimal 2 (n / 3600) ++ utf8 ":" ++
    paddedDecimal 2 (n / 60 % 60) ++ (if n % 60 = 0 then [] else utf8 ":" ++ paddedDecimal 2 (n % 60))

/-- A date value. -/
structure DateTime where
  isImmutable : Bool
  clock : WallClock
  zone : Text
  deriving DecidableEq, Repr

namespace DateTime

/-- The class that holds the date. -/
def className (d : DateTime) : Text := if d.isImmutable then utf8 "DateTimeImmutable" else utf8 "DateTime"

/-- The expression that builds the date. -/
def code (d : DateTime) : Text :=
  utf8 "new \\" ++ d.className ++ utf8 "(" ++ stringLiteral d.clock.text ++ utf8 ", new \\DateTimeZone(" ++
    stringLiteral d.zone ++ utf8 "))"

end DateTime

end PhpLiteral
