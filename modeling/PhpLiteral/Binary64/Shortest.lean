import PhpLiteral.Binary64
import PhpLiteral.Text

/-!
# The shortest decimal of a double

`Binary64.shortest` is the decimal with the fewest digits that reads back as the same double. Among those with as
many digits it is the one nearest to the double, the greater one on a tie. With `n` digits only the two neighbours
of the double on the grid of decimals with `n` digits can be that decimal, and both are tried.
-/

namespace PhpLiteral

/-- A decimal in scientific form: the number with these digits, its point after the first one, times
`10 ^ exponent`. -/
structure Decimal where
  digits : Text
  exponent : Int
  deriving DecidableEq, Repr

/-- The decimal `n * 10 ^ scale`, without zeros at its end. -/
def Decimal.ofScaled (n : Nat) (scale : Int) : Decimal :=
  let digits := decimal n
  ⟨(digits.reverse.dropWhile (· == Ascii.zero)).reverse, scale + digits.length - 1⟩

namespace Binary64

/-- Every positive double has its first digit within this number of decimal places. -/
def places : Nat := 400

/-- Whether `n * 10 ^ up` of the last of the decimal places reads back as the double of a magnitude. -/
def readsBack (magnitude n up : Nat) : Bool := nearest (n * Nat.pow 10 up) (Nat.pow 10 places) == magnitude

/-- The decimal with its last digit `up` places above the last of the decimal places that is nearest to a double
and reads back as it, if there is one. `whole` is the number of last places in the double. -/
def onGrid? (magnitude whole up : Nat) : Option Nat :=
  let below := whole / Nat.pow 10 up
  let above := below + 1
  let belowNearer := 2 * unitsOf magnitude * Nat.pow 10 places < (below + above) * Nat.pow 10 up * unit
  let nearerFirst := if belowNearer then [below, above] else [above, below]
  nearerFirst.find? (readsBack magnitude · up)

/-- The decimal of a number of digits that reads back as a double, if there is one. `length` is the number of digits
of `whole`. -/
def ofDigits? (magnitude whole length count : Nat) : Option Decimal :=
  (onGrid? magnitude whole (length - count)).map fun n => .ofScaled n (length - count - places)

/-- The exact value of a double. -/
def exactDecimal (magnitude : Nat) : Decimal := .ofScaled (unitsOf magnitude * Nat.pow 5 1074) (-1074)

/-- The shortest decimal that reads back as a finite double other than zero, its sign aside. Seventeen digits are
always enough; should they not be, the decimal is the exact value. -/
def shortest (x : Binary64) : Decimal :=
  let whole := x.units * Nat.pow 10 places / unit
  let length := (decimal whole).length
  ((List.range' 1 17).findSome? (ofDigits? x.magnitude whole length)).getD (exactDecimal x.magnitude)

end Binary64

end PhpLiteral
