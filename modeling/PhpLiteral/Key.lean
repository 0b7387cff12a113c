import PhpLiteral.Text

/-!
# Array keys

An array key is an integer or a text. A text that is the canonical decimal form of a 64-bit integer names the
integer key, as in PHP: `Key.ofText` reads it, and `Key.text` writes it back.
-/

namespace PhpLiteral

/-- A key of an array. -/
inductive Key
  | int (value : Int64)
  | str (name : Text)
  deriving DecidableEq, Repr

/-- The number in canonical decimal form: a zero alone, or digits that start with no zero. -/
def canonicalNat? : Text → Option Nat
  | [Ascii.zero] => some 0
  | b :: rest => if b = Ascii.zero then none else digits? (b :: rest)
  | [] => none

/-- The integer in canonical decimal form: no plus sign, no leading zero, no minus sign before zero. -/
def canonicalInt? : Text → Option Int
  | Ascii.minus :: t =>
    match canonicalNat? t with
    | some (n + 1) => some (-(n + 1))
    | _ => none
  | t => (canonicalNat? t).map Int.ofNat

/-- The 64-bit integer of a value, if it has one. -/
def int64? (i : Int) : Option Int64 :=
  if Int64.minValue.toInt ≤ i ∧ i ≤ Int64.maxValue.toInt then some (Int64.ofInt i) else none

namespace Key

/-- The key that a text names. -/
def ofText (t : Text) : Key :=
  match (canonicalInt? t).bind int64? with
  | some i => int i
  | none => str t

/-- The integer of an integer key. -/
def int? : Key → Option Int64
  | int i => some i
  | str _ => none

/-- The key as text. -/
def text : Key → Text
  | int i => decimalInt i.toInt
  | str name => name

end Key

end PhpLiteral
