import PhpLiteral.Text

/-!
# UTF-8

A reader of UTF-8 that never fails: `Utf8.decode` gives one entry for every code point and one `none` for every
longest piece that is no UTF-8, that is for a byte that starts no character, or for the start of a character
together with as many of its continuation bytes as are there.

* `Utf8.isValid`: the bytes are UTF-8 throughout;
* `Utf8.chars`: the characters, with `U+FFFD` for every piece that is no UTF-8;
* `Utf8.encode`: the bytes of a code point.
-/

namespace PhpLiteral.Utf8

/-- A character that has begun: how many bytes it still needs, the range of the next one, and its value so far. -/
structure Pending where
  owed : Nat
  low : UInt8
  high : UInt8
  value : Nat
  deriving DecidableEq, Repr

/-- What a byte means where a character may begin. -/
inductive First
  /-- The byte is a whole character. -/
  | whole (value : Nat)
  /-- The byte begins a character of several bytes. -/
  | lead (pending : Pending)
  /-- No character begins with the byte. -/
  | stray
  deriving DecidableEq, Repr

/-- The second byte of a character is narrowed so that no character is written longer than needed, is a surrogate
or lies above `U+10FFFF`. -/
def first (b : UInt8) : First :=
  if b ≤ 0x7f then .whole b.toNat
  else if b ≤ 0xc1 then .stray
  else if b ≤ 0xdf then .lead ⟨1, 0x80, 0xbf, b.toNat - 0xc0⟩
  else if b = 0xe0 then .lead ⟨2, 0xa0, 0xbf, 0⟩
  else if b = 0xed then .lead ⟨2, 0x80, 0x9f, 0xd⟩
  else if b ≤ 0xef then .lead ⟨2, 0x80, 0xbf, b.toNat - 0xe0⟩
  else if b = 0xf0 then .lead ⟨3, 0x90, 0xbf, 0⟩
  else if b ≤ 0xf3 then .lead ⟨3, 0x80, 0xbf, b.toNat - 0xf0⟩
  else if b = 0xf4 then .lead ⟨3, 0x80, 0x8f, 4⟩
  else .stray

/-- The character after one more continuation byte. -/
def Pending.push (p : Pending) (b : UInt8) : Pending :=
  ⟨p.owed - 1, 0x80, 0xbf, 64 * p.value + (b.toNat - 0x80)⟩

/-- The code points of a text that goes on with a pending character, if there is one. -/
def decodeFrom : Option Pending → Text → List (Option Nat)
  | none, [] => []
  | some _, [] => [none]
  | none, b :: rest =>
    match first b with
    | .whole value => some value :: decodeFrom none rest
    | .lead pending => decodeFrom (some pending) rest
    | .stray => none :: decodeFrom none rest
  | some p, b :: rest =>
    if p.low ≤ b ∧ b ≤ p.high then
      if p.owed ≤ 1 then some (p.push b).value :: decodeFrom none rest
      else decodeFrom (some (p.push b)) rest
    else
      none ::
        match first b with
        | .whole value => some value :: decodeFrom none rest
        | .lead pending => decodeFrom (some pending) rest
        | .stray => none :: decodeFrom none rest

/-- The code points of a text, with `none` for every longest piece that is no UTF-8. -/
def decode (t : Text) : List (Option Nat) := decodeFrom none t

/-- Whether all bytes of a text belong to characters. -/
def isValid (t : Text) : Bool := (decode t).all Option.isSome

/-- The code point that stands for a piece that is no UTF-8. -/
def replacement : Nat := 0xfffd

/-- The characters of a text, with `U+FFFD` for every piece that is no UTF-8. -/
def chars (t : Text) : List Char := (decode t).map fun c => Char.ofNat (c.getD replacement)

/-- The text as a string, with `U+FFFD` for every piece that is no UTF-8. -/
def toString (t : Text) : String := String.ofList (chars t)

/-- The bytes of a code point. -/
def encode (c : Nat) : Text := String.utf8EncodeChar (Char.ofNat c)

end PhpLiteral.Utf8
