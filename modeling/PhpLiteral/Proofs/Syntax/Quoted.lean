import Mathlib.Data.Bool.AllAny
import PhpLiteral.Identifier
import PhpLiteral.Proofs.Text.Utf8
import PhpLiteral.StringLiteral

/-!
# Reading string literals

How PHP reads a quoted string (`readString`), and that it reads the literal of a byte string as these bytes, up to
the closing quote and no further, whatever follows:

* `Quotes.read`: single and double quotes, with the escapes of either kind and the starts of variables;
* `read_singleQuotedBody`, `read_doubleQuoted`: what either kind of quotes holds is read back;
* `isPrintable_of_mem`: in a text of printable characters, every ASCII byte is a printable character;
* `not_mem_stringLiteral`, `mem_doubleQuotedLiteral`: a literal has no line break in it and no NUL, and one in double
  quotes is printable ASCII.
-/

namespace PhpLiteral.Syntax

/-- How the reading of a quoted string ends. -/
inductive Quotation
  /-- The string is closed: the bytes that it stands for, and what follows the closing quote. -/
  | closed (bytes rest : Text)
  /-- A variable is to be put into the string. -/
  | interpolated
  /-- The string is never closed, or an escape in it names no character. -/
  | invalid
  deriving DecidableEq, Repr

/-- The reading with more bytes before those of the string. -/
def Quotation.prepend (piece : Text) : Quotation → Quotation
  | closed bytes rest => closed (piece ++ bytes) rest
  | interpolated => interpolated
  | invalid => invalid

/-! ## Escapes -/

/-- The escapes of one byte behind the backslash: the byte, and what it stands for. -/
def escapes : List (UInt8 × UInt8) :=
  [(0x6e, Ascii.lineFeed), (0x72, Ascii.carriageReturn), (0x74, Ascii.tab), (0x76, 0x0b), (0x65, 0x1b),
    (0x66, 0x0c), (Ascii.backslash, Ascii.backslash), (Ascii.dollar, Ascii.dollar),
    (Ascii.doubleQuote, Ascii.doubleQuote)]

def isOctalDigit (b : UInt8) : Bool := 0x30 ≤ b && b ≤ 0x37

def isHexDigit (b : UInt8) : Bool := (Ascii.hexValue? b).isSome

/-- The number that digits write to a base. -/
def number (base : Nat) (digits : Text) : Nat :=
  digits.foldl (fun n b => base * n + (Ascii.hexValue? b).getD 0) 0

/-- The UTF-8 bytes of a code point, surrogates included. -/
def codePointBytes (c : Nat) : Text :=
  if c < 0x80 then [c.toUInt8]
  else if c < 0x800 then [(0xc0 + c / 64).toUInt8, (0x80 + c % 64).toUInt8]
  else if c < 0x10000 then
    [(0xe0 + c / 4096).toUInt8, (0x80 + c / 64 % 64).toUInt8, (0x80 + c % 64).toUInt8]
  else
    [(0xf0 + c / 262144).toUInt8, (0x80 + c / 4096 % 64).toUInt8, (0x80 + c / 64 % 64).toUInt8,
      (0x80 + c % 64).toUInt8]

/-- Reads the code point that follows an opening brace: its bytes, and how many bytes its digits and the closing
brace are. -/
def codePoint? (t : Text) : Option (Text × Nat) :=
  let digits := t.takeWhile isHexDigit
  if digits ≠ [] ∧ (t.drop digits.length).head? = some Ascii.closeBrace ∧ number 16 digits ≤ 0x10ffff then
    some (codePointBytes (number 16 digits), digits.length + 1)
  else none

/-- Reads what follows a backslash in single quotes, where only a quote and a backslash can be escaped: the bytes that
the escape stands for, and how many bytes it has behind the backslash. -/
def singleEscape? : Text → Option (Text × Nat)
  | [] => some ([Ascii.backslash], 0)
  | b :: _ => if b = Ascii.quote ∨ b = Ascii.backslash then some ([b], 1) else some ([Ascii.backslash], 0)

/-- The same in double quotes. An escape that PHP does not know stands for itself, backslash included. -/
def doubleEscape? : Text → Option (Text × Nat)
  | [] => some ([Ascii.backslash], 0)
  | b :: rest =>
    match escapes.lookup b with
    | some c => some ([c], 1)
    | none =>
      let octal := ((b :: rest).takeWhile isOctalDigit).take 3
      let hex := (rest.takeWhile isHexDigit).take 2
      if octal ≠ [] then some ([(number 8 octal).toUInt8], octal.length)
      else if b = 0x78 ∧ hex ≠ [] then some ([(number 16 hex).toUInt8], 1 + hex.length)
      else if b = 0x75 ∧ rest.head? = some Ascii.openBrace then
        (codePoint? rest.tail).map fun (bytes, length) => (bytes, 2 + length)
      else some ([Ascii.backslash, b], 1)

/-! ## Quotes -/

/-- Whether a byte and what follows it begin an interpolated variable: `$name`, `${` or `{$`. -/
def startsVariable (b : UInt8) (rest : Text) : Bool :=
  b == Ascii.dollar && rest.head?.any (fun c => Identifier.isStart c || c == Ascii.openBrace) ||
    b == Ascii.openBrace && rest.head? == some Ascii.dollar

/-- A kind of quotes: the closing quote, whether variables are put in, and the escapes. -/
structure Quotes where
  close : UInt8
  interpolates : Bool
  escape? : Text → Option (Text × Nat)

namespace Quotes

def single : Quotes := ⟨Ascii.quote, false, singleEscape?⟩

def double : Quotes := ⟨Ascii.doubleQuote, true, doubleEscape?⟩

/-- Reads what follows the next `skip` bytes behind an opening quote. -/
def read (q : Quotes) : (skip : Nat) → Text → Quotation
  | _, [] => .invalid
  | skip + 1, _ :: rest => q.read skip rest
  | 0, b :: rest =>
    if b = q.close then .closed [] rest
    else if q.interpolates ∧ startsVariable b rest then .interpolated
    else if b = Ascii.backslash then
      match q.escape? rest with
      | some (bytes, length) => (q.read length rest).prepend bytes
      | none => .invalid
    else (q.read 0 rest).prepend [b]

end Quotes

/-- Reads a quoted string. -/
def readString : Text → Quotation
  | [] => .invalid
  | b :: rest =>
    if b = Ascii.quote then Quotes.single.read 0 rest
    else if b = Ascii.doubleQuote then Quotes.double.read 0 rest
    else .invalid

/-! ## Reading in pieces -/

namespace Quotes

variable {q : Quotes}

theorem read_append (w rest : Text) : q.read w.length (w ++ rest) = q.read 0 rest := by
  induction w with
  | nil => rfl
  | cons b w ih => rw [← ih]; rfl

theorem read_close (rest : Text) : q.read 0 (q.close :: rest) = .closed [] rest := by
  simp [read]

/-- A byte that has no meaning of its own stands for itself. -/
theorem read_plain {b : UInt8} {rest : Text} (hc : b ≠ q.close) (hv : ¬ (q.interpolates ∧ startsVariable b rest))
    (hb : b ≠ Ascii.backslash) : q.read 0 (b :: rest) = (q.read 0 rest).prepend [b] := by
  rw [read, if_neg hc, if_neg hv, if_neg hb]

theorem read_escape {w rest bytes : Text} (hc : Ascii.backslash ≠ q.close)
    (h : q.escape? (w ++ rest) = some (bytes, w.length)) :
    q.read 0 (Ascii.backslash :: w ++ rest) = (q.read 0 rest).prepend bytes := by
  have hv : ¬ (q.interpolates ∧ startsVariable Ascii.backslash (w ++ rest)) := fun h => Bool.false_ne_true h.2
  rw [List.cons_append, read, if_neg hc, if_neg hv, if_pos rfl, h]
  simp only [read_append]

end Quotes

/-! ## Single quotes -/

theorem singleQuotedBody_cons_plain {b : UInt8} (bytes : Text) (hq : b ≠ Ascii.quote) (hb : b ≠ Ascii.backslash) :
    singleQuotedBody (b :: bytes) = b :: singleQuotedBody bytes := by
  rw [singleQuotedBody, if_neg (by simp [hq, hb])]

/-- A backslash that is not escaped is followed by a byte that no backslash escapes. -/
theorem singleEscape?_body {bytes : Text} (rest : Text) (h : escapesBackslash bytes = false) :
    singleEscape? (singleQuotedBody bytes ++ rest) = some ([Ascii.backslash], 0) := by
  cases bytes with
  | nil => cases h
  | cons b bytes =>
    simp only [escapesBackslash, Bool.or_eq_false_iff, decide_eq_false_iff_not] at h
    rw [singleQuotedBody_cons_plain bytes h.1 h.2]
    simp [singleEscape?, h.1, h.2]

theorem read_singleQuotedBody (bytes rest : Text) :
    Quotes.single.read 0 (singleQuotedBody bytes ++ Ascii.quote :: rest) = .closed bytes rest := by
  induction bytes with
  | nil => exact Quotes.read_close rest
  | cons b bytes ih =>
    have hc : Ascii.backslash ≠ Quotes.single.close := by decide
    rw [singleQuotedBody]
    split
    · rename_i h
      have hb : b = Ascii.quote ∨ b = Ascii.backslash := h.imp id And.left
      have he : Quotes.single.escape? ([b] ++ (singleQuotedBody bytes ++ Ascii.quote :: rest)) = some ([b], 1) :=
        if_pos hb
      have := Quotes.read_escape hc he
      rw [ih] at this
      exact this
    · rename_i h
      simp only [not_or, not_and, Bool.not_eq_true] at h
      by_cases hb : b = Ascii.backslash
      · subst hb
        have he : Quotes.single.escape? ([] ++ (singleQuotedBody bytes ++ Ascii.quote :: rest)) =
            some ([Ascii.backslash], 0) := singleEscape?_body _ (h.2 rfl)
        have := Quotes.read_escape hc he
        rw [ih] at this
        exact this
      · rw [List.cons_append, Quotes.read_plain h.1 (fun h => Bool.false_ne_true h.1) hb, ih]
        rfl

/-! ## Double quotes -/

theorem hexValue?_digitChar : ∀ n < 16, Ascii.hexValue? (Nat.digitChar n).toUInt8 = some n := by decide

/-- The two digits of a byte are read as this byte, also when more digits follow. -/
theorem doubleEscape?_hex2 (b : UInt8) (rest : Text) :
    doubleEscape? (0x78 :: hex2 b ++ rest) = some ([b], 3) := by
  have hb := b.toNat_lt
  have h₁ := hexValue?_digitChar (b.toNat / 16) (by omega)
  have h₂ := hexValue?_digitChar (b.toNat % 16) (by omega)
  have hx : ((hex2 b ++ rest).takeWhile isHexDigit).take 2 = hex2 b := by
    simp [hex2, isHexDigit, h₁, h₂]
  have hn : number 16 (hex2 b) = b.toNat := by
    simp only [number, hex2, List.foldl_cons, List.foldl_nil, h₁, h₂, Option.getD_some]
    omega
  have hl : escapes.lookup 0x78 = none := by decide
  have ho : ((0x78 :: (hex2 b ++ rest)).takeWhile isOctalDigit).take 3 = [] := rfl
  simp only [List.cons_append, doubleEscape?, hl, hx, ho, hn]
  simp [hex2, UInt8.ofNat_toNat]

theorem read_doubleQuotedByte (b : UInt8) {rest : Text} (h : rest.head? ≠ some Ascii.dollar) :
    Quotes.double.read 0 (doubleQuotedByte b ++ rest) = (Quotes.double.read 0 rest).prepend [b] := by
  have hc : Ascii.backslash ≠ Quotes.double.close := by decide
  unfold doubleQuotedByte
  split
  · rename_i h
    refine Quotes.read_escape (w := [b]) hc ?_
    rcases h with rfl | rfl | rfl <;> rfl
  split
  · rename_i h; subst h
    exact Quotes.read_escape (w := [0x72]) hc rfl
  split
  · rename_i h; subst h
    exact Quotes.read_escape (w := [0x6e]) hc rfl
  split
  · rename_i h; subst h
    exact Quotes.read_escape (w := [0x74]) hc rfl
  split
  · exact Quotes.read_escape (w := 0x78 :: hex2 b) hc (doubleEscape?_hex2 b rest)
  · rename_i hb _ _ _ _
    simp only [not_or] at hb
    refine Quotes.read_plain hb.2.2 ?_ hb.1
    simp [startsVariable, hb.2.1, h]

/-- A byte that does not stand for itself is written behind a backslash. -/
theorem doubleQuotedByte_cases (b : UInt8) :
    doubleQuotedByte b = [b] ∧ b ≠ Ascii.dollar ∧ 0x20 ≤ b ∧ b < 0x7f ∨
      ∃ w, doubleQuotedByte b = Ascii.backslash :: w ∧ ∀ c ∈ w, 0x20 ≤ c ∧ c < 0x7f := by
  unfold doubleQuotedByte
  split
  · rename_i h
    refine .inr ⟨[b], rfl, fun c hc => ?_⟩
    rw [List.mem_singleton.mp hc]
    rcases h with rfl | rfl | rfl <;> decide
  split
  · exact .inr ⟨[0x72], rfl, List.all_iff_forall_prop.mp (by decide)⟩
  split
  · exact .inr ⟨[0x6e], rfl, List.all_iff_forall_prop.mp (by decide)⟩
  split
  · exact .inr ⟨[0x74], rfl, List.all_iff_forall_prop.mp (by decide)⟩
  split
  · refine .inr ⟨0x78 :: hex2 b, rfl, fun c hc => ?_⟩
    have hb := b.toNat_lt
    have hd : ∀ n < 16, 0x20 ≤ (Nat.digitChar n).toUInt8 ∧ (Nat.digitChar n).toUInt8 < 0x7f := by decide
    simp only [hex2, List.mem_cons, List.not_mem_nil, or_false] at hc
    rcases hc with rfl | rfl | rfl
    · decide
    · exact hd _ (by omega)
    · exact hd _ (by omega)
  · rename_i h₁ _ _ _ h₂
    simp only [not_or, UInt8.not_lt, UInt8.not_le] at h₁ h₂
    exact .inl ⟨rfl, h₁.2.1, h₂⟩

/-- No piece of a double-quoted literal starts with a dollar sign, so that a brace before it stays a brace. -/
theorem head?_doubleQuoted (bytes rest : Text) :
    (bytes.flatMap doubleQuotedByte ++ Ascii.doubleQuote :: rest).head? ≠ some Ascii.dollar := by
  cases bytes with
  | nil =>
    show some Ascii.doubleQuote ≠ some Ascii.dollar
    decide
  | cons b bytes =>
    rw [List.flatMap_cons, List.append_assoc]
    rcases doubleQuotedByte_cases b with ⟨h, hd, -⟩ | ⟨w, h, -⟩ <;> rw [h]
    · simpa using hd
    · show some Ascii.backslash ≠ some Ascii.dollar
      decide

theorem read_doubleQuoted (bytes rest : Text) :
    Quotes.double.read 0 (bytes.flatMap doubleQuotedByte ++ Ascii.doubleQuote :: rest) = .closed bytes rest := by
  induction bytes with
  | nil => exact Quotes.read_close rest
  | cons b bytes ih =>
    rw [List.flatMap_cons, List.append_assoc, read_doubleQuotedByte b (head?_doubleQuoted bytes rest), ih]
    rfl

/-! ## Literals -/

theorem readString_stringLiteral (bytes rest : Text) :
    readString (stringLiteral bytes ++ rest) = .closed bytes rest := by
  unfold stringLiteral
  split
  · rw [List.append_assoc, List.cons_append]
    exact read_singleQuotedBody bytes rest
  · rw [List.append_assoc, List.cons_append]
    exact read_doubleQuoted bytes rest

example : readString (utf8 "\"\\x41\\103\\u\x7b44\x7d$1\";") = .closed (utf8 "ACD$1") (utf8 ";") := by decide

example : readString (utf8 "\"a$b\"") = .interpolated := by decide

/-! ## Bytes of literals -/

theorem mem_doubleQuoted {bytes : Text} {c : UInt8} (h : c ∈ bytes.flatMap doubleQuotedByte) :
    0x20 ≤ c ∧ c < 0x7f := by
  obtain ⟨b, -, hc⟩ := List.mem_flatMap.mp h
  rcases doubleQuotedByte_cases b with ⟨e, -, hb⟩ | ⟨w, e, hw⟩
  · rw [e, List.mem_singleton] at hc
    exact hc ▸ hb
  · rw [e] at hc
    rcases List.mem_cons.mp hc with rfl | hc
    · decide
    · exact hw c hc

theorem mem_singleQuotedBody {bytes : Text} {c : UInt8} (h : c ∈ singleQuotedBody bytes) :
    c ∈ bytes ∨ c = Ascii.backslash := by
  induction bytes with
  | nil => cases h
  | cons b bytes ih =>
    rw [singleQuotedBody] at h
    split at h <;> simp only [List.mem_cons] at h ⊢ <;> grind

/-- Where all characters are printable, an ASCII byte is a printable character of its own. -/
theorem isPrintable_of_decodeFrom {t : Text} {p : Option Utf8.Pending} (hp : ∀ q ∈ p, 0x80 ≤ q.low)
    (h : ∀ c ∈ Utf8.decodeFrom p t, ∃ n, c = some n ∧ isPrintable n = true) {b : UInt8} (hb : b ∈ t)
    (ha : b < 0x80) : isPrintable b.toNat = true := by
  induction t generalizing p with
  | nil => cases hb
  | cons a t ih =>
    cases p with
    | none =>
      rw [Utf8.decodeFrom] at h
      cases hf : Utf8.first a with
      | whole n =>
        rw [hf] at h
        rcases List.mem_cons.mp hb with rfl | hb
        · obtain ⟨m, e, hm⟩ := h _ List.mem_cons_self
          cases e
          rwa [Utf8.eq_of_first_whole hf] at hm
        · exact ih (by simp) (fun c hc => h c (List.mem_cons_of_mem _ hc)) hb
      | lead q =>
        rw [hf] at h
        obtain ⟨ha', hq⟩ := Utf8.le_of_first_lead hf
        rcases List.mem_cons.mp hb with rfl | hb
        · exact absurd ha (UInt8.not_lt.mpr ha')
        · exact ih (by simpa using hq) h hb
      | stray =>
        rw [hf] at h
        obtain ⟨_, e, -⟩ := h none List.mem_cons_self
        cases e
    | some q =>
      have hq : 0x80 ≤ q.low := hp q rfl
      rw [Utf8.decodeFrom] at h
      split at h
      · rename_i hr
        rcases List.mem_cons.mp hb with rfl | hb
        · exact absurd ha (UInt8.not_lt.mpr (UInt8.le_trans hq hr.1))
        · split at h
          · exact ih (by simp) (fun c hc => h c (List.mem_cons_of_mem _ hc)) hb
          · exact ih (by simp [Utf8.Pending.push]) h hb
      · obtain ⟨_, e, -⟩ := h none List.mem_cons_self
        cases e

theorem isPrintable_of_mem {bytes : Text} (h : isPrintableText bytes = true) {b : UInt8} (hb : b ∈ bytes)
    (ha : b < 0x80) : isPrintable b.toNat = true := by
  refine isPrintable_of_decodeFrom (p := none) (by simp) (fun c hc => ?_) hb ha
  have := List.all_eq_true.mp h c hc
  cases c with
  | none => cases this
  | some n => exact ⟨n, rfl, this⟩

/-- A literal has no line break in it and no NUL, whatever the byte string. -/
theorem not_mem_stringLiteral {bytes : Text} {c : UInt8} (hc : c ∈ stringLiteral bytes) :
    c ≠ Ascii.lineFeed ∧ c ≠ Ascii.carriageReturn ∧ c ≠ Ascii.nul := by
  unfold stringLiteral at hc
  split at hc
  · rename_i h
    simp only [List.mem_append, List.mem_cons, List.not_mem_nil, or_false] at hc
    have hb : c ∈ bytes ∨ c = Ascii.backslash ∨ c = Ascii.quote := by
      rcases hc with (hc | hc) | hc
      · exact .inr (.inr hc)
      · exact (mem_singleQuotedBody hc).imp id .inl
      · exact .inr (.inr hc)
    rcases hb with hb | rfl | rfl
    · have := isPrintable_of_mem h hb
      refine ⟨?_, ?_, ?_⟩ <;> rintro rfl <;> exact absurd (this (by decide)) (by decide)
    · decide
    · decide
  · simp only [List.mem_append, List.mem_cons, List.not_mem_nil, or_false] at hc
    have hb : 0x20 ≤ c := by
      rcases hc with (rfl | hc) | rfl
      · decide
      · exact (mem_doubleQuoted hc).1
      · decide
    refine ⟨?_, ?_, ?_⟩ <;> rintro rfl <;> exact absurd hb (by decide)

/-- A literal in double quotes is printable ASCII. -/
theorem mem_doubleQuotedLiteral {bytes : Text} (h : (stringLiteral bytes).head? = some Ascii.doubleQuote) {c : UInt8}
    (hc : c ∈ stringLiteral bytes) : 0x20 ≤ c ∧ c < 0x7f := by
  unfold stringLiteral at h hc
  split at h
  · cases h
  · rename_i hp
    rw [if_neg hp] at hc
    simp only [List.mem_append, List.mem_cons, List.not_mem_nil, or_false] at hc
    rcases hc with (rfl | hc) | rfl
    · decide
    · exact mem_doubleQuoted hc
    · decide

/-- The literal of a byte string is read as exactly these bytes, with no variable put in and up to its own end,
whatever follows it; it has no line break in it and no NUL, and in double quotes it is printable ASCII. -/
theorem stringLiteral_exact (bytes rest : Text) :
    readString (stringLiteral bytes ++ rest) = .closed bytes rest ∧
      (∀ c ∈ stringLiteral bytes, c ≠ Ascii.lineFeed ∧ c ≠ Ascii.carriageReturn ∧ c ≠ Ascii.nul) ∧
      ((stringLiteral bytes).head? = some Ascii.doubleQuote →
        ∀ c ∈ stringLiteral bytes, 0x20 ≤ c ∧ c < 0x7f) :=
  ⟨readString_stringLiteral bytes rest, fun _ => not_mem_stringLiteral, fun h _ => mem_doubleQuotedLiteral h⟩

end PhpLiteral.Syntax
