import PhpLiteral.Proofs.Syntax.Lexeme
import PhpLiteral.Proofs.Text.Decimal
import PhpLiteral.Toml
import PhpLiteral.Toml.Written

/-!
# Values that are written as TOML

What is written for a number or a string is one lexeme, and its value is this number or string (`Writes`).

* `scalar?_decimal`: the decimal digits of a number are read as an integer of this size, however great it is;
* `shortBody?_escapedBody`: every text is read back from double quotes, whatever escapes it needs;
* `writes_writtenString`: a text that is free of quotes and line feeds is read back from what is written for it.
-/

namespace PhpLiteral.Toml

open Syntax (takeWhile_append_of_stops)

/-! ## Numbers -/

theorem hexValue?_of_isDigit {b : UInt8} (h : Ascii.isDigit b = true) :
    Ascii.hexValue? b = some (b.toNat - 0x30) := if_pos h

theorem grouped?_of_isDigit {t : Text} (ht : ∀ b ∈ t, Ascii.isDigit b = true) {n : Nat} {afterDigit : Bool}
    (h : t = [] → afterDigit = true) : grouped? 10 n afterDigit t = digitsFrom? n t := by
  induction t generalizing n afterDigit with
  | nil => rw [grouped?, h rfl, if_pos rfl, digitsFrom?]
  | cons b t ih =>
    rw [List.forall_mem_cons] at ht
    have hu : b ≠ Ascii.underscore := by
      rintro rfl
      exact absurd ht.1 (by decide)
    rw [grouped?, if_neg hu, hexValue?_of_isDigit ht.1, digitsFrom?, if_pos ht.1, Nat.mul_comm n 10]
    exact (if_pos (decimal_of_isDigit ht.1).1).trans (ih ht.2 fun _ => rfl)

theorem decimalNat?_decimal (n : Nat) : decimalNat? (decimal n) = some n := by
  have hd := digits?_decimal n
  have hz : ¬ ((decimal n).head? = some Ascii.zero ∧ (decimal n).length ≠ 1) := by
    by_cases hn : n = 0
    · subst hn
      decide
    · exact fun h => head?_decimal hn h.1
  rw [decimalNat?, if_neg hz,
    grouped?_of_isDigit (fun _ => isDigit_of_mem_decimal) fun h => absurd h (decimal_ne_nil n)]
  rwa [digits?.eq_2 _ (decimal_ne_nil n)] at hd

theorem int?_decimal {n : Nat} (hn : n ≠ 0) : int? (decimal n) = some (n : Int) := by
  have hz := head?_decimal hn
  have hd := decimalNat?_decimal n
  have hm : ∀ b ∈ decimal n, Ascii.isDigit b = true := fun _ => isDigit_of_mem_decimal
  have hs : signed (decimal n) = (false, decimal n) := by
    unfold signed
    split
    · rename_i e
      exact absurd (hm Ascii.minus (e ▸ List.mem_cons_self)) (by decide)
    · rename_i e
      exact absurd (hm Ascii.plus (e ▸ List.mem_cons_self)) (by decide)
    · rfl
  unfold int?
  split
  case h_4 => simp [hs, hd]
  all_goals
    rename_i e
    rw [e] at hz
    exact absurd rfl hz

/-- The digits of a number are read as an integer. -/
theorem scalar?_decimal {n : Nat} (hn : n ≠ 0) : scalar? (decimal n) = some (.int n) := by
  have hw : ∀ t : Text, t.all Ascii.isDigit = false → decimal n ≠ t := by
    rintro t ht rfl
    rw [List.all_eq_true.mpr fun _ => isDigit_of_mem_decimal] at ht
    cases ht
  rw [scalar?, if_neg (hw _ (by decide)), if_neg (hw _ (by decide)), int?_decimal hn]

/-! ## Words -/

/-- A byte of a word starts no other lexeme. -/
theorem lexeme?_word {w rest : Text} (hw : ∀ b ∈ w, isWordByte b = true) (hn : w ≠ [])
    (hr : ∀ b ∈ rest.head?, isWordByte b = false) : lexeme? (w ++ rest) = some (.word w, w.length) := by
  obtain ⟨b, w, rfl⟩ := List.exists_cons_of_ne_nil hn
  have hb := hw b List.mem_cons_self
  have ht := takeWhile_append_of_stops hw hr
  simp only [isWordByte, Bool.not_eq_true', List.contains_eq_mem, decide_eq_false_iff_not, List.mem_cons,
    List.not_mem_nil, or_false, not_or] at hb
  rw [List.cons_append] at ht ⊢
  simp [lexeme?, ht, hb, isBlank, Ascii.isBreak]

/-! ## Strings in double quotes -/

/-- The bytes that are skipped count for the width. -/
theorem shortBody?_skip (quote : UInt8) (hasEscapes : Bool) (w rest : Text) :
    shortBody? quote hasEscapes w.length (w ++ rest) =
      (shortBody? quote hasEscapes 0 rest).map fun (t, width) => (t, width + w.length) := by
  induction w with
  | nil => simp
  | cons b w ih =>
    rw [List.length_cons, List.cons_append, shortBody?, ih, Option.map_map]
    rfl

theorem codePoint?_append {w : Text} (rest : Text) : codePoint? w.length (w ++ rest) = codePoint? w.length w := by
  have hl : ¬ (w ++ rest).length < w.length := by
    rw [List.length_append]
    omega
  rw [codePoint?, codePoint?, if_neg hl, if_neg (Nat.lt_irrefl _), List.take_left, List.take_length]

/-- The four digits behind `\\u` name the byte that they are made of. -/
theorem codePoint?_hex2 : ∀ n < 128, codePoint? 4 (utf8 "00" ++ (hex2 n.toUInt8).map fun d =>
    if 0x61 ≤ d then d - 0x20 else d) = some ([n.toUInt8], 5) := by decide

/-- A byte stands for itself in double quotes, or it is written as an escape that stands for it. -/
theorem escapedByte_cases (b : UInt8) :
    escapedByte b = [b] ∧ isControl b = false ∧ b ≠ Ascii.backslash ∨
      ∃ w, escapedByte b = Ascii.backslash :: w ∧ ∀ rest, escape? (w ++ rest) = some ([b], w.length) := by
  unfold escapedByte
  split
  · subst b; exact .inr ⟨[0x62], rfl, fun _ => rfl⟩
  split
  · subst b; exact .inr ⟨[0x74], rfl, fun _ => rfl⟩
  split
  · subst b; exact .inr ⟨[0x6e], rfl, fun _ => rfl⟩
  split
  · subst b; exact .inr ⟨[0x66], rfl, fun _ => rfl⟩
  split
  · subst b; exact .inr ⟨[0x72], rfl, fun _ => rfl⟩
  split
  · subst b; exact .inr ⟨[Ascii.backslash], rfl, fun _ => rfl⟩
  split
  · rename_i hb
    have hlt : b.toNat < 128 := by
      rcases hb with hb | rfl
      · have := UInt8.lt_iff_toNat_lt.mp hb
        exact Nat.lt_trans this (by decide)
      · decide
    have hc := codePoint?_hex2 b.toNat hlt
    rw [show b.toNat.toUInt8 = b from UInt8.ofNat_toNat] at hc
    refine .inr ⟨0x75 :: (utf8 "00" ++ (hex2 b).map fun d => if 0x61 ≤ d then d - 0x20 else d), rfl, fun rest => ?_⟩
    exact (codePoint?_append rest).trans hc
  · rename_i hb
    rw [not_or] at hb
    refine .inl ⟨rfl, ?_, ‹_›⟩
    simp [isControl, hb.1, hb.2]

/-- What an escape stands for comes before the rest of the string. -/
theorem shortBody?_escape {w piece rest : Text} (he : escape? (w ++ rest) = some (piece, w.length)) :
    shortBody? Ascii.doubleQuote true 0 (Ascii.backslash :: (w ++ rest)) =
      (shortBody? Ascii.doubleQuote true 0 rest).map fun (t, width) => (piece ++ t, width + (w.length + 1)) := by
  rw [shortBody?, if_neg (by decide), if_neg (by decide), if_pos (by decide), he]
  show (shortBody? _ _ w.length (w ++ rest)).bind _ = _
  rw [shortBody?_skip]
  cases shortBody? Ascii.doubleQuote true 0 rest <;> rfl

theorem shortBody?_escapedByte {b : UInt8} (hb : b ≠ Ascii.doubleQuote) (rest : Text) :
    shortBody? Ascii.doubleQuote true 0 (escapedByte b ++ rest) =
      (shortBody? Ascii.doubleQuote true 0 rest).map fun (t, width) => (b :: t, width + (escapedByte b).length) := by
  obtain ⟨e, hc, hs⟩ | ⟨w, e, he⟩ := escapedByte_cases b
  · rw [e, List.singleton_append, shortBody?, if_neg hb, hc, if_neg Bool.false_ne_true]
    simp [hs]
  · rw [e, List.cons_append, shortBody?_escape (he rest)]
    rfl

/-- Every text is read back from double quotes. -/
theorem shortBody?_escapedBody (t rest : Text) :
    shortBody? Ascii.doubleQuote true 0 (escapedBody false 0 t ++ Ascii.doubleQuote :: rest) =
      some (t, (escapedBody false 0 t).length + 1) := by
  induction t with
  | nil => rfl
  | cons b t ih =>
    rw [escapedBody, Bool.false_and, Bool.false_and, if_neg Bool.false_ne_true, if_neg Bool.false_ne_true]
    split
    · subst b
      have he : escape? ([Ascii.doubleQuote] ++ (escapedBody false 0 t ++ Ascii.doubleQuote :: rest)) =
          some ([Ascii.doubleQuote], 1) := rfl
      have := shortBody?_escape he
      rw [ih] at this
      simpa using this
    · rename_i hb
      rw [List.append_assoc, shortBody?_escapedByte hb, ih, Option.map_some, List.length_append, Option.some.injEq,
        Prod.mk.injEq, eq_self, true_and]
      omega

/-! ## Strings in single quotes -/

/-- A text without single quotes and control characters stands for itself in single quotes. -/
theorem shortBody?_literal {t : Text} (ht : ∀ b ∈ t, b ≠ Ascii.quote ∧ isControl b = false) (rest : Text) :
    shortBody? Ascii.quote false 0 (t ++ Ascii.quote :: rest) = some (t, t.length + 1) := by
  induction t with
  | nil => rfl
  | cons b t ih =>
    rw [List.forall_mem_cons] at ht
    rw [List.cons_append, shortBody?, if_neg ht.1.1, ht.1.2, if_neg Bool.false_ne_true, Bool.false_and,
      if_neg Bool.false_ne_true, ih ht.2]
    rfl

/-! ## Strings as lexemes -/

/-- A string whose content ends at the quote that was put behind it is no string in triple quotes, unless quotes
follow. -/
theorem string?_append {quote : UInt8} {hasEscapes : Bool} {content rest t : Text}
    (hb : shortBody? quote hasEscapes 0 (content ++ quote :: rest) = some (t, content.length + 1))
    (hr : rest.head? ≠ some quote) :
    string? quote hasEscapes (content ++ quote :: rest) = some (.string t, content.length + 2) := by
  have hp : [quote, quote].isPrefixOf (content ++ quote :: rest) = false := by
    cases content with
    | nil =>
      cases rest with
      | nil => simp
      | cons c rest =>
        have : quote ≠ c := fun e => hr (congrArg some e.symm)
        simp [List.isPrefixOf, this]
    | cons c content =>
      -- A quote at the start would close the string there.
      have : quote ≠ c := by
        rintro rfl
        rw [List.cons_append, shortBody?, if_pos rfl] at hb
        simp at hb
      simp [List.isPrefixOf, this]
  rw [string?, hp, if_neg Bool.false_ne_true, hb]
  rfl

theorem lexeme?_basicString (t : Text) {rest : Text} (hr : rest.head? ≠ some Ascii.doubleQuote) :
    lexeme? (basicString false t ++ rest) = some (.string t, (basicString false t).length) := by
  have he : basicString false t = Ascii.doubleQuote :: (escapedBody false 0 t ++ [Ascii.doubleQuote]) := by
    simp [basicString, enclosed]
  rw [he, List.cons_append, List.append_assoc, List.singleton_append]
  refine (string?_append (shortBody?_escapedBody t rest) hr).trans ?_
  simp

theorem lexeme?_literalString {t : Text} (ht : ∀ b ∈ t, b ≠ Ascii.quote ∧ isControl b = false) {rest : Text}
    (hr : rest.head? ≠ some Ascii.quote) :
    lexeme? (literalString false t ++ rest) = some (.string t, (literalString false t).length) := by
  have he : literalString false t = Ascii.quote :: (t ++ [Ascii.quote]) := by
    simp [literalString, enclosed]
  rw [he, List.cons_append, List.append_assoc, List.singleton_append]
  refine (string?_append (shortBody?_literal ht rest) hr).trans ?_
  simp

/-! ## Which form is chosen -/

theorem longestRun_of_not_mem {b : UInt8} {t : Text} (h : b ∉ t) : longestRun b t = 0 := by
  unfold longestRun
  induction t with
  | nil => rfl
  | cons c t ih =>
    rw [List.mem_cons, not_or] at h
    rw [List.foldl_cons]
    simp only [if_neg (Ne.symm h.1)]
    exact ih h.2

/-- A text that is free of quotes and line feeds is written in double quotes, or in single quotes if nothing in it is
escaped. -/
theorem writtenString_cases {t : Text} (hq : Ascii.quote ∉ t) (hd : Ascii.doubleQuote ∉ t) (hl : Ascii.lineFeed ∉ t) :
    writtenString t = basicString false t ∨
      writtenString t = literalString false t ∧ ∀ b ∈ t, needsEscape b = false := by
  have hf : t.contains Ascii.lineFeed = false := by simpa using hl
  have hp : (!t.any needsEscape) = true → ∀ b ∈ t, needsEscape b = false := by simp
  simp only [writtenString, longestRun_of_not_mem hq, longestRun_of_not_mem hd, hf]
  cases hn : !t.any needsEscape with
  | false => exact .inl rfl
  | true =>
    cases t.contains Ascii.backslash with
    | false => exact .inl rfl
    | true => exact .inr ⟨rfl, hp hn⟩

/-! ## Values -/

/-- A lexeme is a whole value. -/
inductive IsValue : Lexeme → Item → Prop
  | word {t : Text} {item : Item} : scalar? t = some item → IsValue (.word t) item
  | string (t : Text) : IsValue (.string t) (.text t)

/-- A text at the end of a line is one lexeme, whose value is an item. -/
def Writes (v : Text) (item : Item) : Prop :=
  ∃ lexeme, IsValue lexeme item ∧ ∀ rest, lexeme? (v ++ Ascii.lineFeed :: rest) = some (lexeme, v.length)

theorem writes_decimal {n : Nat} (hn : n ≠ 0) : Writes (decimal n) (.int n) := by
  have hw : ∀ b ∈ decimal n, isWordByte b = true := fun b hb => by
    have := isDigit_of_mem_decimal hb
    simp only [Ascii.isDigit, Bool.and_eq_true, decide_eq_true_eq] at this
    simp only [isWordByte, Bool.not_eq_true', List.contains_eq_mem, decide_eq_false_iff_not, List.mem_cons,
      List.not_mem_nil, or_false]
    rintro (rfl | rfl | rfl | rfl | rfl | rfl | rfl | rfl | rfl | rfl | rfl | rfl | rfl | rfl) <;>
      revert this <;> decide
  refine ⟨_, .word (scalar?_decimal hn), fun rest => lexeme?_word hw (decimal_ne_nil n) ?_⟩
  rintro b ⟨⟩
  rfl

theorem writes_writtenString {t : Text} (hq : Ascii.quote ∉ t) (hd : Ascii.doubleQuote ∉ t)
    (hl : Ascii.lineFeed ∉ t) : Writes (writtenString t) (.text t) := by
  refine ⟨_, .string t, fun rest => ?_⟩
  obtain e | ⟨e, hn⟩ := writtenString_cases hq hd hl
  · rw [e]
    exact lexeme?_basicString t (by rw [List.head?_cons]; decide)
  · rw [e]
    refine lexeme?_literalString (fun b hb => ⟨fun e => hq (e ▸ hb), ?_⟩) (by rw [List.head?_cons]; decide)
    have := hn b hb
    have hne : b ≠ Ascii.lineFeed := fun e => hl (e ▸ hb)
    simpa [needsEscape, isControl, hne] using this

end PhpLiteral.Toml
