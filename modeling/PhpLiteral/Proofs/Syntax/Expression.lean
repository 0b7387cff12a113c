import PhpLiteral.Association
import PhpLiteral.NumberLiteral
import PhpLiteral.Proofs.Syntax.Lexeme
import PhpLiteral.Proofs.Text.Key

/-!
# Reading constant expressions

What PHP makes of a constant expression of nulls, booleans, integers, strings and arrays: `readExpression` reads a
text as `Data`. Entries of an array without a key are numbered by one of PHP's two rules (`Indexing`). Lexemes that
are read as a value may be put together:

* `Parses`: lexemes are read as a value, whatever follows them but a minus sign;
* `ParsesEntry`: lexemes are read as one more entry of an array;
* `readEntries_entry`: an entry is read, and then what separates it from the next one.
-/

namespace PhpLiteral.Syntax

/-- A value without objects. -/
inductive Data
  | null
  | bool (b : Bool)
  | int (i : Int64)
  | string (bytes : Text)
  | array (entries : List (Key × Data))

/-- The key that a value stands for before an arrow. -/
def Data.key? : Data → Option Key
  | null => some (.str [])
  | bool b => some (.int (if b then 1 else 0))
  | int i => some (.int i)
  | string bytes => some (.ofText bytes)
  | array _ => none

/-! ## Numbering of entries -/

/-- The greatest integer key. -/
def greatest? (keys : List Key) : Option Int := (keys.filterMap fun k => k.int?.map Int64.toInt).max?

/-- How an entry without a key is numbered: behind the greatest integer key, as PHP does since 8.3, or behind the
greatest one that is not negative, as PHP did before. -/
inductive Indexing
  | behindGreatest
  | nonNegative
  deriving DecidableEq, Repr

/-- The integer behind the greatest one. -/
def Indexing.behind : Indexing → Int → Int
  | behindGreatest, i => i + 1
  | nonNegative, i => max 0 (i + 1)

/-- The index of an entry without a key, if there is an integer left for it. -/
def Indexing.next? (r : Indexing) (keys : List Key) : Option Int64 :=
  match greatest? keys with
  | none => some 0
  | some i => int64? (r.behind i)

/-! ## Reading -/

/-- The constant of a name. -/
def constant? (t : Text) : Option Data :=
  let name := t.map Ascii.toLower
  if name = utf8 "null" then some .null
  else if name = utf8 "true" then some (.bool true)
  else if name = utf8 "false" then some (.bool false)
  else none

/-- The integer that digits write. Digits that lead with a zero are no decimal number, and a number above the
greatest integer is a double. -/
def natural? (t : Text) : Option Int :=
  (canonicalNat? t).bind fun n => if (n : Int) ≤ Int64.maxValue.toInt then some n else none

/-- Reads a number, perhaps with a sign. -/
def readOperand : List Lexeme → Option (Int × List Lexeme)
  | .minus :: .number t :: rest => (natural? t).map fun n => (-n, rest)
  | .number t :: rest => (natural? t).map fun n => (n, rest)
  | _ => none

/-- Reads a number, or the difference of two. -/
def readInteger (ls : List Lexeme) : Option (Data × List Lexeme) := do
  let (a, ls) ← readOperand ls
  match ls with
  | .minus :: .number t :: rest =>
    let b ← natural? t
    let i ← int64? (a - b)
    return (.int i, rest)
  | _ =>
    let i ← int64? a
    return (.int i, ls)

/-- Reads an entry of an array, given how its values are read and the entries before it. A key that is there already
keeps its place and takes the new value. -/
def readEntry (r : Indexing) (read : List Lexeme → Option (Data × List Lexeme)) (entries : List (Key × Data))
    (ls : List Lexeme) : Option (List (Key × Data) × List Lexeme) := do
  let (first, ls) ← read ls
  match ls with
  | .arrow :: rest =>
    let key ← first.key?
    let (value, rest) ← read rest
    return (Association.put key value entries, rest)
  | _ =>
    let i ← r.next? (entries.map Prod.fst)
    return (Association.put (.int i) first entries, ls)

/-- Reads what follows an entry of an array, given how further entries are read. -/
def readTail (next : List (Key × Data) → List Lexeme → Option (List (Key × Data) × List Lexeme))
    (entries : List (Key × Data)) : List Lexeme → Option (List (Key × Data) × List Lexeme)
  | .closeBracket :: rest => some (entries, rest)
  | .comma :: rest => next entries rest
  | _ => none

mutual

/-- Reads a value. The fuel bounds the lexemes that it may have. -/
def readValue (r : Indexing) : (fuel : Nat) → List Lexeme → Option (Data × List Lexeme)
  | 0, _ => none
  | fuel + 1, ls =>
    match ls with
    | .openBracket :: rest => (readEntries r fuel [] rest).map fun (entries, rest) => (.array entries, rest)
    | .string bytes :: rest => some (.string bytes, rest)
    | .name t :: rest => (constant? t).map fun d => (d, rest)
    | _ => readInteger ls

/-- Reads the entries of an array behind those that are read already, up to the closing bracket. -/
def readEntries (r : Indexing) : (fuel : Nat) → List (Key × Data) → List Lexeme →
    Option (List (Key × Data) × List Lexeme)
  | 0, _, _ => none
  | fuel + 1, entries, ls =>
    match ls with
    | .closeBracket :: rest => some (entries, rest)
    | _ =>
      (readEntry r (readValue r fuel) entries ls).bind fun (entries, ls) =>
        readTail (readEntries r fuel) entries ls

end

/-- The value of a text that is a constant expression throughout. -/
def readExpression (r : Indexing) (t : Text) : Option Data := do
  let ls ← lex t
  match ← readValue r ls.length ls with
  | (d, []) => some d
  | _ => none

/-! ## Lexemes that are read as values -/

variable {r : Indexing}

/-- The lexemes are read as a value, whatever follows but a minus sign. -/
def Parses (r : Indexing) (ls : List Lexeme) (d : Data) : Prop :=
  ∀ rest fuel, ls.length ≤ fuel → rest.head? ≠ some .minus → readValue r fuel (ls ++ rest) = some (d, rest)

theorem Parses.head? {ls : List Lexeme} {d : Data} (h : Parses r ls d) :
    ∃ l rest, ls = l :: rest ∧ l ≠ .closeBracket := by
  cases ls with
  | nil =>
    have := h [] 0 (by simp) (by simp)
    simp [readValue] at this
  | cons l rest =>
    refine ⟨l, rest, rfl, ?_⟩
    rintro rfl
    have := h [] (rest.length + 1) (by simp) (by simp)
    simp [readValue, readInteger, readOperand] at this

theorem parses_string (bytes : Text) : Parses r [.string bytes] (.string bytes) := by
  intro rest fuel hf _
  obtain ⟨fuel, rfl⟩ := Nat.exists_eq_add_of_le' hf
  rfl

theorem parses_constant {t : Text} {d : Data} (h : constant? t = some d) : Parses r [.name t] d := by
  intro rest fuel hf _
  obtain ⟨fuel, rfl⟩ := Nat.exists_eq_add_of_le' hf
  simp [readValue, h]

theorem natural?_decimal {n : Nat} (h : (n : Int) ≤ Int64.maxValue.toInt) :
    natural? (decimal n) = some (n : Int) := by
  rw [natural?, canonicalNat?_decimal, Option.bind_some, if_pos h]

theorem readInteger_operand {ls rest : List Lexeme} {i : Int64} (h : readOperand ls = some (i.toInt, rest))
    (hr : rest.head? ≠ some .minus) : readInteger ls = some (.int i, rest) := by
  simp only [readInteger, h, Option.bind_eq_bind, Option.bind_some]
  split
  · exact absurd rfl hr
  · simp [int64?_toInt]

theorem parses_natural {n : Nat} {i : Int64} (h : i.toInt = n) : Parses r [.number (decimal n)] (.int i) := by
  intro rest fuel hf hr
  obtain ⟨fuel, rfl⟩ := Nat.exists_eq_add_of_le' hf
  have hn : (n : Int) ≤ Int64.maxValue.toInt := h ▸ i.toInt_le
  show readInteger (.number (decimal n) :: rest) = _
  refine readInteger_operand ?_ hr
  simp [readOperand, natural?_decimal hn, h]

theorem parses_negative {n : Nat} {i : Int64} (h : i.toInt = -n) (hn : (n : Int) ≤ Int64.maxValue.toInt) :
    Parses r [.minus, .number (decimal n)] (.int i) := by
  intro rest fuel hf hr
  obtain ⟨fuel, rfl⟩ := Nat.exists_eq_add_of_le' hf
  show readInteger (.minus :: .number (decimal n) :: rest) = _
  refine readInteger_operand ?_ hr
  simp [readOperand, natural?_decimal hn, h]

theorem parses_minValue :
    Parses r [.minus, .number (decimal 9223372036854775807), .minus, .number (decimal 1)]
      (.int Int64.minValue) := by
  intro rest fuel hf _
  obtain ⟨fuel, rfl⟩ := Nat.exists_eq_add_of_le' hf
  show readInteger (.minus :: .number (decimal 9223372036854775807) :: .minus :: .number (decimal 1) :: rest) = _
  have h₁ : natural? (decimal 9223372036854775807) = some ((9223372036854775807 : Nat) : Int) :=
    natural?_decimal (by decide)
  have h₂ : natural? (decimal 1) = some ((1 : Nat) : Int) := natural?_decimal (by decide)
  have hi : int64? (-((9223372036854775807 : Nat) : Int) - ((1 : Nat) : Int)) = some Int64.minValue := by decide
  simp only [readInteger, readOperand, h₁, h₂, Option.map_some, Option.bind_eq_bind, Option.bind_some, hi]
  rfl

/-! ## Entries -/

/-- The lexemes are read as one more entry of an array, up to the comma or the bracket behind it. -/
structure ParsesEntry (r : Indexing) (before : List (Key × Data)) (ls : List Lexeme) (e : Key × Data) : Prop where
  head? : ∃ l rest, ls = l :: rest ∧ l ≠ .closeBracket
  read : ∀ rest fuel, ls.length ≤ fuel → rest.head? = some .comma ∨ rest.head? = some .closeBracket →
    readEntry r (readValue r fuel) before (ls ++ rest) = some (before ++ [e], rest)

theorem Parses.entry {ks vs : List Lexeme} {k d : Data} {key : Key} {before : List (Key × Data)}
    (hk : Parses r ks k) (hkey : k.key? = some key) (hv : Parses r vs d) (hn : key ∉ before.map Prod.fst) :
    ParsesEntry r before (ks ++ .arrow :: vs) (key, d) := by
  refine ⟨?_, fun rest fuel hf hr => ?_⟩
  · obtain ⟨l, ks, rfl, hl⟩ := hk.head?
    exact ⟨l, ks ++ .arrow :: vs, rfl, hl⟩
  · simp only [List.length_append, List.length_cons] at hf
    have hr' : rest.head? ≠ some .minus := by rcases hr with hr | hr <;> simp [hr]
    rw [List.append_assoc, List.cons_append, readEntry,
      hk (.arrow :: (vs ++ rest)) fuel (by omega) (by simp)]
    simp [hkey, hv rest fuel (by omega) hr', Association.put_of_not_mem d hn]

theorem Parses.entry_implied {vs : List Lexeme} {d : Data} {i : Int64} {before : List (Key × Data)}
    (hv : Parses r vs d) (hi : r.next? (before.map Prod.fst) = some i) (hn : .int i ∉ before.map Prod.fst) :
    ParsesEntry r before vs (.int i, d) := by
  refine ⟨hv.head?, fun rest fuel hf hr => ?_⟩
  have hr' : rest.head? ≠ some .minus := by rcases hr with hr | hr <;> simp [hr]
  rw [readEntry, hv rest fuel hf hr']
  cases rest with
  | nil => simp at hr
  | cons l rest =>
    rcases hr with hr | hr <;> cases hr <;> simp [hi, Association.put_of_not_mem d hn]

theorem readEntries_entry {before : List (Key × Data)} {ls rest : List Lexeme} {e : Key × Data} {fuel : Nat}
    (h : ParsesEntry r before ls e) (hf : ls.length ≤ fuel)
    (hr : rest.head? = some .comma ∨ rest.head? = some .closeBracket) :
    readEntries r (fuel + 1) before (ls ++ rest) = readTail (readEntries r fuel) (before ++ [e]) rest := by
  have he := h.read rest fuel hf hr
  obtain ⟨l, ls, rfl, hl⟩ := h.head?
  rw [List.cons_append] at he ⊢
  rw [readEntries, he, Option.bind_some]
  exact fun _ e => hl (List.cons_eq_cons.mp e).1

/-- Entries of which a comma follows each. -/
def ParsesEntries (r : Indexing) (before : List (Key × Data)) (ls : List Lexeme) (es : List (Key × Data)) : Prop :=
  ∀ rest fuel, ls.length < fuel → readEntries r fuel before (ls ++ .closeBracket :: rest) = some (before ++ es, rest)

/-- Entries of which a comma precedes each. -/
def ParsesTail (r : Indexing) (before : List (Key × Data)) (ls : List Lexeme) (es : List (Key × Data)) : Prop :=
  ∀ rest fuel, ls.length ≤ fuel →
    readTail (readEntries r fuel) before (ls ++ .closeBracket :: rest) = some (before ++ es, rest)

theorem parsesEntries_nil (before : List (Key × Data)) : ParsesEntries r before [] [] := by
  intro rest fuel hf
  obtain ⟨fuel, rfl⟩ := Nat.exists_eq_add_of_le' hf
  simp [readEntries]

theorem ParsesEntry.cons {before es : List (Key × Data)} {ls ms : List Lexeme} {e : Key × Data}
    (h : ParsesEntry r before ls e) (hs : ParsesEntries r (before ++ [e]) ms es) :
    ParsesEntries r before (ls ++ .comma :: ms) (e :: es) := by
  intro rest fuel hf
  obtain ⟨fuel, rfl⟩ := Nat.exists_eq_add_of_le' (Nat.succ_le_of_lt (Nat.zero_lt_of_lt hf))
  simp only [List.length_append, List.length_cons] at hf
  rw [List.append_assoc, List.cons_append, readEntries_entry h (by omega) (.inl rfl), readTail, hs rest fuel (by omega),
    List.append_assoc]
  rfl

theorem parsesTail_nil (before : List (Key × Data)) : ParsesTail r before [] [] := by
  intro rest fuel _
  simp [readTail]

theorem ParsesEntry.entries {before es : List (Key × Data)} {ls ms : List Lexeme} {e : Key × Data}
    (h : ParsesEntry r before ls e) (hs : ParsesTail r (before ++ [e]) ms es)
    (hm : ms = [] ∨ ms.head? = some .comma) : ParsesEntries r before (ls ++ ms) (e :: es) := by
  intro rest fuel hf
  obtain ⟨fuel, rfl⟩ := Nat.exists_eq_add_of_le' (Nat.succ_le_of_lt (Nat.zero_lt_of_lt hf))
  simp only [List.length_append] at hf
  have hr : (ms ++ .closeBracket :: rest).head? = some .comma ∨
      (ms ++ .closeBracket :: rest).head? = some .closeBracket := by
    rcases hm with rfl | hm
    · exact .inr rfl
    · exact .inl (by rw [List.head?_append, hm]; rfl)
  rw [List.append_assoc, readEntries_entry h (by omega) hr, hs rest fuel (by omega), List.append_assoc]
  rfl

theorem ParsesEntries.tail {before es : List (Key × Data)} {ls : List Lexeme} (h : ParsesEntries r before ls es) :
    ParsesTail r before (.comma :: ls) es :=
  fun rest fuel hf => h rest fuel hf

theorem ParsesEntries.array {ls : List Lexeme} {es : List (Key × Data)} (h : ParsesEntries r [] ls es) :
    Parses r (.openBracket :: ls ++ [.closeBracket]) (.array es) := by
  intro rest fuel hf _
  simp only [List.cons_append, List.length_cons, List.length_append, List.length_nil] at hf
  obtain ⟨fuel, rfl⟩ := Nat.exists_eq_add_of_le' (show 1 ≤ fuel by omega)
  simp only [List.cons_append, List.append_assoc, List.nil_append, readValue]
  rw [h rest fuel (by omega)]
  rfl

/-! ## Texts that are read as values -/

/-- The text is read as a value, where no more of a word and no minus sign follows. -/
def Reads (r : Indexing) (t : Text) (d : Data) : Prop := ∃ ls, Lexes t ls ∧ Parses r ls d

theorem Reads.ne_nil {t : Text} {d : Data} (h : Reads r t d) : t ≠ [] := by
  rintro rfl
  obtain ⟨ls, hl, hp⟩ := h
  obtain ⟨l, rest, rfl, -⟩ := hp.head?
  have := hl [] stops_nil
  simp [lex, lexFrom] at this

theorem reads_stringLiteral (bytes : Text) : Reads r (stringLiteral bytes) (.string bytes) :=
  ⟨_, (delimits_stringLiteral bytes).lexes, parses_string bytes⟩

theorem lexes_decimal (n : Nat) : Lexes (decimal n) [.number (decimal n)] :=
  lexes_number (fun _ => isDigit_of_mem_decimal) (decimal_ne_nil n)

theorem lexes_minus_decimal (n : Nat) : Lexes (Ascii.minus :: decimal n) [.minus, .number (decimal n)] :=
  lexes_minus_number (fun _ => isDigit_of_mem_decimal) (decimal_ne_nil n)

theorem reads_intLiteral (i : Int64) : Reads r (intLiteral i) (.int i) := by
  unfold intLiteral
  split
  · rename_i h
    subst h
    have hs : Stops (Ascii.minus :: decimal 1) := stops_cons.mpr (by decide)
    have e : decimalInt (Int64.minValue.toInt + 1) ++ utf8 "-1" =
        Ascii.minus :: decimal 9223372036854775807 ++ Ascii.minus :: decimal 1 := by decide
    rw [e]
    exact ⟨_, (lexes_minus_decimal _).append (lexes_minus_decimal 1) hs, parses_minValue⟩
  · rename_i hm
    have hl := i.le_toInt
    have hn : i.toInt ≠ Int64.minValue.toInt := fun e => hm (Int64.toInt_inj.mp e)
    rw [Int64.toInt_minValue] at hn
    unfold decimalInt
    split
    · rename_i h
      refine ⟨_, lexes_minus_decimal _, parses_negative (by omega) ?_⟩
      rw [Int64.toInt_maxValue]
      omega
    · exact ⟨_, lexes_decimal _, parses_natural (by omega)⟩

theorem reads_constant {t : Text} {d : Data} (h : constant? t = some d) (ht : Lexes t [.name t]) : Reads r t d :=
  ⟨_, ht, parses_constant h⟩

theorem reads_null : Reads r (utf8 "null") .null :=
  reads_constant rfl (lexes_name (List.all_iff_forall_prop.mp (by decide)) rfl (by decide))

theorem reads_true : Reads r (utf8 "true") (.bool true) :=
  reads_constant rfl (lexes_name (List.all_iff_forall_prop.mp (by decide)) rfl (by decide))

theorem reads_false : Reads r (utf8 "false") (.bool false) :=
  reads_constant rfl (lexes_name (List.all_iff_forall_prop.mp (by decide)) rfl (by decide))

theorem readExpression_eq {t : Text} {d : Data} (h : Reads r t d) : readExpression r t = some d := by
  obtain ⟨ls, hl, hp⟩ := h
  have ht := hl [] stops_nil
  have hv := hp [] ls.length (Nat.le_refl _) (by simp)
  rw [List.append_nil] at ht hv
  simp [readExpression, ht, show lex [] = some [] from rfl, hv]

example : readExpression .nonNegative (utf8 "[-5 => 1, 2,]") = some (.array [(.int (-5), .int 1), (.int 0, .int 2)]) :=
  rfl

example : readExpression .behindGreatest (utf8 "[-5 => 1, 2,]") =
    some (.array [(.int (-5), .int 1), (.int (-4), .int 2)]) :=
  rfl

end PhpLiteral.Syntax
