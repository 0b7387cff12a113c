import PhpLiteral.Proofs.Syntax.Quoted

/-!
# Lexemes of PHP code

The lexemes that PHP reads in a text, white space between them left out (`lex`). A text that is put together from
pieces is read piece by piece, as long as no piece runs on into the next one:

* `Lexes`: the piece gives these lexemes where something follows that ends a word (`Stops`);
* `Delimits`: the piece gives these lexemes whatever follows.
-/

namespace PhpLiteral.Syntax

/-- A lexeme. -/
inductive Lexeme
  /-- A name, with its namespaces. -/
  | name (t : Text)
  /-- A number without its sign, as it is written. -/
  | number (t : Text)
  /-- A quoted string, by what it stands for. -/
  | string (bytes : Text)
  | openBracket
  | closeBracket
  | comma
  | arrow
  | minus
  /-- Any other sign. -/
  | sign (t : Text)
  deriving DecidableEq, Repr

/-- A space, a tab or a line break. -/
def isSpace (b : UInt8) : Bool :=
  b == Ascii.space || b == Ascii.tab || b == Ascii.lineFeed || b == Ascii.carriageReturn

/-- A byte that a name goes on with. -/
def isNamePart (b : UInt8) : Bool := Identifier.isPart b || b == Ascii.backslash

/-- The signs that are lexemes of their own, a longer one before each that it starts with. -/
def signs : List (Text × Lexeme) :=
  [([Ascii.equals, Ascii.greater], .arrow),
    ([Ascii.minus, Ascii.greater], .sign [Ascii.minus, Ascii.greater]),
    ([Ascii.colon, Ascii.colon], .sign [Ascii.colon, Ascii.colon]),
    ([Ascii.dot, Ascii.dot, Ascii.dot], .sign [Ascii.dot, Ascii.dot, Ascii.dot]),
    ([Ascii.openBracket], .openBracket), ([Ascii.closeBracket], .closeBracket), ([Ascii.comma], .comma),
    ([Ascii.minus], .minus)]

/-- The fraction that a text starts with: a point and the digits behind it. -/
def fractionOf (t : Text) : Text :=
  if t.head? = some Ascii.dot then Ascii.dot :: t.tail.takeWhile Ascii.isDigit else []

/-- The exponent that a text starts with: the letter, perhaps a sign, and at least one digit. -/
def exponentOf : Text → Text
  | [] => []
  | e :: rest =>
    let signed := if rest.head? = some Ascii.plus ∨ rest.head? = some Ascii.minus then rest.take 1 else []
    let digits := (rest.drop signed.length).takeWhile Ascii.isDigit
    if (e = 0x65 ∨ e = 0x45) ∧ digits ≠ [] then e :: signed ++ digits else []

/-- The number that a text starts with. -/
def numberOf (t : Text) : Text :=
  let whole := t.takeWhile Ascii.isDigit
  let fraction := fractionOf (t.drop whole.length)
  whole ++ fraction ++ exponentOf (t.drop (whole.length + fraction.length))

/-- The lexeme that a text starts with, and how many bytes it has. -/
def lexeme? : Text → Option (Lexeme × Nat)
  | [] => none
  | b :: rest =>
    let t := b :: rest
    if b = Ascii.quote ∨ b = Ascii.doubleQuote then
      match readString t with
      | .closed bytes after => some (.string bytes, t.length - after.length)
      | _ => none
    else if Ascii.isDigit b then some (.number (numberOf t), (numberOf t).length)
    else if isNamePart b then some (.name (t.takeWhile isNamePart), (t.takeWhile isNamePart).length)
    else
      match signs.find? (·.1.isPrefixOf t) with
      | some (spelling, lexeme) => some (lexeme, spelling.length)
      | none => some (.sign [b], 1)

/-- The lexemes behind the next `skip` bytes. -/
def lexFrom : (skip : Nat) → Text → Option (List Lexeme)
  | _, [] => some []
  | skip + 1, _ :: rest => lexFrom skip rest
  | 0, b :: rest =>
    if isSpace b then lexFrom 0 rest
    else
      match lexeme? (b :: rest) with
      | some (lexeme, length) => (lexFrom (length - 1) rest).map (lexeme :: ·)
      | none => none

/-- The lexemes of a text, if PHP reads it as code without interpolated strings. -/
def lex (t : Text) : Option (List Lexeme) := lexFrom 0 t

/-! ## Pieces of code -/

/-- What ends a name and a number: nothing that either could go on with. -/
def Stops (t : Text) : Prop := ∀ b ∈ t.head?, isNamePart b = false ∧ b ≠ Ascii.dot

/-- A piece of code gives lexemes wherever something follows that ends a word. -/
def Lexes (t : Text) (ls : List Lexeme) : Prop := ∀ rest, Stops rest → lex (t ++ rest) = (lex rest).map (ls ++ ·)

/-- A piece of code gives lexemes whatever follows. -/
def Delimits (t : Text) (ls : List Lexeme) : Prop := ∀ rest, lex (t ++ rest) = (lex rest).map (ls ++ ·)

theorem stops_nil : Stops [] := fun _ h => by cases h

theorem stops_cons {b : UInt8} {t : Text} : Stops (b :: t) ↔ isNamePart b = false ∧ b ≠ Ascii.dot := by
  simp [Stops]

theorem stops_comma (w : Text) : Stops (Ascii.comma :: w) := Syntax.stops_cons.mpr (by decide)

theorem Stops.append {t u : Text} (ht : Stops t) (hu : Stops u) : Stops (t ++ u) := by
  cases t with
  | nil => exact hu
  | cons b t => exact stops_cons.mpr (stops_cons.mp ht)

theorem Delimits.lexes {t : Text} {ls : List Lexeme} (h : Delimits t ls) : Lexes t ls := fun rest _ => h rest

theorem map_append_map (o : Option (List Lexeme)) (ls ms : List Lexeme) :
    (o.map (ms ++ ·)).map (ls ++ ·) = o.map (ls ++ ms ++ ·) := by
  cases o <;> simp

theorem Delimits.nil : Delimits [] [] := fun rest => by simp

theorem Delimits.append {t u : Text} {ls ms : List Lexeme} (ht : Delimits t ls) (hu : Delimits u ms) :
    Delimits (t ++ u) (ls ++ ms) := fun rest => by
  rw [List.append_assoc, ht, hu, map_append_map]

theorem Delimits.append_lexes {t u : Text} {ls ms : List Lexeme} (ht : Delimits t ls) (hu : Lexes u ms) :
    Lexes (t ++ u) (ls ++ ms) := fun rest hr => by
  rw [List.append_assoc, ht, hu rest hr, map_append_map]

theorem Lexes.append_delimits {t u : Text} {ls ms : List Lexeme} (ht : Lexes t ls) (hu : Delimits u ms)
    (hs : Stops u) (hn : u ≠ []) : Delimits (t ++ u) (ls ++ ms) := fun rest => by
  obtain ⟨b, u, rfl⟩ := List.exists_cons_of_ne_nil hn
  rw [List.append_assoc, ht (b :: u ++ rest) (stops_cons.mpr (stops_cons.mp hs)), hu, map_append_map]

theorem Lexes.append {t u : Text} {ls ms : List Lexeme} (ht : Lexes t ls) (hu : Lexes u ms) (hs : Stops u) :
    Lexes (t ++ u) (ls ++ ms) := fun rest hr => by
  rw [List.append_assoc, ht _ (hs.append hr), hu rest hr, map_append_map]

/-! ## White space and signs -/

/-- White space separates lexemes and is none. -/
theorem delimits_of_isSpace {w : Text} (h : ∀ b ∈ w, isSpace b = true) : Delimits w [] := by
  intro rest
  induction w with
  | nil => simp
  | cons b w ih =>
    rw [← ih fun c hc => h c (List.mem_cons_of_mem _ hc), List.cons_append, lex, lexFrom,
      if_pos (h b List.mem_cons_self)]
    rfl

theorem delimits_open : Delimits [Ascii.openBracket] [.openBracket] := fun _ => rfl

theorem delimits_close : Delimits [Ascii.closeBracket] [.closeBracket] := fun _ => rfl

theorem delimits_comma : Delimits [Ascii.comma] [.comma] := fun _ => rfl

theorem delimits_arrow : Delimits (utf8 " => ") [.arrow] := fun _ => rfl

/-! ## Strings, numbers and names -/

theorem lexFrom_append (w rest : Text) : lexFrom w.length (w ++ rest) = lex rest := by
  induction w with
  | nil => rfl
  | cons b w ih => rw [← ih]; rfl

theorem lex_append {b : UInt8} {w rest : Text} {lexeme : Lexeme} (hb : isSpace b = false)
    (h : lexeme? (b :: w ++ rest) = some (lexeme, w.length + 1)) :
    lex (b :: w ++ rest) = (lex rest).map ([lexeme] ++ ·) := by
  rw [List.cons_append] at h ⊢
  rw [lex, lexFrom, hb, h]
  simp only [Bool.false_eq_true, if_false, Nat.add_sub_cancel, lexFrom_append]
  rfl

theorem exists_stringLiteral_cons (bytes : Text) :
    ∃ q w, stringLiteral bytes = q :: w ∧ (q = Ascii.quote ∨ q = Ascii.doubleQuote) := by
  unfold stringLiteral
  split
  · exact ⟨_, _, rfl, .inl rfl⟩
  · exact ⟨_, _, rfl, .inr rfl⟩

/-- A quoted string that is closed is a lexeme up to its closing quote. -/
theorem lexeme?_quoted {q : UInt8} {w rest bytes : Text} (hq : q = Ascii.quote ∨ q = Ascii.doubleQuote)
    (h : readString (q :: w ++ rest) = .closed bytes rest) :
    lexeme? (q :: w ++ rest) = some (.string bytes, w.length + 1) := by
  rw [List.cons_append] at h ⊢
  simp [lexeme?, hq, h]
  omega

theorem delimits_stringLiteral (bytes : Text) : Delimits (stringLiteral bytes) [.string bytes] := by
  intro rest
  obtain ⟨q, w, hw, hq⟩ := exists_stringLiteral_cons bytes
  have hr := readString_stringLiteral bytes rest
  rw [hw] at hr ⊢
  exact lex_append (by rcases hq with rfl | rfl <;> rfl) (lexeme?_quoted hq hr)

theorem takeWhile_append_of_stops {p : UInt8 → Bool} {w rest : Text} (hw : ∀ b ∈ w, p b = true)
    (hr : ∀ b ∈ rest.head?, p b = false) : (w ++ rest).takeWhile p = w := by
  rw [List.takeWhile_append_of_pos hw]
  cases rest with
  | nil => simp
  | cons b rest => simp [hr b rfl]

theorem not_isDigit_of_stops {rest : Text} (hr : Stops rest) : ∀ b ∈ rest.head?, Ascii.isDigit b = false := by
  intro b hb
  have := (hr b hb).1
  simp only [isNamePart, Identifier.isPart, Bool.or_eq_false_iff] at this
  exact this.1.2

theorem exponentOf_of_stops {rest : Text} (hr : Stops rest) : exponentOf rest = [] := by
  cases rest with
  | nil => rfl
  | cons e rest =>
    have := (hr e rfl).1
    refine if_neg fun h => ?_
    rcases h.1 with rfl | rfl <;> exact absurd this (by decide)

theorem numberOf_append {w rest : Text} (hw : ∀ b ∈ w, Ascii.isDigit b = true) (hr : Stops rest) :
    numberOf (w ++ rest) = w := by
  have hf : fractionOf rest = [] := if_neg fun h => (hr _ h).2 rfl
  simp [numberOf, takeWhile_append_of_stops hw (not_isDigit_of_stops hr), hf, exponentOf_of_stops hr]

/-- A byte of a word is neither white space nor a quote. -/
theorem not_space_not_quote {p : UInt8 → Bool}
    (hp : ∀ c ∈ [Ascii.space, Ascii.tab, Ascii.lineFeed, Ascii.carriageReturn, Ascii.quote, Ascii.doubleQuote],
      p c = false) {b : UInt8} (hb : p b = true) :
    isSpace b = false ∧ ¬ (b = Ascii.quote ∨ b = Ascii.doubleQuote) := by
  have h : ∀ c ∈ [Ascii.space, Ascii.tab, Ascii.lineFeed, Ascii.carriageReturn, Ascii.quote, Ascii.doubleQuote],
      b ≠ c := fun c hc e => by
    rw [e, hp c hc] at hb
    exact Bool.false_ne_true hb
  simpa [isSpace, and_assoc] using h

theorem lexeme?_number {b : UInt8} {w rest : Text} (hb : Ascii.isDigit b = true)
    (h : numberOf (b :: w ++ rest) = b :: w) :
    isSpace b = false ∧ lexeme? (b :: w ++ rest) = some (.number (b :: w), w.length + 1) := by
  obtain ⟨hs, hq⟩ := not_space_not_quote (List.all_iff_forall_prop.mp (by decide)) hb
  refine ⟨hs, ?_⟩
  rw [List.cons_append] at h ⊢
  simp only [lexeme?, h, if_neg hq, if_pos hb, List.length_cons]

theorem lexes_number {w : Text} (hw : ∀ b ∈ w, Ascii.isDigit b = true) (hn : w ≠ []) : Lexes w [.number w] := by
  intro rest hr
  obtain ⟨b, w, rfl⟩ := List.exists_cons_of_ne_nil hn
  obtain ⟨hs, hl⟩ := lexeme?_number (hw b List.mem_cons_self) (numberOf_append hw hr)
  exact lex_append hs hl

theorem lexeme?_name {b : UInt8} {w rest : Text} (hw : ∀ c ∈ b :: w, isNamePart c = true)
    (hd : Ascii.isDigit b = false) (hr : Stops rest) :
    isSpace b = false ∧ lexeme? (b :: w ++ rest) = some (.name (b :: w), w.length + 1) := by
  have hb := hw b List.mem_cons_self
  obtain ⟨hs, hq⟩ := not_space_not_quote (List.all_iff_forall_prop.mp (by decide)) hb
  refine ⟨hs, ?_⟩
  have := takeWhile_append_of_stops hw fun b hb => (hr b hb).1
  rw [List.cons_append] at this ⊢
  simp only [lexeme?, this, if_neg hq, hd, hb, if_true, Bool.false_eq_true, if_false, List.length_cons]

theorem lexes_name {w : Text} (hw : ∀ b ∈ w, isNamePart b = true) (hd : w.head?.any Ascii.isDigit = false)
    (hn : w ≠ []) : Lexes w [.name w] := by
  intro rest hr
  obtain ⟨b, w, rfl⟩ := List.exists_cons_of_ne_nil hn
  obtain ⟨hs, hl⟩ := lexeme?_name hw hd hr
  exact lex_append hs hl

/-- A minus sign stands for itself, unless it begins an arrow. -/
theorem lexeme?_minus {b : UInt8} (hb : b ≠ Ascii.greater) (rest : Text) :
    lexeme? (Ascii.minus :: b :: rest) = some (.minus, 1) := by
  have hf : signs.find? (·.1.isPrefixOf (Ascii.minus :: b :: rest)) = some ([Ascii.minus], .minus) := by
    have he : ([Ascii.minus, Ascii.greater].isPrefixOf (Ascii.minus :: b :: rest)) = false := by
      show (Ascii.greater == b && true) = false
      rw [beq_false_of_ne hb.symm, Bool.false_and]
    rw [signs, List.find?_cons_of_neg (by exact Bool.false_ne_true), List.find?_cons_of_neg (by rw [he]; decide)]
    rfl
  show (match signs.find? (·.1.isPrefixOf (Ascii.minus :: b :: rest)) with
    | some (spelling, lexeme) => some (lexeme, spelling.length)
    | none => some (.sign [Ascii.minus], 1)) = _
  rw [hf]
  rfl

theorem lexes_minus_number {w : Text} (hw : ∀ b ∈ w, Ascii.isDigit b = true) (hn : w ≠ []) :
    Lexes (Ascii.minus :: w) [.minus, .number w] := by
  intro rest hr
  have hl := lexes_number hw hn rest hr
  obtain ⟨b, w, rfl⟩ := List.exists_cons_of_ne_nil hn
  have hb : b ≠ Ascii.greater := by
    rintro rfl
    exact absurd (hw _ List.mem_cons_self) (by decide)
  have hm := lex_append (w := []) (by decide) (lexeme?_minus hb (w ++ rest))
  rw [List.cons_append] at hl
  rw [hl, map_append_map] at hm
  exact hm

end PhpLiteral.Syntax
