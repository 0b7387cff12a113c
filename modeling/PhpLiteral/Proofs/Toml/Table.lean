import PhpLiteral.Proofs.Toml.Written

/-!
# Tables that are written as TOML

A header and lines behind it that assign values to bare keys are read as a table with these values, in order, if no key
stands there twice (`parse?_table`). Each line takes the machine from the start of a line to the start of the next one
and makes one statement (`Makes`), and each statement adds one member to the table.

What is relied on of a reader of tables that are written is `ReadsBack`.
-/

namespace PhpLiteral.Toml

/-- A text that may stand as a key without quotes. -/
def IsBareKey (t : Text) : Prop := t ≠ [] ∧ t.all isBareKeyByte = true

instance (t : Text) : Decidable (IsBareKey t) := inferInstanceAs (Decidable (_ ∧ _))

/-- What a line assigns: a key, and the text of a value with the item that this text holds. -/
structure Entry where
  key : Text
  value : Text
  item : Item

namespace Entry

/-- The line that makes the assignment. -/
def line (e : Entry) : Text := e.key ++ utf8 " = " ++ e.value ++ utf8 "\n"

/-- The member that the assignment makes. -/
def member (e : Entry) : Text × Item := (e.key, e.item)

/-- The key needs no quotes, and the text of the value holds the item. -/
structure IsSound (e : Entry) : Prop where
  isBareKey : IsBareKey e.key
  writes : Writes e.value e.item

end Entry

/-- The line that begins a table. -/
def header (name : Text) : Text := utf8 "[" ++ name ++ utf8 "]\n"

/-! ## Lexemes -/

/-- A text is split into lexemes if `rest` follows it. -/
def Splits (rest t : Text) (ls : List Lexeme) : Prop :=
  lexemesFrom? 0 (t ++ rest) = (lexemesFrom? 0 rest).map (ls ++ ·)

theorem Splits.append {rest t u : Text} {ls ms : List Lexeme} (ht : Splits (u ++ rest) t ls)
    (hu : Splits rest u ms) : Splits rest (t ++ u) (ls ++ ms) := by
  rw [Splits, List.append_assoc, ht, hu, Option.map_map]
  simp only [Function.comp_def, List.append_assoc]

theorem lexemesFrom?_skip (w rest : Text) : lexemesFrom? w.length (w ++ rest) = lexemesFrom? 0 rest := by
  induction w with
  | nil => rfl
  | cons b w ih => rw [List.length_cons, List.cons_append, lexemesFrom?, ih]

theorem splits_of_lexeme? {rest t : Text} {l : Lexeme} (h : lexeme? (t ++ rest) = some (l, t.length)) (hn : t ≠ []) :
    Splits rest t [l] := by
  obtain ⟨b, t, rfl⟩ := List.exists_cons_of_ne_nil hn
  rw [List.cons_append] at h
  rw [Splits, List.cons_append, lexemesFrom?, h]
  show (lexemesFrom? t.length (t ++ rest)).map _ = _
  rw [lexemesFrom?_skip]
  rfl

theorem isWordByte_of_isBareKeyByte {b : UInt8} (h : isBareKeyByte b = true) : isWordByte b = true := by
  have hd : ∀ c ∈ [Ascii.dot, Ascii.equals, Ascii.comma, Ascii.openBracket, Ascii.closeBracket, Ascii.openBrace,
      Ascii.closeBrace, Ascii.space, Ascii.tab, Ascii.carriageReturn, Ascii.lineFeed, Ascii.hash, Ascii.quote,
      Ascii.doubleQuote], isBareKeyByte c = false := List.all_iff_forall_prop.mp (by decide)
  rw [isWordByte, Bool.not_eq_true', List.contains_eq_mem, decide_eq_false_iff_not]
  intro hm
  rw [hd b hm] at h
  cases h

theorem IsBareKey.splits {t rest : Text} (h : IsBareKey t) (hr : ∀ b ∈ rest.head?, isWordByte b = false) :
    Splits rest t [.word t] :=
  splits_of_lexeme? (lexeme?_word (fun b hb => isWordByte_of_isBareKeyByte (List.all_eq_true.mp h.2 b hb)) h.1 hr) h.1

/-- A value starts with a byte that is no blank. -/
theorem IsValue.exists_cons {l : Lexeme} {item : Item} (hl : IsValue l item) {v rest : Text}
    (h : lexeme? (v ++ Ascii.lineFeed :: rest) = some (l, v.length)) : ∃ b w, v = b :: w ∧ isBlank b = false := by
  cases v with
  | nil => cases h
  | cons b w =>
    refine ⟨b, w, rfl, ?_⟩
    cases hb : isBlank b with
    | false => rfl
    | true =>
      rw [List.cons_append, lexeme?, if_pos hb] at h
      cases hl <;> cases h

/-- A space before a byte that is no blank is a lexeme. -/
theorem splits_space {b : UInt8} (hb : isBlank b = false) (rest : Text) :
    Splits (b :: rest) [Ascii.space] [.blank [Ascii.space]] := by
  refine splits_of_lexeme? ?_ (List.cons_ne_nil _ _)
  rw [List.singleton_append, lexeme?, if_pos (by decide), List.takeWhile_cons_of_pos (by decide),
    List.takeWhile_cons_of_neg (by simp [hb])]

theorem splits_lineFeed (rest : Text) : Splits rest [Ascii.lineFeed] [.lineEnd] :=
  splits_of_lexeme? rfl (List.cons_ne_nil _ _)

/-! ## Statements -/

/-- A text that begins at the start of a line makes statements and leads to the start of a line. -/
def Makes (t : Text) (statements : List Statement) : Prop :=
  ∃ ls, (∀ rest, Splits rest t ls) ∧
    ∀ done, ls.foldlM step ⟨.line, done⟩ = some ⟨.line, statements.reverse ++ done⟩

theorem makes_nil : Makes [] [] := ⟨[], fun rest => by simp [Splits], fun _ => rfl⟩

theorem Makes.append {t u : Text} {ss us : List Statement} (ht : Makes t ss) (hu : Makes u us) :
    Makes (t ++ u) (ss ++ us) := by
  obtain ⟨ls, hl, hs⟩ := ht
  obtain ⟨ms, hm, hu⟩ := hu
  refine ⟨ls ++ ms, fun rest => (hl _).append (hm rest), fun done => ?_⟩
  rw [List.foldlM_append, hs, List.reverse_append, List.append_assoc]
  exact hu _

theorem keyPart?_word {t : Text} (h : IsBareKey t) : keyPart? (.word t) = some t := if_pos h.2

theorem makes_header {name : Text} (h : IsBareKey name) : Makes (header name) [.table [name]] := by
  refine ⟨[.openBracket, .word name, .closeBracket, .lineEnd], fun rest => ?_, fun done => ?_⟩
  · have he : header name = [Ascii.openBracket] ++ (name ++ ([Ascii.closeBracket] ++ [Ascii.lineFeed])) := by
      rw [header, show utf8 "]\n" = [Ascii.closeBracket] ++ [Ascii.lineFeed] from rfl, List.append_assoc]
      rfl
    have hc : Splits ([Ascii.lineFeed] ++ rest) [Ascii.closeBracket] [.closeBracket] :=
      splits_of_lexeme? rfl (List.cons_ne_nil _ _)
    have hn : Splits ([Ascii.closeBracket] ++ [Ascii.lineFeed] ++ rest) name [.word name] :=
      h.splits (by rintro b ⟨⟩; rfl)
    have ho : Splits (name ++ ([Ascii.closeBracket] ++ [Ascii.lineFeed]) ++ rest) [Ascii.openBracket] [.openBracket] :=
      splits_of_lexeme? rfl (List.cons_ne_nil _ _)
    rw [he]
    exact ho.append (hn.append (hc.append (splits_lineFeed rest)))
  · simp [List.foldlM_cons, step, stepKeyEnd, keyPart?_word h]

/-- A key and an equals sign take the machine before a value. -/
theorem foldlM_step_key {key : Text} (h : IsBareKey key) (done : List Statement) :
    [.word key, .blank [Ascii.space], .equals, .blank [Ascii.space]].foldlM step ⟨.line, done⟩ =
      some ⟨.value [key] [], done⟩ := by
  simp [List.foldlM_cons, step, stepKeyEnd, stepValue, keyPart?_word h, isFiller]

/-- A value takes the machine to the end of its line and makes an assignment. -/
theorem IsValue.foldlM_step {l : Lexeme} {item : Item} (h : IsValue l item) (target : List Text)
    (done : List Statement) :
    [l, .lineEnd].foldlM step ⟨.value target [], done⟩ = some ⟨.line, .assignment target item :: done⟩ := by
  cases h with
  | word hs => simp [List.foldlM_cons, step, stepValue, stepAfter, hs]
  | string t => simp [List.foldlM_cons, step, stepValue, stepAfter]

theorem Entry.IsSound.makes_line {e : Entry} (h : e.IsSound) : Makes e.line [.assignment [e.key] e.item] := by
  obtain ⟨l, hl, hv⟩ := h.writes
  refine ⟨[.word e.key, .blank [Ascii.space], .equals, .blank [Ascii.space]] ++ [l, .lineEnd], fun rest => ?_,
    fun done => ?_⟩
  · obtain ⟨b, w, hb, hbl⟩ := hl.exists_cons (hv rest)
    have he : e.line =
        e.key ++ ([Ascii.space] ++ ([Ascii.equals] ++ ([Ascii.space] ++ (e.value ++ [Ascii.lineFeed])))) := by
      rw [Entry.line, show utf8 " = " = [Ascii.space] ++ ([Ascii.equals] ++ [Ascii.space]) from rfl]
      simp only [List.append_assoc]
      rfl
    have h₅ : Splits ([Ascii.lineFeed] ++ rest) e.value [l] :=
      splits_of_lexeme? (hv rest) (hb ▸ List.cons_ne_nil b w)
    have h₄ : Splits (e.value ++ [Ascii.lineFeed] ++ rest) [Ascii.space] [.blank [Ascii.space]] := by
      rw [hb, List.cons_append, List.cons_append]
      exact splits_space hbl _
    have h₃ : Splits ([Ascii.space] ++ (e.value ++ [Ascii.lineFeed]) ++ rest) [Ascii.equals] [.equals] :=
      splits_of_lexeme? rfl (List.cons_ne_nil _ _)
    have h₂ : Splits ([Ascii.equals] ++ ([Ascii.space] ++ (e.value ++ [Ascii.lineFeed])) ++ rest) [Ascii.space]
        [.blank [Ascii.space]] := splits_space (by decide) _
    have h₁ : Splits ([Ascii.space] ++ ([Ascii.equals] ++ ([Ascii.space] ++ (e.value ++ [Ascii.lineFeed]))) ++ rest)
        e.key [.word e.key] := h.isBareKey.splits (by rintro b ⟨⟩; rfl)
    rw [he]
    exact h₁.append (h₂.append (h₃.append (h₄.append (h₅.append (splits_lineFeed rest)))))
  · rw [List.foldlM_append, foldlM_step_key h.isBareKey]
    exact hl.foldlM_step [e.key] done

theorem makes_lines {entries : List Entry} (h : ∀ e ∈ entries, e.IsSound) :
    Makes (entries.flatMap Entry.line) (entries.map fun e => .assignment [e.key] e.item) := by
  induction entries with
  | nil => exact makes_nil
  | cons e entries ih =>
    rw [List.forall_mem_cons] at h
    rw [List.flatMap_cons, List.map_cons]
    exact h.1.makes_line.append (ih h.2)

/-- A text that does not start with a byte order mark has the statements that it makes. -/
theorem Makes.statements?_eq {t : Text} {ss : List Statement} (h : Makes t ss) (ht : t.head? ≠ some 0xef) :
    statements? t = some ss := by
  obtain ⟨ls, hl, hs⟩ := h
  have he : lexemes? t = some ls := by
    have := hl []
    rw [Splits, List.append_nil] at this
    unfold lexemes?
    split
    · exact absurd rfl ht
    · rw [this]
      simp [lexemesFrom?]
  have hf : (ls ++ [Lexeme.lineEnd]).foldlM step ⟨.line, []⟩ = some ⟨.line, ss.reverse⟩ := by
    rw [List.foldlM_append, hs, List.append_nil]
    rfl
  rw [statements?, he]
  show ((ls ++ [Lexeme.lineEnd]).foldlM step ⟨.line, []⟩).bind _ = _
  rw [hf]
  exact congrArg some (List.reverse_reverse ss)

/-! ## The table -/

/-- The builder in a table under the root, which holds some members. -/
def Builder.inTable (name : Text) (members : Members) : Builder := ⟨[(name, .table .declared members)], [name]⟩

theorem Builder.step_table (name : Text) : Builder.start.step (.table [name]) = some (.inTable name []) := rfl

/-- An assignment to a new key adds a member at the end. -/
theorem Builder.step_assignment (name : Text) {members : Members} {key : Text} (item : Item)
    (h : key ∉ members.map Prod.fst) :
    (inTable name members).step (.assignment [key] item) = some (.inTable name (members ++ [(key, item)])) := by
  have hg : Association.get? key members = none := Association.get?_of_not_mem h
  have ha : assign item true [key] members = some (members ++ [(key, item)]) := by
    rw [assign, hg]
    rfl
  simp [Builder.step, inTable, within, Association.get?, Association.put, ha]

theorem Builder.foldlM_step (name : Text) : ∀ {members rest : Members},
    ((members ++ rest).map Prod.fst).Nodup →
      (rest.map fun m => .assignment [m.1] m.2).foldlM Builder.step (inTable name members) =
        some (.inTable name (members ++ rest))
  | members, [], _ => by rw [List.append_nil]; rfl
  | members, m :: rest, h => by
    have hm : m.1 ∉ members.map Prod.fst := by
      rw [List.map_append, List.nodup_append] at h
      exact fun hm => h.2.2 _ hm _ (by simp) rfl
    rw [List.map_cons, List.foldlM_cons, step_assignment name m.2 hm]
    have hr : ((members ++ [m] ++ rest).map Prod.fst).Nodup := by simpa using h
    simpa using foldlM_step name hr

/-- A header and lines with different keys behind it are read as a table with their members. -/
theorem parse?_table {name : Text} (hn : IsBareKey name) {entries : List Entry} (h : ∀ e ∈ entries, e.IsSound)
    (hk : (entries.map Entry.key).Nodup) :
    parse? (header name ++ entries.flatMap Entry.line) =
      some [(name, .table .declared (entries.map Entry.member))] := by
  have hb : (header name ++ entries.flatMap Entry.line).head? ≠ some 0xef := fun e =>
    absurd (Option.some.inj e) (by decide)
  have hs := ((makes_header hn).append (makes_lines h)).statements?_eq hb
  have hm : (([] ++ entries.map Entry.member).map Prod.fst).Nodup := by
    rw [List.nil_append, List.map_map]
    exact hk
  have hf := Builder.foldlM_step name hm
  rw [List.map_map] at hf
  rw [parse?, hs, Option.bind_some, build?, List.singleton_append, List.foldlM_cons, Builder.step_table]
  exact congrArg (Option.map Builder.root) hf

/-! ## Readers of written tables -/

/-- An assignment as it is written: of a number above zero, or of a string without quotes and line feeds. -/
inductive Entry.IsWritten : Entry → Prop
  | number {key : Text} {n : Nat} : IsBareKey key → n ≠ 0 → IsWritten ⟨key, decimal n, .int n⟩
  | string {key t : Text} : IsBareKey key → Ascii.quote ∉ t → Ascii.doubleQuote ∉ t → Ascii.lineFeed ∉ t →
      IsWritten ⟨key, writtenString t, .text t⟩

theorem Entry.IsWritten.isSound {e : Entry} (h : e.IsWritten) : e.IsSound := by
  cases h with
  | number hk hn => exact ⟨hk, writes_decimal hn⟩
  | string hk hq hd hl => exact ⟨hk, writes_writtenString hq hd hl⟩

/-- A reader takes every table that is written, a header with lines of different keys, for this table. -/
def ReadsBack (toml? : Text → Option Members) : Prop :=
  ∀ {name : Text} {entries : List Entry}, IsBareKey name → (∀ e ∈ entries, e.IsWritten) →
    (entries.map Entry.key).Nodup →
    toml? (header name ++ entries.flatMap Entry.line) = some [(name, .table .declared (entries.map Entry.member))]

theorem readsBack_parse? : ReadsBack parse? :=
  fun hn h hk => parse?_table hn (fun e he => (h e he).isSound) hk

end PhpLiteral.Toml
