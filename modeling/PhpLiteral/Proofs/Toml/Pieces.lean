import PhpLiteral.Proofs.Toml.Table

/-!
# The pieces of a TOML text

Lexemes with the bytes that they are written with: a text is a row of pieces (`Spells`), and each piece is of one of six
forms (`IsPiece`). A line feed ends a line or stands in a string in triple quotes, so that a line of the text begins
with a piece or inside such a string (`Spells.exists_at_line`).
-/

namespace PhpLiteral.Toml

/-! ## Strings -/

theorem lineFeed_not_mem_of_hexNat? {n : Nat} {t : Text} {c : Nat}
    (h : t.foldlM (fun n b => (Ascii.hexValue? b).map fun d => 16 * n + d) n = some c) : Ascii.lineFeed ∉ t := by
  induction t generalizing n with
  | nil => exact List.not_mem_nil
  | cons b t ih =>
    rw [List.foldlM_cons] at h
    obtain ⟨m, hm, h⟩ := Option.bind_eq_some_iff.mp h
    obtain ⟨d, hd, -⟩ := Option.map_eq_some_iff.mp hm
    rw [List.mem_cons, not_or]
    refine ⟨?_, ih h⟩
    rintro rfl
    cases hd

theorem lineFeed_not_mem_of_codePoint? {count extra : Nat} {t piece : Text}
    (h : codePoint? count t = some (piece, extra)) : extra = count + 1 ∧ Ascii.lineFeed ∉ t.take count := by
  unfold codePoint? at h
  split at h
  · cases h
  obtain ⟨c, hc, h⟩ := Option.bind_eq_some_iff.mp h
  dsimp only at h
  split at h
  · cases h
    exact ⟨rfl, lineFeed_not_mem_of_hexNat? hc⟩
  · cases h

/-- An escape holds no line feed. -/
theorem lineFeed_not_mem_of_escape? {t piece : Text} {extra : Nat} (h : escape? t = some (piece, extra)) :
    Ascii.lineFeed ∉ t.take extra := by
  cases t with
  | nil => cases h
  | cons b rest =>
    have hb : Ascii.lineFeed ≠ b := by
      rintro rfl
      cases h
    have hr : extra = 1 ∨ ∃ count, codePoint? count rest = some (piece, extra) := by
      rw [escape?] at h
      -- One byte behind the backslash, or a letter with hexadecimal digits.
      iterate 7
        rcases ite_eq_iff.mp h with ⟨-, h⟩ | ⟨-, h⟩
        · cases h
          exact .inl rfl
      iterate 3
        rcases ite_eq_iff.mp h with ⟨-, h⟩ | ⟨-, h⟩
        · exact .inr ⟨_, h⟩
      cases h
    rcases hr with rfl | ⟨count, hc⟩
    · simpa using hb
    · obtain ⟨rfl, hn⟩ := lineFeed_not_mem_of_codePoint? hc
      rw [List.take_succ_cons, List.mem_cons, not_or]
      exact ⟨hb, hn⟩

section

variable {quote : UInt8} {hasEscapes : Bool} {t content : Text} {width : Nat}

/-- A string ends with its quote, and holds no line feed that is not among the skipped bytes. -/
theorem exists_of_shortBody? {skip : Nat} (h : shortBody? quote hasEscapes skip t = some (content, width))
    (hl : Ascii.lineFeed ∉ t.take skip) :
    ∃ body rest, t = body ++ quote :: rest ∧ width = body.length + 1 ∧ Ascii.lineFeed ∉ body := by
  fun_induction shortBody? quote hasEscapes skip t generalizing content width with
  | case1 => cases h
  | case2 skip b rest ih =>
    obtain ⟨⟨c, n⟩, hr, e⟩ := Option.map_eq_some_iff.mp h
    cases e
    rw [List.take_succ_cons, List.mem_cons, not_or] at hl
    obtain ⟨body, rest, rfl, rfl, hb⟩ := ih hr hl.2
    exact ⟨b :: body, rest, rfl, rfl, by simpa using ⟨hl.1, hb⟩⟩
  | case3 rest =>
    cases h
    exact ⟨[], rest, rfl, rfl, List.not_mem_nil⟩
  | case4 => cases h
  | case5 b rest hq hc he ih =>
    obtain ⟨⟨piece, extra⟩, hp, h⟩ := Option.bind_eq_some_iff.mp h
    obtain ⟨⟨c, n⟩, hr, h⟩ := Option.bind_eq_some_iff.mp h
    cases h
    obtain ⟨body, rest, rfl, rfl, hb⟩ := ih extra hr (lineFeed_not_mem_of_escape? hp)
    have hn : Ascii.lineFeed ≠ b := by
      rintro rfl
      exact hc rfl
    exact ⟨b :: body, rest, rfl, rfl, by simpa using ⟨hn, hb⟩⟩
  | case6 b rest hq hc he ih =>
    obtain ⟨⟨c, n⟩, hr, e⟩ := Option.map_eq_some_iff.mp h
    cases e
    obtain ⟨body, rest, rfl, rfl, hb⟩ := ih hr List.not_mem_nil
    have hn : Ascii.lineFeed ≠ b := by
      rintro rfl
      exact hc rfl
    exact ⟨b :: body, rest, rfl, rfl, by simpa using ⟨hn, hb⟩⟩

theorem exists_eq_replicate_append {n : Nat} (h : n ≤ (t.takeWhile (· == quote)).length) :
    ∃ rest, t = List.replicate n quote ++ rest := by
  have ht : t.take n = (t.takeWhile (· == quote)).take n := by
    rw [← List.take_append_of_le_length h, List.takeWhile_append_dropWhile]
  have hq : t.take n = List.replicate n quote := by
    rw [ht, List.eq_replicate_iff, List.length_take]
    exact ⟨Nat.min_eq_left h, fun b hb => by simpa using List.mem_takeWhile_imp (List.mem_of_mem_take hb)⟩
  exact ⟨t.drop n, by rw [← hq, List.take_append_drop]⟩

/-- A string in triple quotes ends with its quote. -/
theorem exists_of_longBody? {skip : Nat} (h : longBody? quote hasEscapes skip t = some (content, width)) :
    ∃ body rest, t = body ++ quote :: rest ∧ width = body.length + 1 := by
  have cons : ∀ {b : UInt8} {u : Text} {n : Nat}, (∃ body rest, u = body ++ quote :: rest ∧ n = body.length + 1) →
      ∃ body rest, b :: u = body ++ quote :: rest ∧ n + 1 = body.length + 1 := by
    rintro b u n ⟨body, rest, rfl, rfl⟩
    exact ⟨b :: body, rest, rfl, rfl⟩
  fun_induction longBody? quote hasEscapes skip t generalizing content width with
  | case1 => cases h
  | case2 skip b rest ih =>
    obtain ⟨⟨c, n⟩, hr, e⟩ := Option.map_eq_some_iff.mp h
    cases e
    exact cons (ih hr)
  | case3 b rest quotes =>
    rename_i hq inner
    cases h
    obtain ⟨more, hm⟩ := exists_eq_replicate_append (show inner + 3 ≤ quotes by omega)
    refine ⟨List.replicate (inner + 2) quote, more, ?_, by simp⟩
    rw [hm, List.replicate_succ', List.append_assoc]
    rfl
  | case4 => cases h
  | case5 b rest =>
    rename_i ih
    obtain ⟨⟨piece, extra⟩, -, h⟩ := Option.bind_eq_some_iff.mp h
    obtain ⟨⟨c, n⟩, hr, h⟩ := Option.bind_eq_some_iff.mp h
    cases h
    exact cons (ih extra hr)
  | case6 b rest =>
    rename_i ih
    obtain ⟨⟨piece, extra⟩, -, h⟩ := Option.bind_eq_some_iff.mp h
    obtain ⟨⟨c, n⟩, hr, h⟩ := Option.bind_eq_some_iff.mp h
    cases h
    exact cons (ih extra hr)
  | case7 b rest =>
    rename_i ih
    obtain ⟨⟨c, n⟩, hr, e⟩ := Option.map_eq_some_iff.mp h
    cases e
    exact cons (ih hr)
  | case8 b rest =>
    rename_i ih
    obtain ⟨⟨c, n⟩, hr, e⟩ := Option.map_eq_some_iff.mp h
    cases e
    exact cons (ih hr)

theorem lineEndWidth_le (t : Text) : lineEndWidth t ≤ t.length := by
  unfold lineEndWidth
  split <;> simp

/-- A string is written between quotes. Only one in triple quotes can hold line feeds. -/
theorem exists_of_string? {l : Lexeme} (h : string? quote hasEscapes t = some (l, width)) :
    ∃ body rest, t = body ++ quote :: rest ∧ width = body.length + 2 ∧
      ((∃ s, l = .string s) ∧ Ascii.lineFeed ∉ body ∨ ∃ s, l = .longString s) := by
  unfold string? at h
  split at h
  · rename_i hq
    obtain ⟨⟨c, n⟩, hb, e⟩ := Option.map_eq_some_iff.mp h
    cases e
    obtain ⟨start, rfl⟩ := List.isPrefixOf_iff_prefix.mp hq
    obtain ⟨body, rest, ht, rfl⟩ := exists_of_longBody? hb
    have hs := List.take_append_drop (lineEndWidth start) start
    have hl : (start.take (lineEndWidth start)).length = lineEndWidth start :=
      List.length_take_of_le (lineEndWidth_le start)
    have hd : ([quote, quote] ++ start).drop 2 = start := rfl
    rw [hd] at ht ⊢
    refine ⟨[quote, quote] ++ (start.take (lineEndWidth start) ++ body), rest, ?_, ?_, .inr ⟨_, rfl⟩⟩
    · rw [List.append_assoc, List.append_assoc, ← ht, hs]
    · simp [hl]
      omega
  · obtain ⟨⟨c, n⟩, hb, e⟩ := Option.map_eq_some_iff.mp h
    cases e
    obtain ⟨body, rest, rfl, rfl, hn⟩ := exists_of_shortBody? hb List.not_mem_nil
    exact ⟨body, rest, rfl, rfl, .inl ⟨⟨_, rfl⟩, hn⟩⟩

end

/-! ## Forms of pieces -/

/-- The lexemes that are written with one byte, with this byte. -/
def signs : List (UInt8 × Lexeme) :=
  [(Ascii.dot, .dot), (Ascii.equals, .equals), (Ascii.comma, .comma), (Ascii.openBracket, .openBracket),
    (Ascii.closeBracket, .closeBracket), (Ascii.openBrace, .openBrace), (Ascii.closeBrace, .closeBrace)]

/-- The bytes that a lexeme is written with where `rest` follows. -/
inductive IsPiece (rest : Text) : Text → Lexeme → Prop
  | blank {w : Text} : w ≠ [] → (∀ b ∈ w, isBlank b = true) → (∀ b ∈ rest.head?, isBlank b = false) →
      IsPiece rest w (.blank w)
  | sign {b : UInt8} {l : Lexeme} : (b, l) ∈ signs → IsPiece rest [b] l
  | comment {w : Text} : Ascii.lineFeed ∉ w → IsPiece rest (Ascii.hash :: w) .comment
  | quoted {quote : UInt8} {body : Text} {l : Lexeme} : quote = Ascii.quote ∨ quote = Ascii.doubleQuote →
      ((∃ s, l = .string s) ∧ Ascii.lineFeed ∉ body ∨ ∃ s, l = .longString s) →
      IsPiece rest (quote :: body ++ [quote]) l
  | lineEnd {w : Text} : w = [Ascii.lineFeed] ∨ w = [Ascii.carriageReturn, Ascii.lineFeed] → IsPiece rest w .lineEnd
  | word {w : Text} : w ≠ [] → (∀ b ∈ w, isWordByte b = true) → (∀ b ∈ rest.head?, isWordByte b = false) →
      IsPiece rest w (.word w)

theorem exists_of_takeWhile {p : UInt8 → Bool} {b : UInt8} {t : Text} (hb : p b = true) :
    ∃ w rest, b :: t = w ++ rest ∧ (b :: t).takeWhile p = w ∧ w ≠ [] ∧ (∀ c ∈ w, p c = true) ∧
      ∀ c ∈ rest.head?, p c = false := by
  refine ⟨_, (b :: t).dropWhile p, List.takeWhile_append_dropWhile.symm, rfl, ?_, fun c hc => List.mem_takeWhile_imp hc,
    fun c hc => ?_⟩
  · rw [List.takeWhile_cons_of_pos hb]
    exact List.cons_ne_nil _ _
  · have := List.head?_dropWhile_not p (b :: t)
    rwa [Option.mem_def.mp hc] at this

theorem exists_of_comment? {t : Text} {l : Lexeme} {n : Nat} (h : comment? (Ascii.hash :: t) = some (l, n)) :
    ∃ w rest, Ascii.hash :: t = w ++ rest ∧ w.length = n ∧ IsPiece rest w l := by
  have piece : ∀ {w : Text}, w <+: t.takeWhile (· != Ascii.lineFeed) →
      some (Lexeme.comment, (Ascii.hash :: w).length) = some (l, n) →
      ∃ w rest, Ascii.hash :: t = w ++ rest ∧ w.length = n ∧ IsPiece rest w l := by
    rintro w hw ⟨⟩
    obtain ⟨rest, rfl⟩ := hw.trans (List.takeWhile_prefix _)
    exact ⟨Ascii.hash :: w, rest, rfl, rfl, .comment fun hm => by simpa using List.mem_takeWhile_imp (hw.subset hm)⟩
  have hl : (Ascii.hash :: t).takeWhile (· != Ascii.lineFeed) = Ascii.hash :: t.takeWhile (· != Ascii.lineFeed) := rfl
  simp only [comment?, hl] at h
  rcases ite_eq_iff.mp h with ⟨-, h⟩ | ⟨-, h⟩
  · cases h
  split at h
  · rename_i hc
    rw [Bool.and_eq_true, decide_eq_true_eq, decide_eq_true_eq] at hc
    have hu : t.takeWhile (· != Ascii.lineFeed) ≠ [] := fun e => by
      rw [e] at hc
      cases hc.2
    rw [List.dropLast_cons_of_ne_nil hu] at h
    exact piece (List.dropLast_prefix _) h
  · exact piece List.prefix_rfl h

theorem exists_of_lineEndWidth {t : Text} (h : lineEndWidth t ≠ 0) :
    ∃ w rest, t = w ++ rest ∧ w.length = lineEndWidth t ∧ IsPiece rest w .lineEnd := by
  unfold lineEndWidth at h ⊢
  split at h
  · exact ⟨[Ascii.lineFeed], _, rfl, rfl, .lineEnd (.inl rfl)⟩
  · exact ⟨[Ascii.carriageReturn, Ascii.lineFeed], _, rfl, rfl, .lineEnd (.inr rfl)⟩
  · exact absurd rfl h

/-- What is read as a lexeme is a piece of one of the forms. -/
theorem exists_isPiece {t : Text} {l : Lexeme} {n : Nat} (h : lexeme? t = some (l, n)) :
    ∃ w rest, t = w ++ rest ∧ w.length = n ∧ IsPiece rest w l := by
  cases t with
  | nil => cases h
  | cons b t =>
    have sign : ∀ {s : Lexeme}, (b, s) ∈ signs → some (s, 1) = some (l, n) →
        ∃ w rest, b :: t = w ++ rest ∧ w.length = n ∧ IsPiece rest w l := by
      rintro s hs ⟨⟩
      exact ⟨[b], t, rfl, rfl, .sign hs⟩
    have string : ∀ {e : Bool}, b = Ascii.quote ∨ b = Ascii.doubleQuote → string? b e t = some (l, n) →
        ∃ w rest, b :: t = w ++ rest ∧ w.length = n ∧ IsPiece rest w l := by
      intro e hb hs
      obtain ⟨body, rest, rfl, rfl, hl⟩ := exists_of_string? hs
      exact ⟨b :: body ++ [b], rest, by simp, by simp, .quoted hb hl⟩
    rw [lexeme?] at h
    rcases ite_eq_iff.mp h with ⟨hb, h⟩ | ⟨h₀, h⟩
    · obtain ⟨w, rest, e, rfl, hn, hw, hr⟩ := exists_of_takeWhile (t := t) hb
      cases h
      exact ⟨_, rest, e, rfl, .blank hn hw hr⟩
    rcases ite_eq_iff.mp h with ⟨rfl, h⟩ | ⟨h₁, h⟩
    · exact sign (by decide) h
    rcases ite_eq_iff.mp h with ⟨rfl, h⟩ | ⟨h₂, h⟩
    · exact sign (by decide) h
    rcases ite_eq_iff.mp h with ⟨rfl, h⟩ | ⟨h₃, h⟩
    · exact sign (by decide) h
    rcases ite_eq_iff.mp h with ⟨rfl, h⟩ | ⟨h₄, h⟩
    · exact sign (by decide) h
    rcases ite_eq_iff.mp h with ⟨rfl, h⟩ | ⟨h₅, h⟩
    · exact sign (by decide) h
    rcases ite_eq_iff.mp h with ⟨rfl, h⟩ | ⟨h₆, h⟩
    · exact sign (by decide) h
    rcases ite_eq_iff.mp h with ⟨rfl, h⟩ | ⟨h₇, h⟩
    · exact sign (by decide) h
    rcases ite_eq_iff.mp h with ⟨rfl, h⟩ | ⟨h₈, h⟩
    · exact exists_of_comment? h
    rcases ite_eq_iff.mp h with ⟨hb, h⟩ | ⟨h₉, h⟩
    · exact string (.inl hb) h
    rcases ite_eq_iff.mp h with ⟨hb, h⟩ | ⟨h₁₀, h⟩
    · exact string (.inr hb) h
    rcases ite_eq_iff.mp h with ⟨hb, h⟩ | ⟨h₁₁, h⟩
    · split at h
      · cases h
      · rename_i hw
        cases h
        exact exists_of_lineEndWidth hw
    · have hb : isWordByte b = true := by
        simp_all [isWordByte, isBlank, Ascii.isBreak]
      obtain ⟨w, rest, e, rfl, hn, hw, hr⟩ := exists_of_takeWhile (t := t) hb
      cases h
      exact ⟨_, rest, e, rfl, .word hn hw hr⟩

theorem isPiece_of_lexeme? {w rest : Text} {l : Lexeme} (h : lexeme? (w ++ rest) = some (l, w.length)) :
    IsPiece rest w l := by
  obtain ⟨v, more, e, hn, hp⟩ := exists_isPiece h
  obtain ⟨rfl, rfl⟩ := List.append_inj e.symm hn
  exact hp

theorem not_special_of_mem_signs : ∀ s ∈ signs, s.1 ≠ Ascii.lineFeed ∧ s.1 ≠ Ascii.carriageReturn ∧
    isBlank s.1 = false ∧ isWordByte s.1 = false := by decide

namespace IsPiece

variable {rest w : Text} {l : Lexeme}

theorem ne_nil (h : IsPiece rest w l) : w ≠ [] := by
  cases h with
  | blank hn => exact hn
  | word hn => exact hn
  | lineEnd hw => rcases hw with rfl | rfl <;> exact List.cons_ne_nil _ _
  | sign | comment | quoted => exact List.cons_ne_nil _ _

/-- A line feed ends the piece that it is in, unless this is a string in triple quotes. -/
theorem lineFeed_cases {v v' : Text} (h : IsPiece rest (v ++ Ascii.lineFeed :: v') l) :
    v' = [] ∧ l = .lineEnd ∨ v' ≠ [] ∧ ∃ s, l = .longString s := by
  have hm : Ascii.lineFeed ∈ v ++ Ascii.lineFeed :: v' := List.mem_append_right _ List.mem_cons_self
  generalize e : v ++ Ascii.lineFeed :: v' = w at h hm
  cases h with
  | blank _ hb => exact absurd (hb _ hm) (by decide)
  | sign hs => exact absurd (List.mem_singleton.mp hm).symm (not_special_of_mem_signs _ hs).1
  | comment hw =>
    rcases List.mem_cons.mp hm with h | h
    · cases h
    · exact absurd h hw
  | @quoted q body _ hq hb =>
    have hne : Ascii.lineFeed ≠ q := by rcases hq with rfl | rfl <;> decide
    have hl : Ascii.lineFeed ∈ body := by simpa [hne] using hm
    refine .inr ⟨?_, hb.resolve_left fun hs => hs.2 hl⟩
    rintro rfl
    exact hne (List.cons.inj (List.append_inj_right' e rfl)).1
  | lineEnd hw =>
    have hn := congrArg List.length e
    rw [List.length_append, List.length_cons] at hn
    refine .inl ⟨List.length_eq_zero_iff.mp ?_, rfl⟩
    rcases hw with rfl | rfl
    · rw [List.length_singleton] at hn
      omega
    · cases v with
      | nil => cases e
      | cons c v =>
        simp only [List.length_cons, List.length_nil] at hn
        omega
  | word _ hb => exact absurd (hb _ hm) (by decide)

/-- A piece that begins with none of the bytes that begin other lexemes is blank, a word, or a line end. -/
theorem of_cons {b : UInt8} (h : IsPiece rest (b :: w) l)
    (hb : isBlank b = true ∨ isWordByte b = true ∨ b = Ascii.carriageReturn) :
    l = .blank (b :: w) ∧ (∀ c ∈ b :: w, isBlank c = true) ∨ l = .word (b :: w) ∧ (∀ c ∈ b :: w, isWordByte c = true) ∨
      b :: w = [Ascii.carriageReturn, Ascii.lineFeed] := by
  generalize e : b :: w = v at h ⊢
  have special : ∀ {c : UInt8}, b = c → isBlank c = false → isWordByte c = false → c ≠ Ascii.carriageReturn → False := by
    rintro c rfl h₁ h₂ h₃
    simp [h₁, h₂, h₃] at hb
  cases h with
  | blank _ hw => exact .inl ⟨rfl, hw⟩
  | word _ hw => exact .inr (.inl ⟨rfl, hw⟩)
  | sign hs =>
    obtain ⟨-, h₃, h₁, h₂⟩ := not_special_of_mem_signs _ hs
    exact (special (List.cons.inj e).1 h₁ h₂ h₃).elim
  | comment => exact (special (List.cons.inj e).1 rfl rfl (by decide)).elim
  | quoted hq =>
    rcases hq with rfl | rfl <;> exact (special (List.cons.inj e).1 rfl rfl (by decide)).elim
  | lineEnd hw =>
    rcases hw with rfl | rfl
    · exact (special (List.cons.inj e).1 rfl rfl (by decide)).elim
    · exact .inr (.inr rfl)

theorem of_equals (h : IsPiece rest (Ascii.equals :: w) l) : w = [] ∧ l = .equals := by
  generalize e : Ascii.equals :: w = v at h
  cases h with
  | blank _ hw => exact absurd (hw Ascii.equals (e ▸ List.mem_cons_self)) (by decide)
  | word _ hw => exact absurd (hw Ascii.equals (e ▸ List.mem_cons_self)) (by decide)
  | sign hs =>
    cases e
    have : ∀ s ∈ signs, s.1 = Ascii.equals → s.2 = .equals := by decide
    exact ⟨rfl, this _ hs rfl⟩
  | comment => cases e
  | quoted hq => rcases hq with rfl | rfl <;> cases e
  | lineEnd hw => rcases hw with rfl | rfl <;> cases e

end IsPiece

/-! ## Texts in pieces -/

/-- A text consists of pieces, each of which is read as the lexeme that is given with it, and the rest behind them. -/
inductive Spells (rest : Text) : List (Text × Lexeme) → Text → Prop
  | nil : Spells rest [] rest
  | cons {w t : Text} {l : Lexeme} {pieces : List (Text × Lexeme)} : lexeme? (w ++ t) = some (l, w.length) →
      Spells rest pieces t → Spells rest ((w, l) :: pieces) (w ++ t)

/-- A text that is split into lexemes consists of pieces. -/
theorem exists_spells : ∀ {t : Text} {ls : List Lexeme}, lexemesFrom? 0 t = some ls →
    ∃ pieces, Spells [] pieces t ∧ pieces.map Prod.snd = ls
  | [], _, h => by
    cases h
    exact ⟨[], .nil, rfl⟩
  | b :: t, _, h => by
    rw [lexemesFrom?] at h
    split at h
    · rename_i l n hl
      obtain ⟨ls, hr, rfl⟩ := Option.map_eq_some_iff.mp h
      obtain ⟨w, rest, e, rfl, hp⟩ := exists_isPiece hl
      obtain ⟨c, w, rfl⟩ := List.exists_cons_of_ne_nil hp.ne_nil
      rw [List.cons_append, List.cons.injEq] at e
      obtain ⟨rfl, rfl⟩ := e
      rw [List.length_cons, Nat.add_sub_cancel, lexemesFrom?_skip] at hr
      have hlt : rest.length < (b :: (w ++ rest)).length := by
        rw [List.length_cons, List.length_append]
        omega
      obtain ⟨pieces, hs, rfl⟩ := exists_spells hr
      exact ⟨(b :: w, l) :: pieces, .cons hl hs, rfl⟩
    · cases h
termination_by t => t.length

/-- A piece of blanks or a word. -/
def IsPlain (p : Text × Lexeme) : Prop := p.2 = .blank p.1 ∧ (∀ b ∈ p.1, isBlank b = true) ∨ p.2 = .word p.1

/-- A piece that lacks a byte ends before it. -/
theorem exists_of_not_mem {u t w v : Text} {b : UInt8} (e : u ++ b :: t = w ++ v) (hb : b ∉ w) :
    ∃ u', u = w ++ u' ∧ v = u' ++ b :: t := by
  rcases List.append_eq_append_iff.mp e with ⟨a, rfl, h⟩ | h
  · cases a with
    | nil => exact ⟨[], by simp, h.symm⟩
    | cons c a =>
      cases h
      simp at hb
  · exact h

/-- The rest of a text goes on with a string in triple quotes that began before it. -/
def IsInString (t rest : Text) : Prop :=
  ∃ pieces v v' more s, Spells (v ++ (v' ++ more)) pieces t ∧
    lexeme? (v ++ (v' ++ more)) = some (.longString s, (v ++ v').length) ∧ v ≠ [] ∧ v' ≠ [] ∧ rest = v' ++ more

namespace Spells

theorem append {rest t u : Text} {ps qs : List (Text × Lexeme)} (hp : Spells u ps t) (hq : Spells rest qs u) :
    Spells rest (ps ++ qs) t := by
  induction hp with
  | nil => exact hq
  | cons hl _ ih => exact .cons hl ih

theorem text_eq {rest t : Text} {pieces : List (Text × Lexeme)} (h : Spells rest pieces t) :
    t = (pieces.map Prod.fst).flatten ++ rest := by
  induction h with
  | nil => rfl
  | cons _ _ ih => rw [List.map_cons, List.flatten_cons, List.append_assoc, ← ih]

/-- A line begins behind a line end, or inside a string in triple quotes. -/
theorem exists_at_line {pieces : List (Text × Lexeme)} {head t : Text}
    (h : Spells [] pieces (head ++ Ascii.lineFeed :: t)) :
    (∃ before behind w, pieces = before ++ (w, .lineEnd) :: behind ∧
      Spells t (before ++ [(w, .lineEnd)]) (head ++ Ascii.lineFeed :: t) ∧ Spells [] behind t) ∨
    IsInString (head ++ Ascii.lineFeed :: t) t := by
  generalize e : head ++ Ascii.lineFeed :: t = u at h
  induction h generalizing head with
  | nil => cases head <;> cases e
  | @cons w u l pieces hl hs ih =>
    have later : ∀ {v : Text}, v ++ Ascii.lineFeed :: t = u →
        (∃ before behind w', (w, l) :: pieces = before ++ (w', .lineEnd) :: behind ∧
          Spells t (before ++ [(w', .lineEnd)]) (w ++ u) ∧ Spells [] behind t) ∨ IsInString (w ++ u) t := by
      intro v hv
      rcases ih hv with ⟨before, behind, w', rfl, hb, hr⟩ | ⟨ps, v, v', more, s, hb, hr⟩
      · exact .inl ⟨(w, l) :: before, behind, w', rfl, .cons hl hb, hr⟩
      · exact .inr ⟨(w, l) :: ps, v, v', more, s, .cons hl hb, hr⟩
    -- The line feed is in the first piece or behind it.
    rcases List.append_eq_append_iff.mp e with ⟨v, rfl, he⟩ | ⟨v, rfl, he⟩
    · cases v with
      | nil => exact later (v := []) he
      | cons c v =>
        rw [List.cons_append, List.cons.injEq] at he
        obtain ⟨rfl, rfl⟩ := he
        rcases (isPiece_of_lexeme? hl).lineFeed_cases with ⟨rfl, rfl⟩ | ⟨hv, s, rfl⟩
        · exact .inl ⟨[], pieces, _, rfl, .cons hl .nil, hs⟩
        · refine .inr ⟨[], head ++ [Ascii.lineFeed], v, u, s, ?_, ?_, by simp, hv, rfl⟩
          · simpa using Spells.nil
          · simpa using hl
    · exact later he.symm

/-- Before an equals sign that no sign, no quote and no comment stands before, there are blanks and words. -/
theorem exists_at_equals {pieces : List (Text × Lexeme)} {u t : Text} (h : Spells [] pieces (u ++ Ascii.equals :: t))
    (hu : ∀ b ∈ u, isBlank b = true ∨ isWordByte b = true ∨ b = Ascii.carriageReturn) :
    ∃ before behind, pieces = before ++ ([Ascii.equals], .equals) :: behind ∧
      Spells t (before ++ [([Ascii.equals], .equals)]) (u ++ Ascii.equals :: t) ∧ Spells [] behind t ∧
      (before.map Prod.fst).flatten = u ∧ ∀ p ∈ before, IsPlain p := by
  generalize e : u ++ Ascii.equals :: t = v at h
  induction h generalizing u with
  | nil => cases u <;> cases e
  | @cons w v l pieces hl hs ih =>
    have hp := isPiece_of_lexeme? hl
    obtain ⟨c, w, rfl⟩ := List.exists_cons_of_ne_nil hp.ne_nil
    cases u with
    | nil =>
      cases e
      obtain ⟨rfl, rfl⟩ := hp.of_equals
      exact ⟨[], pieces, rfl, .cons hl .nil, hs, rfl, nofun⟩
    | cons b u =>
      rw [List.cons_append, List.cons_append, List.cons.injEq] at e
      obtain ⟨rfl, e⟩ := e
      rw [List.forall_mem_cons] at hu
      have step : IsPlain (b :: w, l) → Ascii.equals ∉ w →
          ∃ before behind, (b :: w, l) :: pieces = before ++ ([Ascii.equals], .equals) :: behind ∧
            Spells t (before ++ [([Ascii.equals], .equals)]) (b :: w ++ v) ∧ Spells [] behind t ∧
            (before.map Prod.fst).flatten = b :: u ∧ ∀ p ∈ before, IsPlain p := by
        intro hl' hw
        obtain ⟨u, rfl, rfl⟩ := exists_of_not_mem e hw
        rw [List.forall_mem_append] at hu
        obtain ⟨before, behind, rfl, hb, hr, rfl, hf⟩ := ih hu.2.2 rfl
        exact ⟨(b :: w, l) :: before, behind, rfl, .cons hl hb, hr, rfl, List.forall_mem_cons.mpr ⟨hl', hf⟩⟩
      rcases hp.of_cons hu.1 with ⟨rfl, hw⟩ | ⟨rfl, hw⟩ | hw
      · exact step (.inl ⟨rfl, hw⟩) fun hm => absurd (hw _ (List.mem_cons_of_mem _ hm)) (by decide)
      · exact step (.inr rfl) fun hm => absurd (hw _ (List.mem_cons_of_mem _ hm)) (by decide)
      · -- A carriage return would need a line feed behind it.
        cases hw
        cases u with
        | nil => cases e
        | cons c u =>
          cases e
          exact absurd (hu.2 _ List.mem_cons_self) (by decide)

end Spells

end PhpLiteral.Toml
