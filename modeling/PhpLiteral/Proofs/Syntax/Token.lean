import PhpLiteral.Proofs.Syntax.Lexeme

/-!
# Tokens of PHP code

The tokens of a text are its lexemes as they are written, white space between them left out (`tokens?`). A comma
directly before a closing bracket may be left out, too, without a change to what an array holds
(`withoutTrailing`). `Tokenizes` says which tokens a piece of code gives, whatever follows it within bounds, so that
pieces can be put together (`Tokenizes.append`).
-/

namespace PhpLiteral.Syntax

/-- A lexeme as it is written. -/
abbrev Token := Text

/-- The tokens behind the next `skip` bytes. -/
def tokensFrom : (skip : Nat) → Text → Option (List Token)
  | _, [] => some []
  | skip + 1, _ :: rest => tokensFrom skip rest
  | 0, b :: rest =>
    if isSpace b then tokensFrom 0 rest
    else
      match lexeme? (b :: rest) with
      | some (_, length) => (tokensFrom (length - 1) rest).map ((b :: rest).take length :: ·)
      | none => none

/-- The tokens of a text, if PHP reads it as code without interpolated strings. -/
def tokens? (t : Text) : Option (List Token) := tokensFrom 0 t

/-- The comma as a token. -/
def comma : Token := [Ascii.comma]

/-- The opening bracket as a token. -/
def openBracket : Token := [Ascii.openBracket]

/-- The closing bracket as a token. -/
def closeBracket : Token := [Ascii.closeBracket]

/-- The tokens without each comma directly before a closing bracket. -/
def withoutTrailing : List Token → List Token
  | t :: u :: rest =>
    if t = comma ∧ u = closeBracket then withoutTrailing (u :: rest) else t :: withoutTrailing (u :: rest)
  | ts => ts

/-- The tokens of a text that are left when each comma directly before a closing bracket is left out. -/
def code? (t : Text) : Option (List Token) := (tokens? t).map withoutTrailing

example : code? (utf8 "[\n\t'a' => [1,\t2, ],\n]") = code? (utf8 "['a'=>[1, 2]]") := by decide

/-! ## Pieces of code -/

/-- A piece of code gives tokens wherever what follows meets a condition. -/
def Tokenizes (after : Text → Prop) (t : Text) (ts : List Token) : Prop :=
  ∀ rest, after rest → tokens? (t ++ rest) = (tokens? rest).map (ts ++ ·)

/-- What follows may be anything. -/
def Always (_ : Text) : Prop := True

variable {after after' : Text → Prop} {t u : Text} {ts us : List Token}

theorem Tokenizes.append (ht : Tokenizes after t ts) (hu : Tokenizes after' u us)
    (h : ∀ rest, after' rest → after (u ++ rest)) : Tokenizes after' (t ++ u) (ts ++ us) := by
  intro rest hr
  rw [List.append_assoc, ht _ (h rest hr), hu rest hr]
  cases tokens? rest <;> simp

theorem Tokenizes.cons (ht : Tokenizes Always t ts) (hu : Tokenizes after u us) : Tokenizes after (t ++ u) (ts ++ us) :=
  ht.append hu fun _ _ => trivial

/-- A piece that must end is followed by one that ends words. -/
theorem Tokenizes.append_stops (ht : Tokenizes Stops t ts) (hu : Tokenizes after u us) (hs : Stops u) (hn : u ≠ []) :
    Tokenizes after (t ++ u) (ts ++ us) := by
  refine ht.append hu fun rest _ => ?_
  obtain ⟨b, u, rfl⟩ := List.exists_cons_of_ne_nil hn
  exact stops_cons.mpr (stops_cons.mp hs)

theorem Tokenizes.weaken (h : Tokenizes Always t ts) : Tokenizes after t ts := fun rest _ => h rest trivial

theorem Tokenizes.tokens?_eq (h : Tokenizes after t ts) (h₀ : after []) : tokens? t = some ts := by
  have := h [] h₀
  rw [List.append_nil] at this
  rw [this]
  simp [tokens?, tokensFrom]

theorem Tokenizes.ne_nil (h : Tokenizes after t ts) (h₀ : after []) (hn : ts ≠ []) : t ≠ [] := by
  rintro rfl
  have := h.tokens?_eq h₀
  exact hn (Option.some.inj this).symm

theorem tokenizes_nil : Tokenizes Always [] [] := fun rest _ => by simp

theorem tokensFrom_append (w rest : Text) : tokensFrom w.length (w ++ rest) = tokens? rest := by
  induction w with
  | nil => rfl
  | cons b w ih => rw [← ih]; rfl

/-- A lexeme gives the token that it is written as. -/
theorem tokenizes_lexeme {b : UInt8} {w : Text}
    (h : ∀ rest, after rest → isSpace b = false ∧ ∃ l, lexeme? (b :: w ++ rest) = some (l, w.length + 1)) :
    Tokenizes after (b :: w) [b :: w] := by
  intro rest hr
  obtain ⟨hs, l, hl⟩ := h rest hr
  rw [List.cons_append] at hl ⊢
  rw [tokens?, tokensFrom, hs, hl]
  simp only [Bool.false_eq_true, if_false, Nat.add_sub_cancel, tokensFrom_append]
  simp

theorem tokenizes_of_isSpace {w : Text} (h : ∀ b ∈ w, isSpace b = true) : Tokenizes Always w [] := by
  intro rest _
  induction w with
  | nil => simp
  | cons b w ih =>
    rw [← ih fun c hc => h c (List.mem_cons_of_mem _ hc), List.cons_append, tokens?, tokensFrom,
      if_pos (h b List.mem_cons_self)]
    rfl

theorem tokenizes_open : Tokenizes Always [Ascii.openBracket] [openBracket] := fun _ _ => rfl

theorem tokenizes_close : Tokenizes Always [Ascii.closeBracket] [closeBracket] := fun _ _ => rfl

theorem tokenizes_comma : Tokenizes Always [Ascii.comma] [comma] := fun _ _ => rfl

/-! ## Strings, names and numbers -/

theorem tokenizes_quoted {q : UInt8} {w bytes : Text} (hq : q = Ascii.quote ∨ q = Ascii.doubleQuote)
    (h : ∀ rest, readString (q :: w ++ rest) = .closed bytes rest) : Tokenizes Always (q :: w) [q :: w] :=
  tokenizes_lexeme fun rest _ =>
    ⟨by rcases hq with rfl | rfl <;> rfl, _, lexeme?_quoted hq (h rest)⟩

theorem tokenizes_stringLiteral (bytes : Text) : Tokenizes Always (stringLiteral bytes) [stringLiteral bytes] := by
  obtain ⟨q, w, hw, hq⟩ := exists_stringLiteral_cons bytes
  have hr := readString_stringLiteral bytes
  rw [hw] at hr ⊢
  exact tokenizes_quoted hq hr

theorem tokenizes_name {w : Text} (hw : ∀ b ∈ w, isNamePart b = true) (hd : w.head?.any Ascii.isDigit = false)
    (hn : w ≠ []) : Tokenizes Stops w [w] := by
  obtain ⟨b, w, rfl⟩ := List.exists_cons_of_ne_nil hn
  exact tokenizes_lexeme fun rest hr =>
    ⟨(lexeme?_name hw hd hr).1, _, (lexeme?_name hw hd hr).2⟩

theorem tokenizes_number {w : Text} (hd : w.head?.any Ascii.isDigit = true)
    (h : ∀ rest, Stops rest → numberOf (w ++ rest) = w) : Tokenizes Stops w [w] := by
  cases w with
  | nil => cases hd
  | cons b w =>
    exact tokenizes_lexeme fun rest hr =>
      ⟨(lexeme?_number hd (h rest hr)).1, _, (lexeme?_number hd (h rest hr)).2⟩

/-- A minus sign before a word is a token of its own. -/
theorem tokenizes_minus {w : Text} (hw : Tokenizes after w ts) (hg : w.head? ≠ some Ascii.greater) (hn : w ≠ []) :
    Tokenizes after (Ascii.minus :: w) ([Ascii.minus] :: ts) := by
  have hm : Tokenizes (fun rest => rest ≠ [] ∧ rest.head? ≠ some Ascii.greater) [Ascii.minus] [[Ascii.minus]] := by
    refine tokenizes_lexeme fun rest hr => ⟨rfl, .minus, ?_⟩
    obtain ⟨b, rest, rfl⟩ := List.exists_cons_of_ne_nil hr.1
    exact lexeme?_minus (fun e => hr.2 (congrArg some e)) rest
  refine hm.append hw fun rest _ => ?_
  obtain ⟨b, w, rfl⟩ := List.exists_cons_of_ne_nil hn
  exact ⟨List.cons_ne_nil _ _, hg⟩

/-! ## Trailing commas -/

theorem withoutTrailing_cons {t : Token} (h : t ≠ comma ∨ ts.head? ≠ some closeBracket) :
    withoutTrailing (t :: ts) = t :: withoutTrailing ts := by
  cases ts with
  | nil => simp [withoutTrailing]
  | cons u rest =>
    rw [withoutTrailing, if_neg]
    rintro ⟨rfl, rfl⟩
    rcases h with h | h <;> exact h rfl

/-- Tokens can be cut anywhere but between a comma and a closing bracket. -/
theorem withoutTrailing_append (h : ts.getLast? ≠ some comma ∨ us.head? ≠ some closeBracket) :
    withoutTrailing (ts ++ us) = withoutTrailing ts ++ withoutTrailing us := by
  induction ts with
  | nil => rfl
  | cons t ts ih =>
    cases ts with
    | nil => exact withoutTrailing_cons (h.imp_left fun h e => h (congrArg some e))
    | cons v ts =>
      have ih := ih (h.imp_left fun h => by rwa [List.getLast?_cons_cons] at h)
      simp only [List.cons_append, withoutTrailing] at ih ⊢
      split
      · exact ih
      · rw [ih]; rfl

/-- Tokens of a piece that is no array: there are some, none of them closes a bracket, and the last one is no comma. -/
structure IsPlain (ts : List Token) : Prop where
  ne_nil : ts ≠ []
  not_mem : closeBracket ∉ ts
  last : ts.getLast? ≠ some comma

theorem isPlain_singleton {w : Token} (h₁ : w ≠ closeBracket) (h₂ : w ≠ comma) : IsPlain [w] where
  ne_nil := List.cons_ne_nil _ _
  not_mem hm := h₁ (List.mem_singleton.mp hm).symm
  last e := h₂ (Option.some.inj e)

theorem getLast?_append_ne (hu : us ≠ []) (h : us.getLast? ≠ some comma) : (ts ++ us).getLast? ≠ some comma := by
  rwa [List.getLast?_append, List.getLast?_eq_some_getLast hu, Option.some_or, ← List.getLast?_eq_some_getLast hu]

theorem IsPlain.append (ht : closeBracket ∉ ts) (hu : IsPlain us) : IsPlain (ts ++ us) where
  ne_nil h := hu.ne_nil (List.append_eq_nil_iff.mp h).2
  not_mem hm := (List.mem_append.mp hm).elim ht hu.not_mem
  last := getLast?_append_ne hu.ne_nil hu.last

/-- A piece of code that closes no bracket, and behind which anything may follow. -/
def Leads (t : Text) : Prop := ∃ ts, Tokenizes Always t ts ∧ closeBracket ∉ ts

/-- An expression without brackets. -/
def IsTerm (t : Text) : Prop := ∃ ts, Tokenizes Stops t ts ∧ IsPlain ts

theorem IsTerm.ne_nil (ht : IsTerm t) : t ≠ [] := by
  obtain ⟨ts, ht, hp⟩ := ht
  exact ht.ne_nil stops_nil hp.ne_nil

theorem Leads.append (ht : Leads t) (hu : Leads u) : Leads (t ++ u) := by
  obtain ⟨ts, ht, hts⟩ := ht
  obtain ⟨us, hu, hus⟩ := hu
  exact ⟨ts ++ us, ht.cons hu, fun hm => (List.mem_append.mp hm).elim hts hus⟩

theorem Leads.isTerm (ht : Leads t) (hu : IsTerm u) : IsTerm (t ++ u) := by
  obtain ⟨ts, ht, hts⟩ := ht
  obtain ⟨us, hu, hus⟩ := hu
  exact ⟨ts ++ us, ht.cons hu, .append hts hus⟩

theorem IsTerm.leads (ht : IsTerm t) (hu : Leads u) (hs : Stops u) (hn : u ≠ []) : Leads (t ++ u) := by
  obtain ⟨ts, ht, hts⟩ := ht
  obtain ⟨us, hu, hus⟩ := hu
  exact ⟨ts ++ us, ht.append_stops hu hs hn, fun hm => (List.mem_append.mp hm).elim hts.not_mem hus⟩

theorem leads_of_isSpace {w : Text} (h : ∀ b ∈ w, isSpace b = true) : Leads w :=
  ⟨[], tokenizes_of_isSpace h, List.not_mem_nil⟩

theorem leads_comma : Leads [Ascii.comma] := ⟨[comma], tokenizes_comma, by decide⟩

theorem IsTerm.minus {w : Text} (hw : IsTerm w) (hg : w.head? ≠ some Ascii.greater) : IsTerm (Ascii.minus :: w) := by
  have hn := hw.ne_nil
  obtain ⟨ts, ht, hp⟩ := hw
  exact ⟨[Ascii.minus] :: ts, tokenizes_minus ht hg hn, .append (show closeBracket ∉ [[Ascii.minus]] by decide) hp⟩

theorem stringLiteral_ne {w : Text} (hw : w.head? ≠ some Ascii.quote ∧ w.head? ≠ some Ascii.doubleQuote)
    (bytes : Text) : stringLiteral bytes ≠ w := by
  rintro rfl
  obtain ⟨q, w, he, hq⟩ := exists_stringLiteral_cons bytes
  rw [he] at hw
  rcases hq with rfl | rfl
  · exact hw.1 rfl
  · exact hw.2 rfl

theorem leads_stringLiteral (bytes : Text) : Leads (stringLiteral bytes) :=
  ⟨_, tokenizes_stringLiteral bytes, fun hm => stringLiteral_ne (by decide) bytes (List.mem_singleton.mp hm).symm⟩

theorem isTerm_stringLiteral (bytes : Text) : IsTerm (stringLiteral bytes) :=
  ⟨_, (tokenizes_stringLiteral bytes).weaken,
    isPlain_singleton (stringLiteral_ne (by decide) bytes) (stringLiteral_ne (by decide) bytes)⟩

theorem withoutTrailing_eq_self (h : closeBracket ∉ ts) : withoutTrailing ts = ts := by
  induction ts with
  | nil => rfl
  | cons t ts ih =>
    rw [withoutTrailing_cons, ih fun hm => h (List.mem_cons_of_mem _ hm)]
    exact .inr fun e => h (List.mem_cons_of_mem _ (List.mem_of_mem_head? e))

end PhpLiteral.Syntax
