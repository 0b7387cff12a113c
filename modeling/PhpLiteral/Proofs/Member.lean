import PhpLiteral.Proofs.Layout.EarlierLines
import PhpLiteral.Proofs.Syntax.Name

/-!
# Members named by strings

A place for a member is filled with a string as it stands, if this is an identifier, or with its literal in braces.
PHP reads either one as the member that the string names (`readMember_memberText`), as long as nothing goes on with an
identifier behind it; a string never is more than a name. What stands before the place and behind it is filled on its
own (`format_member`), and of what can stand right behind it in a template only a text that goes on with an identifier
and a place for values may do so (`mayContinue`).

* `fill`: the pieces of a template filled with values;
* `readMember`: the name of a member, as PHP reads it.
-/

namespace PhpLiteral

open Syntax (readString readString_stringLiteral takeWhile_append_of_stops)

/-! ## Pieces of templates -/

/-- The pieces of a template filled with values, from a column on. -/
def fill (s : Settings) (heap : Heap) (column : Nat) (tokens : List Token) (args : List Value) :
    Except DumpError Text :=
  let t := Template.ofTokens tokens
  (renderSlotsWith .exact s heap [] 0 (columnAfter column t.lead) t.slots args).map (t.lead ++ ·)

theorem format_eq_fill (s : Settings) (heap : Heap) (template : Text) (args : List Value) :
    format s heap template args = fill s heap 0 (Token.scan template) args := rfl

/-- Pieces that begin with a placeholder follow the places of the pieces before them. -/
theorem ofTokens_append {tokens : List Token} (h : (Template.ofTokens tokens).lead = []) (pre : List Token) :
    Template.ofTokens (pre ++ tokens) =
      ⟨(Template.ofTokens pre).lead, (Template.ofTokens pre).slots ++ (Template.ofTokens tokens).slots⟩ := by
  induction pre with
  | nil => simp [Template.ofTokens, ← h]
  | cons token pre ih =>
    cases token with
    | text t => simp [Template.ofTokens, ih]
    | mark m => cases m <;> simp [Template.ofTokens, ih]

variable {s : Settings} {heap : Heap}

theorem renderSlots_cons_eq_ok {chain : List Ref} {depth column : Nat} {placeholder : Placeholder} {after : Text}
    {slots : List (Placeholder × Text)} {v : Value} {args : List Value} {out : Text} :
    renderSlotsWith .exact s heap chain depth column ((placeholder, after) :: slots) (v :: args) = .ok out ↔
      ∃ text more, renderSlotWith .exact s heap chain depth column placeholder v = .ok text ∧
        renderSlotsWith .exact s heap chain depth (columnAfter column (text ++ after)) slots args = .ok more ∧
        out = text ++ after ++ more := by
  rw [renderSlotsWith, bind_eq_ok]
  simp only [bind_eq_ok, pure, Except.pure, Except.ok.injEq]
  constructor
  · rintro ⟨text, ht, more, hm, rfl⟩
    exact ⟨text, more, ht, hm, rfl⟩
  · rintro ⟨text, more, ht, hm, rfl⟩
    exact ⟨text, ht, more, hm, rfl⟩

/-- Places are filled one after another, each from the column behind the ones before it. -/
theorem renderSlots_append {slots more : List (Placeholder × Text)} {args others : List Value}
    (h : args.length = slots.length) {column : Nat} {out : Text} :
    renderSlotsWith .exact s heap [] 0 column (slots ++ more) (args ++ others) = .ok out ↔
      ∃ before behind, renderSlotsWith .exact s heap [] 0 column slots args = .ok before ∧
        renderSlotsWith .exact s heap [] 0 (columnAfter column before) more others = .ok behind ∧
        out = before ++ behind := by
  induction slots generalizing args column out with
  | nil =>
    obtain rfl := List.eq_nil_of_length_eq_zero h
    have hc : columnAfter column [] = column := rfl
    simp [renderSlotsWith, hc, pure, Except.pure]
  | cons slot slots ih =>
    obtain ⟨placeholder, after⟩ := slot
    cases args with
    | nil => cases h
    | cons v args =>
      rw [List.cons_append, List.cons_append, renderSlots_cons_eq_ok]
      simp only [renderSlots_cons_eq_ok, ih (Nat.succ.inj h)]
      constructor
      · rintro ⟨text, -, ht, ⟨before, behind, hb, hh, rfl⟩, rfl⟩
        refine ⟨_, behind, ⟨text, before, ht, hb, rfl⟩, ?_, by simp⟩
        rwa [columnAfter_append]
      · rintro ⟨-, behind, ⟨text, before, ht, hb, rfl⟩, hh, rfl⟩
        rw [columnAfter_append] at hh
        exact ⟨text, _, ht, ⟨before, behind, hb, hh, rfl⟩, by simp⟩

/-! ## Members -/

/-- What fills a place for a member that a string names. -/
def memberText (name : Text) : Text :=
  if Utf8.isValid name && isIdentifier name then name else utf8 "\x7b" ++ stringLiteral name ++ utf8 "\x7d"

theorem renderSlot_string (connective : Connective) (name : Text) (column : Nat) :
    renderSlotWith .exact s heap [] 0 column (.member connective) (.atom (.string name)) =
      .ok (connective.text ++ memberText name) := by
  rw [renderSlotWith, memberName?, memberText]
  by_cases h : (Utf8.isValid name && isIdentifier name) = true
  · simp only [if_pos h, pure, Except.pure]
  · simp only [if_neg h, Value.renderWith, Atom.code, bind, Except.bind, pure, Except.pure, bracedMember]

/-- The pieces around a place for a member are filled each on their own. -/
theorem fill_member_eq_ok {pre post : List Token} {connective : Connective} {name : Text} {args others : List Value}
    (h : args.length = (Template.ofTokens pre).slots.length) {out : Text} :
    fill s heap 0 (pre ++ .mark (.placeholder (.member connective)) :: post) (args ++ .atom (.string name) :: others) =
        .ok out ↔
      ∃ before behind, fill s heap 0 pre args = .ok before ∧
        fill s heap (columnAfter 0 (before ++ connective.text ++ memberText name)) post others = .ok behind ∧
        out = before ++ connective.text ++ memberText name ++ behind := by
  have hl : (Template.ofTokens (.mark (.placeholder (.member connective)) :: post)).lead = [] := rfl
  rw [fill, ofTokens_append hl]
  simp only [fill, map_eq_ok, renderSlots_append h, Template.ofTokens, renderSlots_cons_eq_ok, renderSlot_string,
    Except.ok.injEq]
  constructor
  · rintro ⟨-, ⟨before, -, hb, ⟨-, more, rfl, hm, rfl⟩, rfl⟩, rfl⟩
    refine ⟨_, _, ⟨before, hb, rfl⟩, ⟨more, ?_, rfl⟩, by simp⟩
    simpa only [columnAfter_append, List.append_assoc] using hm
  · rintro ⟨-, -, ⟨before, hb, rfl⟩, ⟨more, hm, rfl⟩, rfl⟩
    refine ⟨_, ⟨before, _, hb, ⟨_, more, rfl, ?_, rfl⟩, rfl⟩, by simp⟩
    simpa only [columnAfter_append, List.append_assoc] using hm

/-! ## Reading members -/

/-- The bytes that PHP takes for letters beside those of ASCII: from `0x7f` on, as up to PHP 7.0, or from `0x80` on. -/
inductive Letters
  | fromDelete
  | aboveDelete
  deriving DecidableEq, Repr

/-- Whether a byte can stand in an identifier. -/
def Letters.isPart : Letters → UInt8 → Bool
  | fromDelete, b => Identifier.isPart b
  | aboveDelete, b => Identifier.isPart b && b != Ascii.delete

/-- Reads the name of the member behind a connective, an identifier as far as it goes or a string in braces: the name,
and what follows it. -/
def readMember (letters : Letters) (t : Text) : Option (Text × Text) :=
  if t.head? = some Ascii.openBrace then
    match readString t.tail with
    | .closed bytes rest => if rest.head? = some Ascii.closeBrace then some (bytes, rest.tail) else none
    | _ => none
  else
    let name := t.takeWhile letters.isPart
    if name = [] ∨ name.head?.any Ascii.isDigit then none else some (name, t.drop name.length)

/-- A string whose bytes are letters where those of its identifiers are. -/
def Letters.agreeOn (letters : Letters) (name : Text) : Prop := letters = .aboveDelete → Ascii.delete ∉ name

theorem Letters.isPart_of_agreeOn {letters : Letters} {name : Text} (hl : letters.agreeOn name)
    (h : ∀ b ∈ name, Identifier.isPart b = true) : ∀ b ∈ name, letters.isPart b = true := by
  intro b hb
  cases letters with
  | fromDelete => exact h b hb
  | aboveDelete =>
    have hd : b ≠ Ascii.delete := fun e => hl rfl (e ▸ hb)
    simp [Letters.isPart, h b hb, hd]

theorem Letters.isPart_eq_false {letters : Letters} {b : UInt8} (h : Identifier.isPart b = false) :
    letters.isPart b = false := by
  cases letters <;> simp [Letters.isPart, h]

/-- An identifier is read as itself, up to a byte that cannot go on with it. -/
theorem readMember_identifier {letters : Letters} {name behind : Text} (hn : isIdentifier name = true)
    (hl : letters.agreeOn name) (hb : ∀ b ∈ behind.head?, Identifier.isPart b = false) :
    readMember letters (name ++ behind) = some (name, behind) := by
  obtain ⟨b, rest, rfl, hs, hp⟩ := Syntax.exists_of_isIdentifier hn
  have ht := takeWhile_append_of_stops (letters.isPart_of_agreeOn hl hp)
    fun c hc => letters.isPart_eq_false (hb c hc)
  have ho : b ≠ Ascii.openBrace := by
    rintro rfl
    exact absurd hs (by decide)
  have hd : Ascii.isDigit b = false := Syntax.not_isDigit_of_isStart hs
  rw [readMember, if_neg (by simpa using ho)]
  simp only [ht, List.drop_left]
  rw [if_neg (by simp [hd])]

theorem readMember_braced (letters : Letters) (name behind : Text) :
    readMember letters (utf8 "\x7b" ++ stringLiteral name ++ utf8 "\x7d" ++ behind) = some (name, behind) := by
  have h := readString_stringLiteral name (utf8 "\x7d" ++ behind)
  have ht : (utf8 "\x7b" ++ stringLiteral name ++ utf8 "\x7d" ++ behind) =
      Ascii.openBrace :: (stringLiteral name ++ (utf8 "\x7d" ++ behind)) := by simp; rfl
  rw [ht, readMember, List.head?_cons, if_pos rfl, List.tail_cons, h]
  rfl

/-- What fills a place for a member is an identifier, or a literal in braces that is complete on its own. -/
theorem memberText_cases (name : Text) : memberText name = name ∧ isIdentifier name = true ∨
    ∃ literal, memberText name = utf8 "\x7b" ++ literal ++ utf8 "\x7d" ∧
      ∀ rest, readString (literal ++ rest) = .closed name rest := by
  rw [memberText]
  split
  · rename_i h
    exact .inl ⟨rfl, (Bool.and_eq_true_iff.mp h).2⟩
  · exact .inr ⟨stringLiteral name, rfl, readString_stringLiteral name⟩

theorem readMember_memberText {letters : Letters} {name behind : Text} (hl : letters.agreeOn name)
    (hb : ∀ b ∈ behind.head?, Identifier.isPart b = false) :
    readMember letters (memberText name ++ behind) = some (name, behind) := by
  rw [memberText]
  split
  · rename_i h
    exact readMember_identifier (Bool.and_eq_true_iff.mp h).2 hl hb
  · exact readMember_braced letters name behind

/-! ## What follows a member -/

/-- Whether what pieces of a template write may go on with an identifier: a text that does so, and a place for a value
or for arguments. -/
def mayContinue : List Token → Bool
  | .text t :: _ => t.head?.any Identifier.isPart
  | .mark (.placeholder (.member _)) :: _ => false
  | .mark (.placeholder _) :: _ => true
  | _ => false

theorem head?_connective (connective : Connective) :
    ∃ b rest, connective.text = b :: rest ∧ Identifier.isPart b = false := by
  cases connective <;> exact ⟨_, _, rfl, by decide⟩

theorem exists_of_renderSlot_member {connective : Connective} {v : Value} {column : Nat} {text : Text}
    (h : renderSlotWith .exact s heap [] 0 column (.member connective) v = .ok text) :
    ∃ w, text = connective.text ++ w := by
  rw [renderSlotWith] at h
  split at h
  · cases h
    exact ⟨_, rfl⟩
  · obtain ⟨t, -, ht⟩ := bind_eq_ok.mp h
    cases ht
    exact ⟨_, rfl⟩

/-- Pieces that cannot go on with an identifier do not. -/
theorem not_isPart_of_fill {post : List Token} (hm : mayContinue post = false)
    (hn : ∀ t, .text t ∈ post → t ≠ []) {others : List Value} {column : Nat} {behind : Text}
    (h : fill s heap column post others = .ok behind) : ∀ b ∈ behind.head?, Identifier.isPart b = false := by
  obtain ⟨more, hs, rfl⟩ := map_eq_ok.mp h
  match post with
  | [] =>
    cases others with
    | nil =>
      simp only [Template.ofTokens, renderSlotsWith, pure, Except.pure, Except.ok.injEq] at hs
      simp [Template.ofTokens, ← hs]
    | cons v others => simp [Template.ofTokens, renderSlotsWith, Machine.exact] at hs
  | .text t :: post =>
    obtain ⟨b, t, rfl⟩ := List.exists_cons_of_ne_nil (hn t List.mem_cons_self)
    rintro c ⟨⟩
    exact hm
  | .mark .escaped :: post =>
    rintro b ⟨⟩
    decide
  | .mark (.placeholder (.member connective)) :: post =>
    cases others with
    | nil => simp [Template.ofTokens, renderSlotsWith, Machine.exact] at hs
    | cons v others =>
      obtain ⟨text, -, ht, -, rfl⟩ := renderSlots_cons_eq_ok.mp hs
      obtain ⟨w, rfl⟩ := exists_of_renderSlot_member ht
      obtain ⟨b, rest, hc, hb⟩ := head?_connective connective
      rw [hc]
      rintro c ⟨⟩
      exact hb
  | .mark (.placeholder .value) :: _ | .mark (.placeholder .spread) :: _ | .mark (.placeholder .starSpread) :: _
  | .mark (.placeholder .namedSpread) :: _ => cases hm

/-- A place for a member is filled with a string that is an identifier, or with a literal in braces that is read as the
string; what stands before and behind it is filled on its own. Unless what is written behind it goes on with an
identifier, which only a text that does so and a place for values can, the member that PHP reads is the one that the
string names, and nothing else in the string is read as code. -/
theorem format_member (s : Settings) (heap : Heap) {template : Text} {pre post : List Token} {connective : Connective}
    (ht : Token.scan template = pre ++ .mark (.placeholder (.member connective)) :: post) {args : List Value}
    (ha : args.length = (Template.ofTokens pre).slots.length) (name : Text) (others : List Value) :
    ∃ w, (w = name ∧ isIdentifier name = true ∨
        ∃ literal, w = utf8 "\x7b" ++ literal ++ utf8 "\x7d" ∧
          ∀ rest, readString (literal ++ rest) = .closed name rest) ∧
      (∀ out, format s heap template (args ++ .atom (.string name) :: others) = .ok out ↔
        ∃ before behind, fill s heap 0 pre args = .ok before ∧
          fill s heap (columnAfter 0 (before ++ connective.text ++ w)) post others = .ok behind ∧
          out = before ++ connective.text ++ w ++ behind) ∧
      ∀ (letters : Letters) (behind : Text), letters.agreeOn name →
        ((∀ b ∈ behind.head?, Identifier.isPart b = false) ∨
          mayContinue post = false ∧ ∃ column, fill s heap column post others = .ok behind) →
        readMember letters (w ++ behind) = some (name, behind) := by
  refine ⟨memberText name, memberText_cases name, fun out => ?_, fun letters behind hl hb => ?_⟩
  · rw [format_eq_fill, ht, fill_member_eq_ok ha]
  · refine readMember_memberText hl ?_
    rcases hb with hb | ⟨hm, column, hf⟩
    · exact hb
    · refine not_isPart_of_fill hm (fun t hm => ?_) hf
      have hs : .text t ∈ Token.scan template := by
        rw [ht]
        exact List.mem_append_right _ (List.mem_cons_of_mem _ hm)
      exact (text_of_mem_scan hs).1

/-- A quote in the name of a method ends nothing. -/
theorem format_member_quote : ∃ w,
    format {} ⟨[], []⟩ (utf8 "f(?, $a->?)") [.atom (.int 1), .atom (.string (utf8 "it's"))] =
      .ok (utf8 "f(1, $a->" ++ w ++ utf8 ")") ∧
    readMember .aboveDelete (w ++ utf8 ")") = some (utf8 "it's", utf8 ")") := by
  have ht : Token.scan (utf8 "f(?, $a->?)") =
      [.text (utf8 "f("), .mark (.placeholder .value), .text (utf8 ", $a")] ++
        .mark (.placeholder (.member .arrow)) :: [.text (utf8 ")")] := by decide
  have ha : ([.atom (.int 1)] : List Value).length =
      (Template.ofTokens [.text (utf8 "f("), .mark (.placeholder .value), .text (utf8 ", $a")]).slots.length := rfl
  obtain ⟨w, -, hf, hr⟩ := format_member {} ⟨[], []⟩ ht ha (utf8 "it's") []
  have h₀ : fill {} ⟨[], []⟩ 0 [.text (utf8 "f("), .mark (.placeholder .value), .text (utf8 ", $a")] [.atom (.int 1)] =
      .ok (utf8 "f(1, $a") := by
    simp [fill, Template.ofTokens, renderSlotsWith, renderSlotWith, Value.renderWith]
    decide
  have h₁ (column : Nat) : fill {} ⟨[], []⟩ column [.text (utf8 ")")] [] = .ok (utf8 ")") := by
    simp [fill, Template.ofTokens, renderSlotsWith, Except.map, pure, Except.pure]
  have hp : ∀ b ∈ (utf8 ")").head?, Identifier.isPart b = false := by
    rintro b ⟨⟩
    rfl
  exact ⟨w, (hf _).mpr ⟨_, _, h₀, h₁ _, by simp; rfl⟩, hr _ _ (fun _ => by decide) (.inl hp)⟩

/-- A number that fills a place right behind an identifier goes on with it. -/
theorem format_member_continued :
    Token.scan (utf8 "->??") = [.mark (.placeholder (.member .arrow)), .mark (.placeholder .value)] ∧
      Identifier.isPart Ascii.question = false ∧
      format {} ⟨[], []⟩ (utf8 "->??") [.atom (.string (utf8 "foo")), .atom (.int 5)] = .ok (utf8 "->foo5") ∧
      ∀ letters, readMember letters (utf8 "foo5") = some (utf8 "foo5", []) := by
  refine ⟨by decide, by decide, ?_, fun letters => by cases letters <;> decide⟩
  rw [format, show Template.parse (utf8 "->??") = ⟨[], [(.member .arrow, []), (.value, [])]⟩ by decide]
  simp [renderSlotsWith, renderSlotWith, Value.renderWith]
  decide

end PhpLiteral
