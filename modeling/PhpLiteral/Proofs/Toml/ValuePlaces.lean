import PhpLiteral.Proofs.Text.Blank
import PhpLiteral.Proofs.Toml.Assigned

/-!
# Places of values

Where a line of a TOML text starts with a key and an equals sign, the value of this key stands behind it, unless the line
starts inside a string (`exists_value_place`): the machine awaits it there (`AwaitsAt`), and the statements of the text
assign the item that it becomes.
-/

namespace PhpLiteral.Toml

/-- The item of a value that is one lexeme. -/
def Lexeme.item? : Lexeme → Option Item
  | .word t => scalar? t
  | .string t | .longString t => some (.text t)
  | _ => none

/-- A list or an inline table. -/
def Item.IsContainer : Item → Prop
  | .list _ | .table .inline _ => True
  | _ => False

/-- A longer text than a word, as a value that is neither a string nor a list nor a table may have: a point or a space
follows the word in it. -/
def IsLonger (w t : Text) : Prop := ∃ b more, (b = Ascii.dot ∨ b = Ascii.space) ∧ t = w ++ b :: more

/-- What a value may become that begins with a lexeme. -/
def Lexeme.Begins (l : Lexeme) (item : Item) : Prop :=
  item.IsContainer ∨ l.item? = some item ∨ ∃ w t, l = .word w ∧ IsLonger w t ∧ scalar? t = some item

/-- The text of a value that begins with a word and goes on behind it. -/
def Lexeme.Reads (l : Lexeme) (t : Text) (gap : Bool) : Prop := ∃ w, l = .word w ∧ (t = w ∧ gap = true ∨ IsLonger w t)

theorem IsLonger.append {w t : Text} (h : IsLonger w t) (more : Text) : IsLonger w (t ++ more) := by
  obtain ⟨b, rest, hb, rfl⟩ := h
  exact ⟨b, rest ++ more, hb, by simp⟩

theorem isClosed_of_scalar? {t : Text} {item : Item} (h : scalar? t = some item) : item.IsClosed := by
  unfold scalar? at h
  split at h
  · cases h
    trivial
  split at h
  · cases h
    trivial
  split at h <;> cases h <;> trivial

theorem Lexeme.Begins.isClosed {l : Lexeme} {item : Item} (h : l.Begins item) : item.IsClosed := by
  rcases h with h | h | ⟨w, t, -, -, h⟩
  · cases item with
    | list => trivial
    | table kind members => cases kind <;> first | rfl | cases h
    | _ => cases h
  · cases l with
    | word => exact isClosed_of_scalar? h
    | string | longString =>
      cases h
      trivial
    | _ => cases h
  · exact isClosed_of_scalar? h

theorem follows_begins (l : Lexeme) : Follows l.Begins l.Reads where
  closed _ h := h.isClosed
  list _ := .inl trivial
  table _ := .inl trivial
  goesOn := by
    rintro t t' gap gap' l' ⟨w, rfl, hw⟩ hg
    refine ⟨w, rfl, ?_⟩
    rcases hw with ⟨rfl, rfl⟩ | hw
    · cases hg with
      | time => exact .inr ⟨_, _, .inr rfl, rfl⟩
    · cases hg with
      | dot | word | time => exact .inr (hw.append _)
      | gap => exact .inr hw
  ends := by
    rintro t gap item ⟨w, rfl, ⟨rfl, -⟩ | hw⟩ hs
    · exact .inr (.inl hs)
    · exact .inr (.inr ⟨w, t, rfl, hw, hs⟩)

/-! ## From the value on -/

section

variable {name : Text} {m m₁ m' : Machine} {target : List Text} {stack : List Frame}

/-- No word begins right behind a word. -/
theorem ne_word {t u v w rest : Text} {l : Lexeme} (ht : lexeme? (v ++ (w ++ rest)) = some (.word t, v.length))
    (hl : lexeme? (w ++ rest) = some (l, w.length)) : l ≠ .word u := by
  rintro rfl
  cases isPiece_of_lexeme? hl with
  | sign hs => simp [signs] at hs
  | quoted _ hs => simp at hs
  | word hn hu _ =>
    obtain ⟨b, u, rfl⟩ := List.exists_cons_of_ne_nil hn
    cases isPiece_of_lexeme? ht with
    | sign hs => simp [signs] at hs
    | quoted _ hs => simp at hs
    | word _ _ hr =>
      exact Bool.noConfusion ((hu b List.mem_cons_self).symm.trans (hr b rfl))

/-- Another lexeme behind a word ends the value or makes it longer. -/
theorem has_step_word {done : List Statement} {t : Text} {l : Lexeme} (ha : Awaits [name] target stack)
    (hl : ∀ u, l ≠ .word u) (h : step ⟨.scalar target stack t false, done⟩ l = some m') :
    m'.Has name (Lexeme.word t).Begins (Lexeme.word t).Reads := by
  rcases step_scalar_cases h with ⟨t', gap', hg, rfl⟩ | ⟨item, hi, h⟩
  · refine .inl (.inr ⟨ha, t, rfl, ?_⟩)
    cases hg with
    | dot => exact .inr ⟨_, [], .inl rfl, rfl⟩
    | word more => exact absurd rfl (hl more)
    | gap => exact .inl ⟨rfl, rfl⟩
  · exact has_stepAfter (follows_begins _) (.inl (.inr (.inr ⟨ha, .inr (.inl hi)⟩))) h

/-- Where the value of a name is awaited, the machine goes on to a member of this name that is what its value becomes. -/
theorem has_of_awaits {w rest : Text} {l : Lexeme} {behind : List (Text × Lexeme)} (hm : m.state = .value target stack)
    (ha : Awaits [name] target stack) (hw : lexeme? (w ++ rest) = some (l, w.length)) (hl : l.BeginsValue)
    (h₁ : step m l = some m₁) (hs : Spells [] behind rest)
    (h : (behind.map Prod.snd ++ [Lexeme.lineEnd]).foldlM step m₁ = some m') : m'.Has name l.Begins l.Reads := by
  obtain ⟨state, done⟩ := m
  cases hm
  have hf := follows_begins l
  cases l with
  | string t | longString t =>
    cases h₁
    refine Machine.Has.foldlM_step hf ?_ h
    exact .inl (.inr (.inr ⟨ha, .inr (.inl rfl)⟩))
  | openBracket =>
    rcases ite_eq_iff.mp h₁ with ⟨-, h₁⟩ | ⟨-, h₁⟩ <;> cases h₁
    refine Machine.Has.foldlM_step hf ?_ h
    exact .inl (.value ha)
  | openBrace =>
    rcases ite_eq_iff.mp h₁ with ⟨-, h₁⟩ | ⟨-, h₁⟩ <;> cases h₁
    refine Machine.Has.foldlM_step hf ?_ h
    exact .inl (.inr (.inr ha))
  | word t =>
    cases h₁
    cases hs with
    | nil =>
      rw [List.map_nil, List.nil_append, List.foldlM_cons] at h
      obtain ⟨m₂, h₂, h⟩ := Option.bind_eq_some_iff.mp h
      exact Machine.Has.foldlM_step hf (has_step_word (l := .lineEnd) ha (fun _ => nofun) h₂) h
    | cons hl hs =>
      rw [List.map_cons, List.cons_append, List.foldlM_cons] at h
      obtain ⟨m₂, h₂, h⟩ := Option.bind_eq_some_iff.mp h
      exact Machine.Has.foldlM_step hf (has_step_word ha (fun u => ne_word hw hl) h₂) h
  | _ => cases hl

end

/-! ## Numbers and texts -/

/-- A number or a text. -/
def Item.IsAtom : Item → Prop
  | .int _ | .text _ => True
  | _ => False

theorem Item.not_has_of_isAtom {name : Text} {P : Item → Prop} {item : Item} (h : item.IsAtom) : ¬ item.Has name P := by
  intro hh
  cases hh <;> cases h

theorem isBareKeyByte_of_hexValue? {b : UInt8} {d : Nat} (h : Ascii.hexValue? b = some d) : isBareKeyByte b = true := by
  unfold Ascii.hexValue? at h
  simp only [isBareKeyByte, Ascii.isLetter]
  grind

theorem isBareKeyByte_of_grouped? {base n m : Nat} {afterDigit : Bool} {t : Text}
    (h : grouped? base n afterDigit t = some m) : ∀ b ∈ t, isBareKeyByte b = true := by
  fun_induction grouped? base n afterDigit t with
  | case1 => exact fun b hb => absurd hb List.not_mem_nil
  | case2 => cases h
  | case3 n rest ih => exact List.forall_mem_cons.mpr ⟨by decide, ih h⟩
  | case4 => cases h
  | case5 n afterDigit b rest hb d hd hlt ih =>
    exact List.forall_mem_cons.mpr ⟨isBareKeyByte_of_hexValue? hd, ih h⟩
  | case6 | case7 => cases h

/-- A byte that an integer may be written with. -/
def isIntByte (b : UInt8) : Bool := isBareKeyByte b || b = Ascii.plus

theorem isIntByte_of_int? {t : Text} {i : Int} (h : int? t = some i) : ∀ b ∈ t, isIntByte b = true := by
  have digits : ∀ {base : Nat} {c : UInt8} {rest : Text} {n : Nat}, isIntByte c = true →
      grouped? base 0 false rest = some n → ∀ b ∈ Ascii.zero :: c :: rest, isIntByte b = true := by
    intro base c rest n hc hr
    refine List.forall_mem_cons.mpr ⟨by decide, List.forall_mem_cons.mpr ⟨hc, fun b hb => ?_⟩⟩
    rw [isIntByte, isBareKeyByte_of_grouped? hr b hb, Bool.true_or]
  unfold int? at h
  split at h
  · obtain ⟨n, hn, -⟩ := Option.map_eq_some_iff.mp h
    exact digits (by decide) hn
  · obtain ⟨n, hn, -⟩ := Option.map_eq_some_iff.mp h
    exact digits (by decide) hn
  · obtain ⟨n, hn, -⟩ := Option.map_eq_some_iff.mp h
    exact digits (by decide) hn
  · obtain ⟨n, hn, -⟩ := Option.map_eq_some_iff.mp h
    obtain ⟨m, hm, -⟩ := Option.bind_eq_some_iff.mp hn
    rcases ite_eq_iff.mp hm with ⟨-, hm⟩ | ⟨-, hm⟩
    · cases hm
    have hb : ∀ b ∈ (signed t).2, isIntByte b = true := by
      intro b hb
      rw [isIntByte, isBareKeyByte_of_grouped? hm b hb, Bool.true_or]
    unfold signed at hb
    split at hb
    · exact List.forall_mem_cons.mpr ⟨by decide, hb⟩
    · exact List.forall_mem_cons.mpr ⟨by decide, hb⟩
    · exact hb

theorem isGraphic_of_isIntByte {b : UInt8} (h : isIntByte b = true) : isGraphic b = true := by
  simp only [isIntByte, isBareKeyByte, Ascii.isLetter, Ascii.isDigit] at h
  simp only [isGraphic, Bool.and_eq_true, decide_eq_true_eq]
  grind

theorem int?_of_scalar? {t : Text} {item : Item} (h : scalar? t = some item) (ha : item.IsAtom) : ∃ i, int? t = some i := by
  unfold scalar? at h
  split at h
  · cases h
    cases ha
  split at h
  · cases h
    cases ha
  split at h <;> cases h
  · exact ⟨_, ‹_›⟩
  · cases ha
  · cases ha

/-- A value that is a number or a text is a single lexeme. -/
theorem Lexeme.Begins.item?_eq {l : Lexeme} {item : Item} (h : l.Begins item) (ha : item.IsAtom) : l.item? = some item := by
  rcases h with h | h | ⟨w, t, -, ⟨b, more, hb, rfl⟩, hs⟩
  · cases item with
    | int | text => cases h
    | _ => cases ha
  · exact h
  · obtain ⟨i, hi⟩ := int?_of_scalar? hs ha
    have := isIntByte_of_int? hi b (List.mem_append_right _ List.mem_cons_self)
    rcases hb with rfl | rfl <;> cases this

/-- It begins and ends with bytes that show. -/
theorem IsPiece.isGraphic_ends {rest w : Text} {l : Lexeme} {item : Item} (h : IsPiece rest w l) (hl : l.item? = some item)
    (ha : item.IsAtom) : (∀ b ∈ w.head?, isGraphic b = true) ∧ ∀ b ∈ w.getLast?, isGraphic b = true := by
  cases h with
  | word hn =>
    obtain ⟨i, hi⟩ := int?_of_scalar? hl ha
    have hb := fun b hb => isGraphic_of_isIntByte (isIntByte_of_int? hi b hb)
    exact ⟨fun b h => hb b (List.mem_of_head? h), fun b h => hb b (List.mem_of_getLast? h)⟩
  | @quoted quote body _ hq =>
    have : isGraphic quote = true := by rcases hq with rfl | rfl <;> rfl
    refine ⟨by simpa using this, ?_⟩
    rw [List.getLast?_concat]
    simpa using this
  | sign hs =>
    have : ∀ s ∈ signs, s.2.item?.isNone = true := by decide
    simpa [hl] using this _ hs
  | blank | comment | lineEnd => cases hl

/-! ## Places -/

/-- The text without a byte order mark before it. -/
def unmarked : Text → Text
  | 0xef :: 0xbb :: 0xbf :: t => t
  | t => t

theorem lexemes?_eq (t : Text) : lexemes? t = lexemesFrom? 0 (unmarked t) := by
  unfold lexemes?
  split
  · rfl
  · rename_i hm
    rw [unmarked]
    exact hm

theorem unmarked_eq_self {t : Text} (h : ∀ b ∈ t.head?, b ≠ 0xef) : unmarked t = t := by
  unfold unmarked
  split
  · exact absurd rfl (h _ rfl)
  · rfl

/-- A mark has no line feed, so that no line starts in it. -/
theorem exists_unmarked (head rest : Text) :
    ∃ head', unmarked (head ++ Ascii.lineFeed :: rest) = head' ++ Ascii.lineFeed :: rest := by
  generalize e : head ++ Ascii.lineFeed :: rest = t
  unfold unmarked
  split
  · rename_i t
    have hm : Ascii.lineFeed ∉ ([0xef, 0xbb, 0xbf] : Text) := by decide
    obtain ⟨head', -, ht⟩ := exists_of_not_mem (w := [0xef, 0xbb, 0xbf]) e hm
    exact ⟨head', ht⟩
  · exact ⟨head, e.symm⟩

/-- Where a TOML text goes on with `value` and `after`, the machine awaits the value of a key, and the next lexeme is
written as `value`. -/
def AwaitsAt (t key : Text) (l : Lexeme) (value after : Text) : Prop :=
  ∃ pieces m target stack, Spells (value ++ after) pieces (unmarked t) ∧
    (pieces.map Prod.snd).foldlM step ⟨.line, []⟩ = some m ∧ m.state = .value target stack ∧
    Awaits [key] target stack ∧ lexeme? (value ++ after) = some (l, value.length)

/-- The value of a key that is awaited there is one lexeme, which writes an item. -/
def IsValueAt (t key : Text) (item : Item) (value after : Text) : Prop :=
  ∃ l, AwaitsAt t key l value after ∧ l.item? = some item

theorem IsValueAt.isPiece {t key value after : Text} {item : Item} (h : IsValueAt t key item value after) :
    ∃ l, IsPiece after value l ∧ l.item? = some item := by
  obtain ⟨l, ⟨pieces, m, target, stack, -, -, -, -, hl⟩, hi⟩ := h
  exact ⟨l, isPiece_of_lexeme? hl, hi⟩

section

variable {t head u rest : Text} {statements : List Statement}

/-- What a line starts with that has an equals sign behind blanks, words and carriage returns. -/
structure StartsLine (t head u rest : Text) : Prop where
  split : t = head ++ (u ++ Ascii.equals :: rest)
  line : head = [] ∧ unmarked t = t ∨ ∃ before, head = before ++ [Ascii.lineFeed]
  plain : ∀ b ∈ u, isBlank b = true ∨ isWordByte b = true ∨ b = Ascii.carriageReturn

theorem exists_foldlM_append {m m' : Machine} {ls ls' : List Lexeme} (h : (ls ++ ls').foldlM step m = some m') :
    ∃ m₁, ls.foldlM step m = some m₁ ∧ ls'.foldlM step m₁ = some m' := by
  rw [List.foldlM_append] at h
  exact Option.bind_eq_some_iff.mp h

theorem exists_line_start {pieces : List (Text × Lexeme)} {m' : Machine} (h : StartsLine t head u rest)
    (hs : Spells [] pieces (unmarked t)) (hr : (pieces.map Prod.snd ++ [Lexeme.lineEnd]).foldlM step ⟨.line, []⟩ = some m') :
    IsInString (unmarked t) (u ++ Ascii.equals :: rest) ∨
      ∃ before behind m, Spells (u ++ Ascii.equals :: rest) before (unmarked t) ∧
        Spells [] behind (u ++ Ascii.equals :: rest) ∧ (before.map Prod.snd).foldlM step ⟨.line, []⟩ = some m ∧
        (m.state.IsBeforeKey ∨ m.state.IsPastKey) ∧
        (behind.map Prod.snd ++ [Lexeme.lineEnd]).foldlM step m = some m' := by
  rcases h.line with ⟨rfl, hu⟩ | ⟨before, rfl⟩
  · rw [hu, h.split, List.nil_append] at hs ⊢
    exact .inr ⟨[], pieces, _, .nil, hs, rfl, .inl trivial, hr⟩
  obtain ⟨before', hu⟩ := exists_unmarked before (u ++ Ascii.equals :: rest)
  have ht : unmarked t = before' ++ Ascii.lineFeed :: (u ++ Ascii.equals :: rest) := by
    rw [← hu, h.split, List.append_assoc, List.singleton_append]
  rw [ht] at hs ⊢
  rcases hs.exists_at_line with ⟨ps, behind, w, rfl, hb, hs'⟩ | hi
  · rw [List.map_append, List.append_assoc, List.foldlM_append] at hr
    obtain ⟨m₁, h₁, hr⟩ := Option.bind_eq_some_iff.mp hr
    rw [List.map_cons, List.cons_append, List.foldlM_cons] at hr
    obtain ⟨m₂, h₂, hr⟩ := Option.bind_eq_some_iff.mp hr
    refine .inr ⟨_, behind, m₂, hb, hs', ?_, isBeforeKey_or_isPastKey h₂, hr⟩
    rw [List.map_append, List.foldlM_append, h₁]
    show (step m₁ .lineEnd).bind _ = _
    rw [h₂]
    rfl
  · exact .inl hi

theorem not_isBareKeyByte_of_isBlank {b : UInt8} (h : isBlank b = true) : isBareKeyByte b = false := by
  simp only [isBlank, Bool.or_eq_true, decide_eq_true_eq] at h
  rcases h with rfl | rfl <;> rfl

theorem filter_isBareKeyByte {lead key gap : Text} (hb : ∀ b ∈ lead ++ gap, isBareKeyByte b = false)
    (hk : key.all isBareKeyByte = true) : (lead ++ (key ++ gap)).filter isBareKeyByte = key := by
  rw [List.forall_mem_append] at hb
  have hl : lead.filter isBareKeyByte = [] := List.filter_eq_nil_iff.mpr fun b h => Bool.eq_false_iff.mp (hb.1 b h)
  have hg : gap.filter isBareKeyByte = [] := List.filter_eq_nil_iff.mpr fun b h => Bool.eq_false_iff.mp (hb.2 b h)
  rw [List.filter_append, List.filter_append, hl, hg, List.filter_eq_self.mpr (List.all_eq_true.mp hk)]
  simp

/-- Behind a key at the start of a line its value begins, and a statement has what the value becomes. -/
theorem exists_value_place (h : StartsLine t head u rest) (hs : statements? t = some statements) :
    IsInString (unmarked t) (u ++ Ascii.equals :: rest) ∨
      ∃ gap value after l, rest = gap ++ (value ++ after) ∧ (∀ b ∈ gap, isBlank b = true) ∧
        AwaitsAt t (u.filter isBareKeyByte) l value after ∧
        ∃ s ∈ statements, s.Has (u.filter isBareKeyByte) l.Begins := by
  obtain ⟨ls, hl, hs⟩ := Option.bind_eq_some_iff.mp hs
  obtain ⟨⟨state, done⟩, hr, hs⟩ := Option.bind_eq_some_iff.mp hs
  cases state with
  | line =>
    cases hs
    rw [lexemes?_eq] at hl
    obtain ⟨pieces, hp, rfl⟩ := exists_spells hl
    refine (exists_line_start h hp hr).imp_right ?_
    rintro ⟨before, behind, m, hb, hs, hm, hk, hr⟩
    obtain ⟨upto, more, rfl, hu, hs, hf, hp⟩ := hs.exists_at_equals h.plain
    have e : (upto ++ ([Ascii.equals], Lexeme.equals) :: more).map Prod.snd ++ [Lexeme.lineEnd] =
        (upto.map Prod.snd ++ [Lexeme.equals]) ++ (more.map Prod.snd ++ [Lexeme.lineEnd]) := by simp
    rw [e] at hr
    obtain ⟨m₁, hm₁, hr⟩ := exists_foldlM_append hr
    obtain ⟨lead, key, gap, hk', hbl, hkey, target, stack, hv, ha⟩ := exists_awaits hp hk hm₁
    have hn : u.filter isBareKeyByte = key := by
      rw [← hf, hk']
      exact filter_isBareKeyByte (fun b hb => not_isBareKeyByte_of_isBlank (hbl b hb)) hkey
    obtain ⟨gap, w, l, after, behind, m₂, hg, hb', hm₂, hw, hl, h₂, hs, hr⟩ := exists_value_piece hs hv ha hr
    refine ⟨_, w, after, l, ?_, hb', ⟨before ++ (upto ++ [([Ascii.equals], .equals)] ++ gap), m₁, target, stack, ?_, ?_,
      hv, hn ▸ ha, hw⟩, ?_⟩
    · exact hg.text_eq
    · exact hb.append (hu.append hg)
    · rw [List.map_append, List.map_append, List.map_append, List.foldlM_append, hm]
      show ((upto.map Prod.snd ++ [Lexeme.equals] ++ gap.map Prod.snd).foldlM step m) = _
      rw [List.foldlM_append, hm₁]
      exact hm₂
    · have hh := has_of_awaits hv ha hw hl h₂ hs hr
      obtain ⟨s, hs, hh⟩ := hh.resolve_left id
      exact ⟨s, List.mem_reverse.mpr hs, hn ▸ hh⟩
  | _ => cases hs

end

end PhpLiteral.Toml
