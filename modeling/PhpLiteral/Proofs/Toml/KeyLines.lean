import PhpLiteral.Proofs.Toml.Pieces

/-!
# Keys at the start of a line

Where a line of a TOML text starts with blanks and words before an equals sign, these are one word between blanks, and
the machine takes it for a key whose value is to come (`exists_awaits`): behind a value that has begun on a line before,
no equals sign can stand. The value begins with the first lexeme behind the equals sign that is no blank
(`exists_value_piece`).
-/

namespace PhpLiteral.Toml

/-! ## Values without quotes -/

/-- How a lexeme continues a value that is neither a string nor a list nor a table. -/
inductive GoesOn : (t : Text) → (gap : Bool) → Lexeme → (t' : Text) → (gap' : Bool) → Prop
  | dot (t : Text) : GoesOn t false .dot (t ++ [Ascii.dot]) false
  | word (t more : Text) : GoesOn t false (.word more) (t ++ more) false
  | gap (t : Text) : GoesOn t false (.blank [Ascii.space]) t true
  | time (t more : Text) : GoesOn t true (.word more) (t ++ Ascii.space :: more) false

section

variable {done : List Statement} {target : List Text} {stack : List Frame} {l : Lexeme} {m m' : Machine}

/-- A lexeme continues such a value or stands behind it. -/
theorem step_scalar_cases {t : Text} {gap : Bool} (h : step ⟨.scalar target stack t gap, done⟩ l = some m') :
    (∃ t' gap', GoesOn t gap l t' gap' ∧ m' = ⟨.scalar target stack t' gap', done⟩) ∨
      ∃ item, scalar? t = some item ∧ stepAfter done target stack item l = some m' := by
  simp only [step] at h
  split at h <;> try contradiction
  all_goals
    rename State.scalar target stack t gap = _ => e
    cases e
  · cases h
    exact .inl ⟨_, _, .dot t, rfl⟩
  · cases h
    exact .inl ⟨_, _, .word t _, rfl⟩
  · rcases ite_eq_iff.mp h with ⟨-, h⟩ | ⟨-, h⟩
    · cases h
      exact .inl ⟨_, _, .gap t, rfl⟩
    · exact .inr (Option.bind_eq_some_iff.mp h)
  · cases h
    exact .inl ⟨_, _, .time t _, rfl⟩
  · exact .inr (Option.bind_eq_some_iff.mp h)

/-! ## Where keys stand -/

/-- A key is to come, or the start of a statement. -/
def State.IsBeforeKey : State → Prop
  | .line | .member _ _ _ => True
  | _ => False

/-- The rest of a statement goes on behind its key, or the rest of a member of a table. -/
def State.IsPastKey : State → Prop
  | .value _ _ | .scalar _ _ _ _ | .after _ _ _ | .restOfLine => True
  | _ => False

/-- Behind a value, no key comes before a comma or a line end. -/
theorem stepAfter_of_isPlain {w : Text} {item : Item} (hl : l = .blank w ∨ l = .word w)
    (h : stepAfter done target stack item l = some m') : m'.state.IsPastKey := by
  cases stack with
  | nil =>
    rcases hl with rfl | rfl <;> cases h
    trivial
  | cons f stack =>
    rcases hl with rfl | rfl <;> cases f <;> cases h <;> trivial

theorem isPastKey_step {w : Text} (hm : m.state.IsPastKey) (hl : l = .blank w ∨ l = .word w)
    (h : step m l = some m') : m'.state.IsPastKey := by
  obtain ⟨state, done⟩ := m
  cases state with
  | restOfLine =>
    rcases hl with rfl | rfl <;> cases h
    trivial
  | value target stack => rcases hl with rfl | rfl <;> cases h <;> trivial
  | scalar target stack t gap =>
    rcases step_scalar_cases h with ⟨t', gap', -, rfl⟩ | ⟨item, -, h⟩
    · trivial
    · exact stepAfter_of_isPlain hl h
  | after target stack item => exact stepAfter_of_isPlain hl h
  | line | header | key | keyEnd | rowEnd | member => cases hm

theorem stepAfter_equals (item : Item) : stepAfter done target stack item .equals = none := by
  cases stack with
  | nil => rfl
  | cons f stack => cases f <;> rfl

/-- Behind a key and before the end of its statement, there is no equals sign but its own. -/
theorem not_step_equals (hm : m.state.IsPastKey) : step m .equals ≠ some m' := by
  intro h
  obtain ⟨state, done⟩ := m
  cases state with
  | restOfLine | value => cases h
  | scalar target stack t gap =>
    rcases step_scalar_cases h with ⟨_, _, hg, -⟩ | ⟨item, -, h⟩
    · cases hg
    · rw [stepAfter_equals] at h
      cases h
  | after target stack item =>
    have h : stepAfter done target stack item .equals = some m' := h
    rw [stepAfter_equals] at h
    cases h
  | line | header | key | keyEnd | rowEnd | member => cases hm

theorem isBeforeKey_or_isPastKey_stepAfter {item : Item} (h : stepAfter done target stack item .lineEnd = some m') :
    m'.state.IsBeforeKey ∨ m'.state.IsPastKey := by
  cases stack with
  | nil =>
    cases h
    exact .inl trivial
  | cons f stack => cases f <;> cases h <;> exact .inr trivial

/-- A line starts with a key, or within a value. -/
theorem isBeforeKey_or_isPastKey (h : step m .lineEnd = some m') : m'.state.IsBeforeKey ∨ m'.state.IsPastKey := by
  obtain ⟨state, done⟩ := m
  cases state with
  | line | restOfLine | member =>
    cases h
    exact .inl trivial
  | header | key | keyEnd | rowEnd => cases h
  | value target stack =>
    cases stack with
    | nil => cases h
    | cons f stack => cases f <;> cases h; exact .inr trivial
  | scalar target stack t gap =>
    rcases step_scalar_cases h with ⟨_, _, hg, -⟩ | ⟨item, -, h⟩
    · cases hg
    · exact isBeforeKey_or_isPastKey_stepAfter h
  | after target stack item => exact isBeforeKey_or_isPastKey_stepAfter h

end

/-! ## Keys -/

/-- The key whose value is to come: that of the innermost list or table that is open, or that of the statement. -/
inductive Awaits (key : List Text) : (target : List Text) → (stack : List Frame) → Prop
  | statement : Awaits key key []
  | member (target : List Text) (members : Members) (stack : List Frame) :
      Awaits key target (.table members key :: stack)

/-- Behind one part of a key. -/
inductive State.IsAtKeyEnd (part : Text) : State → Prop
  | assignment : IsAtKeyEnd part (.keyEnd .assignment [part])
  | member (target : List Text) (stack : List Frame) (members : Members) :
      IsAtKeyEnd part (.keyEnd (.member target stack members) [part])

section

variable {part w : Text} {m m' : Machine}

theorem State.IsAtKeyEnd.step_cases {l : Lexeme} (hm : m.state.IsAtKeyEnd part) (hl : l = .blank w ∨ l = .word w)
    (h : step m l = some m') : l = .blank w ∧ m'.state.IsAtKeyEnd part := by
  obtain ⟨state, done⟩ := m
  cases hm with
  | assignment =>
    rcases hl with rfl | rfl <;> cases h
    exact ⟨rfl, .assignment⟩
  | member target stack members =>
    rcases hl with rfl | rfl <;> cases h
    exact ⟨rfl, .member target stack members⟩

theorem State.IsAtKeyEnd.step_equals (hm : m.state.IsAtKeyEnd part) (h : step m .equals = some m') :
    ∃ target stack, m'.state = .value target stack ∧ Awaits [part] target stack := by
  obtain ⟨state, done⟩ := m
  cases hm with
  | assignment =>
    cases h
    exact ⟨_, _, rfl, .statement⟩
  | member target stack members =>
    cases h
    exact ⟨_, _, rfl, .member target members stack⟩

theorem State.IsBeforeKey.step_cases {l : Lexeme} (hm : m.state.IsBeforeKey) (hl : l = .blank w ∨ l = .word w)
    (h : step m l = some m') :
    l = .blank w ∧ m'.state.IsBeforeKey ∨ l = .word w ∧ w.all isBareKeyByte = true ∧ m'.state.IsAtKeyEnd w := by
  have key : ∀ {f : Text → Machine}, (keyPart? (.word w)).map f = some m' → w.all isBareKeyByte = true ∧ f w = m' := by
    intro f hf
    obtain ⟨part, hk, rfl⟩ := Option.map_eq_some_iff.mp hf
    rcases ite_eq_iff.mp hk with ⟨hw, hk⟩ | ⟨-, hk⟩ <;> cases hk
    exact ⟨hw, rfl⟩
  obtain ⟨state, done⟩ := m
  cases state with
  | line =>
    rcases hl with rfl | rfl
    · cases h
      exact .inl ⟨rfl, trivial⟩
    · obtain ⟨hw, rfl⟩ := key h
      exact .inr ⟨rfl, hw, .assignment⟩
  | member target stack members =>
    rcases hl with rfl | rfl
    · cases h
      exact .inl ⟨rfl, trivial⟩
    · obtain ⟨hw, rfl⟩ := key h
      exact .inr ⟨rfl, hw, .member target stack members⟩
  | _ => cases hm

theorem not_step_equals_of_isBeforeKey (hm : m.state.IsBeforeKey) : step m .equals ≠ some m' := by
  intro h
  obtain ⟨state, done⟩ := m
  cases state with
  | line | member => cases h
  | _ => cases hm

variable {pieces : List (Text × Lexeme)}

theorem IsPlain.lexeme_eq {p : Text × Lexeme} (h : IsPlain p) : p.2 = .blank p.1 ∨ p.2 = .word p.1 := h.imp_left And.left

theorem IsPlain.isBlank {p : Text × Lexeme} (h : IsPlain p) (hl : p.2 = .blank p.1) : ∀ b ∈ p.1, isBlank b = true := by
  rcases h with h | h
  · exact h.2
  · rw [h] at hl
    cases hl

theorem foldlM_step_cons {p : Text × Lexeme} (h : ((p :: pieces).map Prod.snd ++ [Lexeme.equals]).foldlM step m = some m') :
    ∃ m₁, step m p.2 = some m₁ ∧ (pieces.map Prod.snd ++ [Lexeme.equals]).foldlM step m₁ = some m' := by
  rw [List.map_cons, List.cons_append, List.foldlM_cons] at h
  exact Option.bind_eq_some_iff.mp h

theorem foldlM_step_nil (h : (([] : List (Text × Lexeme)).map Prod.snd ++ [Lexeme.equals]).foldlM step m = some m') :
    step m .equals = some m' := by
  simpa using h

theorem State.IsPastKey.not_foldlM_step (hp : ∀ p ∈ pieces, IsPlain p) (hm : m.state.IsPastKey) :
    (pieces.map Prod.snd ++ [Lexeme.equals]).foldlM step m ≠ some m' := by
  intro h
  induction pieces generalizing m with
  | nil => exact not_step_equals hm (foldlM_step_nil h)
  | cons p pieces ih =>
    rw [List.forall_mem_cons] at hp
    obtain ⟨m₁, h₁, h⟩ := foldlM_step_cons h
    exact ih hp.2 (isPastKey_step hm hp.1.lexeme_eq h₁) h

theorem State.IsAtKeyEnd.foldlM_step (hp : ∀ p ∈ pieces, IsPlain p) (hm : m.state.IsAtKeyEnd part)
    (h : (pieces.map Prod.snd ++ [Lexeme.equals]).foldlM step m = some m') :
    (∀ b ∈ (pieces.map Prod.fst).flatten, isBlank b = true) ∧
      ∃ target stack, m'.state = .value target stack ∧ Awaits [part] target stack := by
  induction pieces generalizing m with
  | nil => exact ⟨nofun, hm.step_equals (foldlM_step_nil h)⟩
  | cons p pieces ih =>
    rw [List.forall_mem_cons] at hp
    obtain ⟨m₁, h₁, h⟩ := foldlM_step_cons h
    obtain ⟨hl, hm₁⟩ := hm.step_cases hp.1.lexeme_eq h₁
    obtain ⟨hb, hv⟩ := ih hp.2 hm₁ h
    exact ⟨List.forall_mem_append.mpr ⟨hp.1.isBlank hl, hb⟩, hv⟩

/-- Words and blanks before an equals sign, from the start of a line on, are a key between blanks. -/
theorem exists_awaits (hp : ∀ p ∈ pieces, IsPlain p) (hm : m.state.IsBeforeKey ∨ m.state.IsPastKey)
    (h : (pieces.map Prod.snd ++ [Lexeme.equals]).foldlM step m = some m') :
    ∃ lead key gap, (pieces.map Prod.fst).flatten = lead ++ (key ++ gap) ∧ (∀ b ∈ lead ++ gap, isBlank b = true) ∧
      key.all isBareKeyByte = true ∧ ∃ target stack, m'.state = .value target stack ∧ Awaits [key] target stack := by
  have hm := hm.resolve_right fun hm => hm.not_foldlM_step hp h
  induction pieces generalizing m with
  | nil => exact absurd (foldlM_step_nil h) (not_step_equals_of_isBeforeKey hm)
  | cons p pieces ih =>
    rw [List.forall_mem_cons] at hp
    obtain ⟨m₁, h₁, h⟩ := foldlM_step_cons h
    rcases hm.step_cases hp.1.lexeme_eq h₁ with ⟨hl, hm₁⟩ | ⟨hl, hk, hm₁⟩
    · obtain ⟨lead, key, gap, hf, hb, hk⟩ := ih hp.2 (.inl hm₁) h hm₁
      refine ⟨p.1 ++ lead, key, gap, by rw [List.map_cons, List.flatten_cons, hf, List.append_assoc], ?_, hk⟩
      rw [List.append_assoc]
      exact List.forall_mem_append.mpr ⟨hp.1.isBlank hl, hb⟩
    · obtain ⟨hb, hv⟩ := hm₁.foldlM_step hp.2 h
      exact ⟨[], p.1, _, rfl, hb, hk, hv⟩

end

/-! ## Values -/

section

variable {m m' : Machine} {target key : List Text} {stack : List Frame}

/-- A lexeme that a value begins with. -/
def Lexeme.BeginsValue : Lexeme → Prop
  | .word _ | .string _ | .longString _ | .openBracket | .openBrace => True
  | _ => False

theorem step_value_cases {l : Lexeme} (hm : m.state = .value target stack) (ha : Awaits key target stack)
    (h : step m l = some m') : (∃ w, l = .blank w) ∧ m' = m ∨ l.BeginsValue := by
  obtain ⟨state, done⟩ := m
  cases hm
  have h : stepValue done target stack l = some m' := h
  cases l with
  | blank w =>
    cases h
    exact .inl ⟨⟨w, rfl⟩, rfl⟩
  | word | string | longString | openBracket | openBrace => exact .inr trivial
  | lineEnd | comment | dot | equals | comma | closeBracket | closeBrace => cases ha <;> cases h

/-- The value of a key begins behind blanks. -/
theorem exists_value_piece {pieces : List (Text × Lexeme)} {t : Text} (hs : Spells [] pieces t)
    (hm : m.state = .value target stack) (ha : Awaits key target stack)
    (h : (pieces.map Prod.snd ++ [Lexeme.lineEnd]).foldlM step m = some m') :
    ∃ gap w l rest behind m₁, Spells (w ++ rest) gap t ∧ (∀ b ∈ (gap.map Prod.fst).flatten, isBlank b = true) ∧
      (gap.map Prod.snd).foldlM step m = some m ∧ lexeme? (w ++ rest) = some (l, w.length) ∧ l.BeginsValue ∧
      step m l = some m₁ ∧ Spells [] behind rest ∧
      (behind.map Prod.snd ++ [Lexeme.lineEnd]).foldlM step m₁ = some m' := by
  induction hs with
  | nil =>
    have h : step m .lineEnd = some m' := by simpa using h
    rcases step_value_cases hm ha h with ⟨⟨w, e⟩, -⟩ | hl
    · cases e
    · exact hl.elim
  | @cons w u l pieces hl hs ih =>
    rw [List.map_cons, List.cons_append, List.foldlM_cons] at h
    obtain ⟨m₁, h₁, h₂⟩ := Option.bind_eq_some_iff.mp h
    rcases step_value_cases hm ha h₁ with ⟨⟨v, rfl⟩, rfl⟩ | hv
    · obtain ⟨gap, w', l, rest, behind, m₂, hg, hb, hr, ht⟩ := ih h₂
      refine ⟨(w, .blank v) :: gap, w', l, rest, behind, m₂, .cons hl hg, ?_, ?_, ht⟩
      · cases isPiece_of_lexeme? hl with
        | blank _ hw => exact List.forall_mem_append.mpr ⟨hw, hb⟩
        | sign hs => simp [signs] at hs
        | quoted _ hs => simp at hs
      · rw [List.map_cons, List.foldlM_cons, h₁]
        exact hr
    · exact ⟨[], w, l, u, pieces, m₁, .nil, nofun, rfl, hl, hv, h₁, hs, h₂⟩

end

end PhpLiteral.Toml
