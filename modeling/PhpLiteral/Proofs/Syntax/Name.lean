import PhpLiteral.FactoryName
import PhpLiteral.Proofs.Syntax.Token

/-!
# Names

A name with namespaces (`isName`) is one token (`isTerm_name`), and it stands for itself in single quotes
(`leads_quotedName`). The name of a function that rebuilds objects is such a name, perhaps with a method behind
it (`isTerm_factory`).
-/

namespace PhpLiteral

/-- Whether a text is a name with its namespaces: identifiers joined by backslashes, perhaps one more backslash before
them. -/
def isName (t : Text) : Bool := (splitOn Ascii.backslash (withoutRoot t)).all isIdentifier

namespace Syntax

/-! ## Identifiers and the pieces of names -/

theorem exists_of_isIdentifier {t : Text} (h : isIdentifier t = true) :
    ∃ b rest, t = b :: rest ∧ Identifier.isStart b = true ∧ ∀ c ∈ t, Identifier.isPart c = true := by
  cases t with
  | nil => cases h
  | cons b rest =>
    simp only [isIdentifier, Bool.and_eq_true, List.all_eq_true] at h
    refine ⟨b, rest, rfl, h.1, fun c hc => ?_⟩
    rcases List.mem_cons.mp hc with rfl | hc
    · simp [Identifier.isPart, h.1]
    · exact h.2 c hc

/-- No identifier begins with a digit. -/
theorem not_isDigit_of_isStart {b : UInt8} (h : Identifier.isStart b = true) : Ascii.isDigit b = false := by
  cases hd : Ascii.isDigit b with
  | false => rfl
  | true =>
    simp only [Ascii.isDigit, Bool.and_eq_true, decide_eq_true_eq] at hd
    simp only [Identifier.isStart, Ascii.isLetter] at h
    grind

theorem isNamePart_of_isPart {b : UInt8} (h : Identifier.isPart b = true) : isNamePart b = true := by
  simp [isNamePart, h]

theorem head?_splitHead (separator : UInt8) {t : Text} (h : (splitHead separator t).1 ≠ []) :
    t.head? = (splitHead separator t).1.head? := by
  cases t with
  | nil => rfl
  | cons b rest =>
    simp only [splitHead] at h ⊢
    split at h
    · exact absurd rfl h
    · rename_i hb
      rw [if_neg hb]
      rfl

theorem splitHead_of_not_mem {separator : UInt8} {t : Text} (h : separator ∉ t) :
    splitHead separator t = (t, []) := by
  induction t with
  | nil => rfl
  | cons b rest ih =>
    rw [List.mem_cons, not_or] at h
    rw [splitHead, ih h.2]
    exact if_neg (Ne.symm h.1)

/-- Behind a backslash in a name stands an identifier, so that the backslash escapes nothing. -/
theorem escapesBackslash_of_isIdentifier {t : Text} (h : isIdentifier (splitHead Ascii.backslash t).1 = true) :
    escapesBackslash t = false := by
  obtain ⟨b, w, e, hb, -⟩ := exists_of_isIdentifier h
  have hh := head?_splitHead Ascii.backslash (t := t) (by simp [e])
  rw [e, List.head?_cons] at hh
  obtain ⟨rest, rfl⟩ : ∃ rest, t = b :: rest := by
    cases t with
    | nil => cases hh
    | cons c rest => exact ⟨rest, by cases hh; rfl⟩
  simp only [escapesBackslash, Bool.or_eq_false_iff, decide_eq_false_iff_not]
  constructor <;> rintro rfl <;> exact absurd hb (by decide)

/-- Pieces that are identifiers make a text of bytes of names that stands for itself in single quotes; the first piece
may have begun before. -/
theorem isNamePart_of_splitHead {t : Text}
    (h₁ : ∀ b ∈ (splitHead Ascii.backslash t).1, Identifier.isPart b = true)
    (h₂ : ∀ piece ∈ (splitHead Ascii.backslash t).2, isIdentifier piece = true) :
    (∀ b ∈ t, isNamePart b = true) ∧ singleQuotedBody t = t := by
  induction t with
  | nil => exact ⟨by simp, rfl⟩
  | cons b rest ih =>
    simp only [splitHead] at h₁ h₂
    split at h₂
    · rename_i hb
      rw [List.forall_mem_cons] at h₂
      obtain ⟨-, -, -, -, hp⟩ := exists_of_isIdentifier h₂.1
      obtain ⟨hn, hq⟩ := ih hp h₂.2
      subst hb
      refine ⟨List.forall_mem_cons.mpr ⟨rfl, hn⟩, ?_⟩
      rw [singleQuotedBody, escapesBackslash_of_isIdentifier h₂.1, hq]
      rfl
    · rename_i hb
      rw [if_neg hb, List.forall_mem_cons] at h₁
      obtain ⟨hn, hq⟩ := ih h₁.2 h₂
      refine ⟨List.forall_mem_cons.mpr ⟨isNamePart_of_isPart h₁.1, hn⟩, ?_⟩
      have hbq : b ≠ Ascii.quote := by
        rintro rfl
        exact absurd h₁.1 (by decide)
      rw [singleQuotedBody_cons_plain rest hbq hb, hq]

/-! ## Names as tokens -/

/-- The text is a name: it has bytes of names only, begins with no digit and stands for itself in single quotes. -/
structure NameText (t : Text) : Prop where
  ne_nil : t ≠ []
  head : t.head?.any Ascii.isDigit = false
  parts : ∀ b ∈ t, isNamePart b = true
  quoted : singleQuotedBody t = t

theorem nameText_of_pieces {t : Text} (h : ∀ piece ∈ splitOn Ascii.backslash t, isIdentifier piece = true) :
    NameText t ∧ NameText (Ascii.backslash :: t) := by
  have h₀ : isIdentifier (splitHead Ascii.backslash t).1 = true := h _ List.mem_cons_self
  obtain ⟨b, w, e, hb, hw⟩ := exists_of_isIdentifier h₀
  have hh := head?_splitHead Ascii.backslash (t := t) (by simp [e])
  obtain ⟨hp, hq⟩ := isNamePart_of_splitHead hw fun piece hp => h piece (List.mem_cons_of_mem _ hp)
  constructor
  · refine ⟨fun h => by simp [h, splitHead] at e, ?_, hp, hq⟩
    rw [hh, e]
    exact not_isDigit_of_isStart hb
  · refine ⟨List.cons_ne_nil _ _, rfl, List.forall_mem_cons.mpr ⟨rfl, hp⟩, ?_⟩
    rw [singleQuotedBody, escapesBackslash_of_isIdentifier h₀, hq]
    rfl

theorem nameText_of_isName {t : Text} (h : isName t = true) : NameText t := by
  rw [isName, List.all_eq_true] at h
  have hp := nameText_of_pieces h
  unfold withoutRoot at hp
  split at hp
  · exact hp.2
  · exact hp.1

/-- A word of bytes of names is no sign. -/
theorem isTerm_of_isNamePart {t : Text} (hp : ∀ b ∈ t, isNamePart b = true)
    (hd : t.head?.any Ascii.isDigit = false) (hn : t ≠ []) : IsTerm t := by
  have h : ∀ w : Text, w.all isNamePart = false → t ≠ w := by
    rintro w hw rfl
    rw [List.all_eq_true.mpr hp] at hw
    cases hw
  exact ⟨_, tokenizes_name hp hd hn, isPlain_singleton (h _ rfl) (h _ rfl)⟩

theorem NameText.isTerm {t : Text} (h : NameText t) : IsTerm t := isTerm_of_isNamePart h.parts h.head h.ne_nil

theorem isTerm_name {t : Text} (h : isName t = true) : IsTerm t := (nameText_of_isName h).isTerm

/-- A backslash before a name leads back to the global namespace. -/
theorem isTerm_rooted {t : Text} (h : isName t = true) : IsTerm (Ascii.backslash :: t) :=
  isTerm_of_isNamePart (List.forall_mem_cons.mpr ⟨rfl, (nameText_of_isName h).parts⟩) rfl (List.cons_ne_nil _ _)

theorem readString_quotedName {t : Text} (h : isName t = true) (rest : Text) :
    readString (Ascii.quote :: (t ++ [Ascii.quote]) ++ rest) = .closed t rest := by
  have := read_singleQuotedBody t rest
  rw [(nameText_of_isName h).quoted] at this
  rw [List.cons_append, List.append_assoc]
  exact this

theorem leads_quotedName {t : Text} (h : isName t = true) : Leads (Ascii.quote :: (t ++ [Ascii.quote])) :=
  ⟨_, tokenizes_quoted (.inl rfl) (readString_quotedName h), by simp [closeBracket]⟩

/-! ## Names of functions -/

theorem splitMethod_eq (t : Text) :
    t = (splitMethod t).1 ++ (match (splitMethod t).2 with | none => [] | some method => utf8 "::" ++ method) := by
  induction t with
  | nil => rfl
  | cons b rest ih =>
    unfold splitMethod
    split
    · rfl
    · show b :: rest = b :: (_ ++ _)
      exact congrArg (b :: ·) ih

theorem nameText_of_isIdentifier {t : Text} (h : isIdentifier t = true) : NameText t := by
  obtain ⟨-, -, -, -, hp⟩ := exists_of_isIdentifier h
  have hs : Ascii.backslash ∉ t := fun hm => absurd (hp _ hm) (by decide)
  refine (nameText_of_pieces ?_).1
  rw [splitOn, splitHead_of_not_mem hs]
  exact List.forall_mem_singleton.mpr h

theorem exists_pieces_of_factoryProblem? {name : Text} (h : factoryProblem? name = none) :
    ∃ className rest, withoutRoot name = className ++ rest ∧
      (∀ piece ∈ splitOn Ascii.backslash className, isIdentifier piece = true) ∧
      (rest = [] ∨ ∃ method, rest = utf8 "::" ++ method ∧ isIdentifier method = true) := by
  have hs := splitMethod_eq (withoutRoot name)
  unfold factoryProblem? at h
  split at h
  · cases h
  · generalize splitMethod (withoutRoot name) = split at h hs
    obtain ⟨className, method⟩ := split
    refine ⟨className, _, hs, ?_⟩
    simp only at h
    split at h
    · cases h
    · rename_i hf
      refine ⟨by simpa using hf, .inr ⟨_, rfl, ?_⟩⟩
      split at h
      · assumption
      · cases h
    · rename_i hf
      exact ⟨by simpa using hf, .inl rfl⟩

theorem eq_withoutRoot (t : Text) : t = withoutRoot t ∨ t = Ascii.backslash :: withoutRoot t := by
  unfold withoutRoot
  split
  · exact .inr rfl
  · exact .inl rfl

theorem leads_doubleColon : Leads (utf8 "::") := ⟨[utf8 "::"], fun _ _ => rfl, by decide⟩

/-- The name of the function that rebuilds objects begins with a name, behind which perhaps a method stands. -/
theorem exists_nameText_of_factoryProblem? {name : Text} (h : factoryProblem? name = none) :
    ∃ c rest, name = c ++ rest ∧ NameText c ∧
      (rest = [] ∨ ∃ method, rest = utf8 "::" ++ method ∧ isIdentifier method = true) := by
  obtain ⟨className, rest, he, hp, hr⟩ := exists_pieces_of_factoryProblem? h
  rcases eq_withoutRoot name with e | e <;> rw [e, he]
  · exact ⟨className, rest, rfl, (nameText_of_pieces hp).1, hr⟩
  · exact ⟨Ascii.backslash :: className, rest, rfl, (nameText_of_pieces hp).2, hr⟩

/-- The name of the function that rebuilds objects is a name, or a name and a method. -/
theorem isTerm_factory {name : Text} (h : factoryProblem? name = none) : IsTerm name := by
  obtain ⟨c, rest, rfl, hn, hr⟩ := exists_nameText_of_factoryProblem? h
  rcases hr with rfl | ⟨method, rfl, hm⟩
  · rw [List.append_nil]
    exact hn.isTerm
  · rw [← List.append_assoc]
    exact (hn.isTerm.leads leads_doubleColon (stops_cons.mpr (by decide)) (by decide)).isTerm
      (nameText_of_isIdentifier hm).isTerm

end Syntax

end PhpLiteral
