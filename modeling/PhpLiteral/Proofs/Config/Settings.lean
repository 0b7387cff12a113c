import PhpLiteral.Proofs.Config.RoundTrip

/-!
# Settings that can be used

Settings are fit for use if no limit is zero, a level of indentation is a tab or 1 to 8 spaces, and the factory names a
function (`Settings.IsValid`). The settings of a configuration that can be read are, whatever it leaves out
(`Config.IsValid.settings`).
-/

namespace PhpLiteral

/-! ## Names of functions -/

/-- The name of a function or of a static method: identifiers with backslashes between them, perhaps one more backslash
before them, and perhaps two colons and an identifier behind them. -/
def IsFunctionName (t : Text) : Prop :=
  ∃ root names method, t = root ++ [Ascii.backslash].intercalate names ++ method ∧
    (root = [] ∨ root = [Ascii.backslash]) ∧ (names ≠ [] ∧ ∀ name ∈ names, isIdentifier name = true) ∧
    (method = [] ∨ ∃ name, method = utf8 "::" ++ name ∧ isIdentifier name = true)

theorem intercalate_splitOn (separator : UInt8) (t : Text) : [separator].intercalate (splitOn separator t) = t := by
  induction t with
  | nil => rfl
  | cons b t ih =>
    rw [splitOn] at ih ⊢
    rw [splitHead]
    generalize splitHead separator t = pieces at ih ⊢
    obtain ⟨first, others⟩ := pieces
    dsimp only at ih ⊢
    split
    · rename_i e
      rw [List.intercalate_cons_cons, ih, e]
      rfl
    · cases others with
      | nil => simpa using ih
      | cons second others =>
        rw [List.intercalate_cons_cons] at ih ⊢
        rw [List.cons_append, List.cons_append, ih]

/-- What is found to be without problem names a function. -/
theorem isFunctionName_of_factoryProblem? {t : Text} (h : factoryProblem? t = none) : IsFunctionName t := by
  obtain ⟨className, rest, he, hp, hr⟩ := Syntax.exists_pieces_of_factoryProblem? h
  have hn : splitOn Ascii.backslash className ≠ [] := List.cons_ne_nil _ _
  rcases Syntax.eq_withoutRoot t with e | e <;> rw [e, he]
  · exact ⟨[], _, rest, by rw [intercalate_splitOn]; rfl, .inl rfl, ⟨hn, hp⟩, hr⟩
  · exact ⟨[Ascii.backslash], _, rest, by rw [intercalate_splitOn]; rfl, .inr rfl, ⟨hn, hp⟩, hr⟩

/-! ## Settings -/

/-- Settings that values can be written with. -/
structure Settings.IsValid (s : Settings) : Prop where
  maxDepth : 1 ≤ s.maxDepth
  wrapLength : 1 ≤ s.wrapLength
  indent : s.indent = .tab ∨ ∃ count, s.indent = .spaces count ∧ 1 ≤ count ∧ count ≤ 8
  factory : IsFunctionName s.factory

theorem Indent.isChoice_iff {i : Indent} :
    i.isChoice = true ↔ i = .tab ∨ ∃ count, i = .spaces count ∧ 1 ≤ count ∧ count ≤ 8 := by
  cases i with
  | tab => simp [isChoice]
  | spaces count => simp [isChoice, isCount]

theorem settings_default_isValid : ({} : Settings).IsValid where
  maxDepth := by decide
  wrapLength := by decide
  indent := .inl rfl
  factory := isFunctionName_of_factoryProblem? (by decide)

theorem of_getD {α : Type} {P : α → Prop} {o : Option α} {d : α} (ho : ∀ a, o = some a → P a) (hd : P d) :
    P (o.getD d) := by
  cases o with
  | none => exact hd
  | some a => exact ho a rfl

/-- Whatever a configuration leaves out, its settings can be used if those can that it makes. -/
theorem Config.IsValid.settings {c : Config} (h : c.IsValid) : c.settings.IsValid where
  maxDepth := of_getD (fun n hn => (h.maxDepth n hn).1) settings_default_isValid.maxDepth
  wrapLength := of_getD (fun n hn => (h.wrapLength n hn).1) settings_default_isValid.wrapLength
  indent := Indent.isChoice_iff.mp (of_getD h.indent (Indent.isChoice_iff.mpr settings_default_isValid.indent))
  factory := of_getD (fun t ht => isFunctionName_of_factoryProblem? (h.factory t ht)) settings_default_isValid.factory

end PhpLiteral
