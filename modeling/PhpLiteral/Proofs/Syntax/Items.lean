import PhpLiteral.Proofs.Syntax.Expression
import PhpLiteral.Proofs.Syntax.Name

/-!
# Reading arguments and properties

What PHP makes of the arguments of a call (`readArguments`) and of an array literal whose keys are names of properties
(`readProperties`), which are taken as they are. Both are items with commas between them, of which one more may stand
behind the last item (`readItems`). Lexemes that are read as items may be put together:

* `ParsesItem`: lexemes are read as an item, up to the comma or the end behind it;
* `ParsesItems`: lexemes are read as items;
* `Parses.argument`, `Parses.labelled`, `Parses.property`: a value alone, and one behind a label or a name.
-/

namespace PhpLiteral.Syntax

/-! ## Reading -/

variable {α : Type} {r : Indexing}

/-- Reads items with commas between them, up to the lexemes `stop` that end the text, given how an item is read. The
fuel bounds the lexemes before them. -/
def readItems (read : Nat → List Lexeme → Option (α × List Lexeme)) (stop : List Lexeme) :
    (fuel : Nat) → List Lexeme → Option (List α)
  | 0, _ => none
  | fuel + 1, ls =>
    if ls = stop then some []
    else
      (read fuel ls).bind fun (item, rest) =>
        if rest = stop then some [item]
        else
          match rest with
          | .comma :: rest => (readItems read stop fuel rest).map (item :: ·)
          | _ => none

/-- An argument of a call: the name that it is labelled with, if any, and its value. -/
structure Argument where
  label : Option Text
  value : Data

/-- The name with a colon behind it that lexemes start with, and what follows the colon. -/
def label? : List Lexeme → Option (Text × List Lexeme)
  | .name t :: l :: ls => if l = .sign [Ascii.colon] then some (t, ls) else none
  | _ => none

/-- Reads an argument; a label is an identifier with a colon behind it. -/
def readArgument (r : Indexing) (fuel : Nat) (ls : List Lexeme) : Option (Argument × List Lexeme) :=
  match label? ls with
  | some (t, ls) =>
    if isIdentifier t then (readValue r fuel ls).map fun (value, rest) => (⟨some t, value⟩, rest) else none
  | none => (readValue r fuel ls).map fun (value, rest) => (⟨none, value⟩, rest)

/-- Reads an entry of an array literal whose key is a string, which is taken as it is. -/
def readProperty (r : Indexing) (fuel : Nat) : List Lexeme → Option ((Text × Data) × List Lexeme)
  | .string name :: .arrow :: ls => (readValue r fuel ls).map fun (value, rest) => ((name, value), rest)
  | _ => none

/-- The arguments of a text that is a list of arguments throughout. -/
def readArguments (r : Indexing) (t : Text) : Option (List Argument) :=
  (lex t).bind fun ls => readItems (readArgument r) [] (ls.length + 1) ls

/-- The entries of a text that is an array literal throughout, each with a string as its key. -/
def readProperties (r : Indexing) (t : Text) : Option (List (Text × Data)) :=
  (lex t).bind fun ls =>
    match ls with
    | .openBracket :: ls => readItems (readProperty r) [.closeBracket] (ls.length + 1) ls
    | _ => none

/-! ## Lexemes that are read as items -/

variable {read : Nat → List Lexeme → Option (α × List Lexeme)} {stop : List Lexeme}

/-- The lexemes are read as an item, up to the comma or the end behind it. -/
structure ParsesItem (read : Nat → List Lexeme → Option (α × List Lexeme)) (stop ls : List Lexeme) (item : α) :
    Prop where
  ne_nil : ls ≠ []
  read : ∀ rest fuel, ls.length ≤ fuel → rest = stop ∨ rest.head? = some .comma →
    read fuel (ls ++ rest) = some (item, rest)

/-- The lexemes are read as items, up to the end. -/
def ParsesItems (read : Nat → List Lexeme → Option (α × List Lexeme)) (stop ls : List Lexeme) (items : List α) :
    Prop :=
  ∀ fuel, ls.length < fuel → readItems read stop fuel (ls ++ stop) = some items

theorem parsesItems_nil : ParsesItems read stop [] [] := by
  intro fuel hf
  obtain ⟨fuel, rfl⟩ := Nat.exists_eq_add_of_le' (Nat.succ_le_of_lt hf)
  rw [List.nil_append]
  exact if_pos rfl

theorem append_ne_right {ls : List Lexeme} (h : ls ≠ []) (stop : List Lexeme) : ls ++ stop ≠ stop := fun e =>
  h (List.append_left_eq_self.mp e)

theorem ParsesItem.singleton {ls : List Lexeme} {item : α} (h : ParsesItem read stop ls item) :
    ParsesItems read stop ls [item] := by
  intro fuel hf
  obtain ⟨fuel, rfl⟩ := Nat.exists_eq_add_of_le' (Nat.zero_lt_of_lt hf)
  rw [readItems, if_neg (append_ne_right h.ne_nil stop), h.read stop fuel (Nat.le_of_lt_succ hf) (.inl rfl),
    Option.bind_some]
  exact if_pos rfl

theorem ParsesItem.cons {ls ms : List Lexeme} {item : α} {items : List α} (h : ParsesItem read stop ls item)
    (hs : ParsesItems read stop ms items) : ParsesItems read stop (ls ++ .comma :: ms) (item :: items) := by
  intro fuel hf
  obtain ⟨fuel, rfl⟩ := Nat.exists_eq_add_of_le' (Nat.zero_lt_of_lt hf)
  simp only [List.length_append, List.length_cons] at hf
  have hr := h.read (.comma :: (ms ++ stop)) fuel (by omega) (.inr rfl)
  have hn : .comma :: (ms ++ stop) ≠ stop := append_ne_right (List.cons_ne_nil _ ms) stop
  rw [readItems, if_neg (append_ne_right (by simp) stop), List.append_assoc, List.cons_append, hr, Option.bind_some]
  simp only [if_neg hn, hs fuel (by omega), Option.map_some]

/-- Items of which a comma precedes each. -/
def ParsesFurther (read : Nat → List Lexeme → Option (α × List Lexeme)) (stop ls : List Lexeme) (items : List α) :
    Prop :=
  ls = [] ∧ items = [] ∨ ∃ ms, ls = .comma :: ms ∧ ParsesItems read stop ms items

theorem ParsesItem.append {ls ms : List Lexeme} {item : α} {items : List α} (h : ParsesItem read stop ls item)
    (hs : ParsesFurther read stop ms items) : ParsesItems read stop (ls ++ ms) (item :: items) := by
  rcases hs with ⟨rfl, rfl⟩ | ⟨ms, rfl, hs⟩
  · rw [List.append_nil]
    exact h.singleton
  · exact h.cons hs

/-! ## Arguments and properties -/

theorem ne_minus_of_stop {stop rest : List Lexeme} (hs : stop.head? ≠ some .minus)
    (h : rest = stop ∨ rest.head? = some .comma) : rest.head? ≠ some .minus := by
  rcases h with rfl | h
  · exact hs
  · rw [h]
    exact fun e => Lexeme.noConfusion (Option.some.inj e)

/-- No value starts as a label does. -/
theorem Parses.label?_eq_none {ls rest : List Lexeme} {d : Data} (h : Parses r ls d)
    (hr : rest.head? ≠ some (.sign [Ascii.colon])) : label? (ls ++ rest) = none := by
  obtain ⟨l, ls, rfl, -⟩ := h.head?
  cases l with
  | name t =>
    -- Of lexemes that start with a name, this one is read as a value, and nothing may be left.
    have hp := h [] (ls.length + 1) (Nat.le_refl _) (by simp)
    rw [List.append_nil, readValue] at hp
    obtain ⟨c, -, hc⟩ := Option.map_eq_some_iff.mp hp
    obtain rfl : ls = [] := (Prod.mk.inj hc).2
    cases rest with
    | nil => rfl
    | cons l rest => exact if_neg fun e => hr (congrArg some e)
  | _ => rfl

/-- A value is an argument without a label. -/
theorem Parses.argument {ls : List Lexeme} {d : Data} (h : Parses r ls d) :
    ParsesItem (readArgument r) [] ls ⟨none, d⟩ where
  ne_nil := by
    obtain ⟨l, rest, rfl, -⟩ := h.head?
    exact List.cons_ne_nil _ _
  read rest fuel hf hr := by
    have hc : rest.head? ≠ some (.sign [Ascii.colon]) := by rcases hr with rfl | hr <;> simp [*]
    simp only [readArgument, h.label?_eq_none hc, h rest fuel hf (ne_minus_of_stop (by simp) hr), Option.map_some]

/-- A value behind an identifier and a colon is an argument with a label. -/
theorem Parses.labelled {ls : List Lexeme} {d : Data} (h : Parses r ls d) {t : Text} (ht : isIdentifier t = true) :
    ParsesItem (readArgument r) [] (.name t :: .sign [Ascii.colon] :: ls) ⟨some t, d⟩ where
  ne_nil := List.cons_ne_nil _ _
  read rest fuel hf hr := by
    simp only [List.length_cons] at hf
    have hl : label? (.name t :: .sign [Ascii.colon] :: (ls ++ rest)) = some (t, ls ++ rest) := by
      rw [label?, if_pos rfl]
    simp only [List.cons_append, readArgument, hl, if_pos ht,
      h rest fuel (by omega) (ne_minus_of_stop (by simp) hr), Option.map_some]

/-- A value behind a string and an arrow is a property. -/
theorem Parses.property {ls : List Lexeme} {d : Data} (h : Parses r ls d) (name : Text) :
    ParsesItem (readProperty r) [.closeBracket] (.string name :: .arrow :: ls) (name, d) where
  ne_nil := List.cons_ne_nil _ _
  read rest fuel hf hr := by
    simp only [List.length_cons] at hf
    rw [List.cons_append, List.cons_append, readProperty, h rest fuel (by omega) (ne_minus_of_stop (by simp) hr),
      Option.map_some]

theorem lexes_identifier {t : Text} (h : isIdentifier t = true) : Lexes t [.name t] := by
  have hn := nameText_of_isIdentifier h
  exact lexes_name hn.parts hn.head hn.ne_nil

theorem delimits_colon : Delimits (utf8 ": ") [.sign [Ascii.colon]] := fun _ => rfl

/-! ## Texts that are read as items -/

theorem readArguments_eq {t : Text} {ls : List Lexeme} {items : List Argument} (hl : Lexes t ls)
    (hi : ParsesItems (readArgument r) [] ls items) : readArguments r t = some items := by
  have ht := hl [] stops_nil
  have hp := hi (ls.length + 1) (Nat.lt_succ_self _)
  rw [List.append_nil] at ht hp
  simp [readArguments, ht, show lex [] = some [] from rfl, hp]

theorem readProperties_eq {t : Text} {ls : List Lexeme} {items : List (Text × Data)}
    (hl : Delimits t (.openBracket :: ls ++ [.closeBracket]))
    (hi : ParsesItems (readProperty r) [.closeBracket] ls items) : readProperties r t = some items := by
  have ht := hl []
  have hp := hi ((ls ++ [Lexeme.closeBracket]).length + 1) (by rw [List.length_append]; omega)
  rw [List.append_nil] at ht
  rw [readProperties, ht, show lex [] = some [] from rfl, Option.map_some, Option.bind_some, List.append_nil,
    List.cons_append]
  exact hp

example : readArguments .nonNegative (utf8 "1, a: [2],\n") =
    some [⟨none, .int 1⟩, ⟨some (utf8 "a"), .array [(.int 0, .int 2)]⟩] :=
  rfl

end PhpLiteral.Syntax
