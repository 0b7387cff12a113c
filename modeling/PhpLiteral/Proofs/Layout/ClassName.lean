import PhpLiteral.Proofs.Render
import PhpLiteral.Proofs.Syntax.Quoted

/-!
# Class names in calls

An object with a class of its own is written as a call of the function that rebuilds objects: the name of the class
in single quotes, and the properties behind it. The name is put between the quotes as it is.

* `isVerbatim_iff`, `readString_quoted_iff`: which texts stand for themselves in single quotes;
* `readString_className_iff`: the name is read back from the call exactly if it is such a text.
-/

namespace PhpLiteral

open Syntax

/-! ## Texts that stand for themselves -/

/-- No quote is in a text, no backslash follows another one, and none is at the end. -/
def IsVerbatim (t : Text) : Prop :=
  Ascii.quote ∉ t ∧ ¬ [Ascii.backslash, Ascii.backslash] <:+: t ∧ t.getLast? ≠ some Ascii.backslash

instance (t : Text) : Decidable (IsVerbatim t) := inferInstanceAs (Decidable (_ ∧ _ ∧ _))

theorem isVerbatim_nil : IsVerbatim [] := by decide

theorem isVerbatim_cons (b : UInt8) (t : Text) :
    IsVerbatim (b :: t) ↔ b ≠ Ascii.quote ∧ (b = Ascii.backslash → escapesBackslash t = false) ∧ IsVerbatim t := by
  cases t with
  | nil =>
    have hs : ¬ [Ascii.backslash, Ascii.backslash] <:+: [b] := fun h => by simpa using h.length_le
    rw [IsVerbatim, List.mem_singleton, List.getLast?_singleton, ne_eq, Option.some.injEq, escapesBackslash]
    exact ⟨fun h => ⟨Ne.symm h.1, fun e => absurd e h.2.2, isVerbatim_nil⟩,
      fun h => ⟨Ne.symm h.1, hs, fun e => Bool.noConfusion (h.2.1 e)⟩⟩
  | cons c t =>
    have hs : [Ascii.backslash, Ascii.backslash] <:+: b :: c :: t ↔
        b = Ascii.backslash ∧ c = Ascii.backslash ∨ [Ascii.backslash, Ascii.backslash] <:+: c :: t := by
      rw [List.infix_cons_iff, List.cons_prefix_cons, List.cons_prefix_cons]
      simp only [List.nil_prefix, and_true, eq_comm]
    simp only [IsVerbatim, hs, List.mem_cons, List.getLast?_cons_cons, escapesBackslash, Bool.or_eq_false_iff,
      decide_eq_false_iff_not]
    grind

theorem length_le_singleQuotedBody (t : Text) : t.length ≤ (singleQuotedBody t).length := by
  induction t with
  | nil => exact Nat.le_refl _
  | cons b t ih =>
    rw [singleQuotedBody]
    split <;> simp only [List.length_cons] <;> omega

/-- A text stands for itself in single quotes if nothing in it has to be escaped there. -/
theorem isVerbatim_iff (t : Text) : IsVerbatim t ↔ singleQuotedBody t = t := by
  induction t with
  | nil => simp [isVerbatim_nil, singleQuotedBody]
  | cons b t ih =>
    rw [isVerbatim_cons, ih, singleQuotedBody]
    split
    · rename_i h
      have hl := length_le_singleQuotedBody t
      refine ⟨fun hv => ?_, fun e => ?_⟩
      · rcases h with h | h
        · exact absurd h hv.1
        · rw [hv.2.1 h.1] at h
          cases h.2
      · have := congrArg List.length e
        simp only [List.length_cons] at this
        omega
    · rename_i h
      simp only [not_or, not_and, Bool.not_eq_true] at h
      rw [List.cons.injEq]
      exact ⟨fun e => ⟨rfl, e.2.2⟩, fun e => ⟨h.1, h.2, e.2⟩⟩

/-! ## Reading them -/

theorem prepend_eq_closed {q : Quotation} {piece bytes rest : Text} :
    q.prepend piece = .closed bytes rest ↔ ∃ more, q = .closed more rest ∧ piece ++ more = bytes := by
  cases q with
  | closed read following =>
    simp only [Quotation.prepend, Quotation.closed.injEq, and_assoc, exists_eq_left']
    exact and_comm
  | _ => simp [Quotation.prepend]

theorem length_of_singleEscape? {t bytes : Text} {n : Nat} (h : singleEscape? t = some (bytes, n)) :
    bytes.length = 1 := by
  cases t with
  | nil => cases h; rfl
  | cons b t =>
    rw [singleEscape?] at h
    split at h <;> cases h <;> rfl

/-- What is read from single quotes is shorter than what stands there, the closing quote included. -/
theorem length_lt_of_read {skip : Nat} {t bytes rest : Text} (h : Quotes.single.read skip t = .closed bytes rest) :
    bytes.length + rest.length < t.length := by
  induction t generalizing skip bytes with
  | nil => simp [Quotes.read] at h
  | cons b t ih =>
    rw [List.length_cons]
    cases skip with
    | succ skip =>
      rw [Quotes.read] at h
      have := ih h
      omega
    | zero =>
      rw [Quotes.read] at h
      split at h
      · cases h
        simp
      split at h
      · cases h
      split at h
      · split at h
        · rename_i piece length he
          obtain ⟨more, hr, rfl⟩ := prepend_eq_closed.mp h
          have := ih hr
          rw [List.length_append, length_of_singleEscape? he]
          omega
        · cases h
      · obtain ⟨more, hr, rfl⟩ := prepend_eq_closed.mp h
        have := ih hr
        rw [List.length_append, List.length_singleton]
        omega

theorem prepend_cons_eq_closed {q : Quotation} {b c : UInt8} {bytes rest : Text} :
    q.prepend [c] = .closed (b :: bytes) rest ↔ c = b ∧ q = .closed bytes rest := by
  cases q <;> simp [Quotation.prepend, and_assoc]

/-- Only a text that stands for itself is read back from single quotes around it. -/
theorem singleQuotedBody_of_read {t rest : Text}
    (h : Quotes.single.read 0 (t ++ Ascii.quote :: rest) = .closed t rest) : singleQuotedBody t = t := by
  induction t with
  | nil => rfl
  | cons b t ih =>
    rw [List.cons_append, Quotes.read] at h
    split at h
    · cases h
    rename_i hq
    split at h
    · cases h
    split at h
    · rename_i hb
      subst hb
      cases t with
      | nil =>
        -- The backslash escapes the closing quote.
        have h := prepend_cons_eq_closed.mp h
        exact absurd h.1 (by decide)
      | cons c t =>
        rw [List.cons_append] at h
        by_cases hc : c = Ascii.quote ∨ c = Ascii.backslash
        · -- The backslash escapes the byte behind it, and too little of the text is left.
          have he : Quotes.single.escape? (c :: (t ++ Ascii.quote :: rest)) = some ([c], 1) := if_pos hc
          rw [he] at h
          have hr : Quotes.single.read 0 (t ++ Ascii.quote :: rest) = .closed (c :: t) rest :=
            (prepend_cons_eq_closed.mp h).2
          have hl := length_lt_of_read hr
          simp only [List.length_cons, List.length_append] at hl
          omega
        · have he : Quotes.single.escape? (c :: (t ++ Ascii.quote :: rest)) = some ([Ascii.backslash], 0) := if_neg hc
          rw [he] at h
          have hn : escapesBackslash (c :: t) = false := by
            simpa [escapesBackslash] using hc
          rw [singleQuotedBody, hn, if_neg (by decide), ih (prepend_cons_eq_closed.mp h).2]
    · rename_i hb
      rw [singleQuotedBody_cons_plain t hq hb, ih (prepend_cons_eq_closed.mp h).2]

/-- A text in single quotes is read back, up to the closing quote, if it stands for itself there, and only then. -/
theorem readString_quoted_iff (t rest : Text) :
    readString (Ascii.quote :: t ++ Ascii.quote :: rest) = .closed t rest ↔ IsVerbatim t := by
  rw [isVerbatim_iff, List.cons_append, readString, if_pos rfl]
  refine ⟨singleQuotedBody_of_read, fun h => ?_⟩
  have := read_singleQuotedBody t rest
  rwa [h] at this

/-! ## Calls -/

/-- The array of the properties of an object, one property on each line. -/
def propertyArray (s : Settings) (level : Nat) (lines : Text) : Text :=
  utf8 "[\n" ++ lines ++ s.indent.levels level ++ utf8 "]"

theorem objectText_of_ne_stdClass {className : Text} (hc : className ≠ stdClass) (s : Settings) (level : Nat)
    (lines : Text) :
    objectText s level className lines = s.factory ++ utf8 "(" ++
      (Ascii.quote :: className ++ Ascii.quote :: (utf8 ", " ++ propertyArray s level lines ++ utf8 ")")) := by
  have e₁ : utf8 "('" = utf8 "(" ++ [Ascii.quote] := rfl
  have e₂ : utf8 "', [" = Ascii.quote :: (utf8 ", " ++ utf8 "[") := rfl
  have e₃ : utf8 "[\n" = utf8 "[" ++ utf8 "\n" := rfl
  have e₄ : utf8 "])" = utf8 "]" ++ utf8 ")" := rfl
  rw [objectText, objectHead, objectTail, if_neg hc, if_neg hc, propertyArray, e₁, e₂, e₃, e₄]
  simp only [List.append_assoc, List.cons_append, List.nil_append]

/-- An object with a class of its own is written as a call with the name of the class between single quotes and the
array of its properties behind it. The name is read back from there, up to the closing quote and no further, exactly if
no quote is in it, no two backslashes stand in a row in it and none at its end. -/
theorem readString_className_iff {s : Settings} {heap : Heap} {chain : List Ref} {f : Frame} {id : Nat} {text : Text}
    (hc : (heap.object id).className ≠ stdClass) (h : (Value.object id).render s heap chain f = .ok text) :
    ∃ lines arguments,
      renderLinesWith .checked s heap (.object id :: chain) f (objectLines s f.level)
        ((heap.object id).keptNames.map propertyLabel) (heap.object id).keptValues = .ok lines ∧
      text = s.factory ++ utf8 "(" ++ arguments ∧
      (readString arguments =
          .closed (heap.object id).className (utf8 ", " ++ propertyArray s f.level lines ++ utf8 ")") ↔
        IsVerbatim (heap.object id).className) := by
  rw [Value.render, Value.renderWith] at h
  split at h
  · cases h
  split at h
  · obtain ⟨lines, hl, h⟩ := bind_eq_ok.mp h
    cases h
    exact ⟨lines, _, hl, objectText_of_ne_stdClass hc s f.level lines, readString_quoted_iff _ _⟩
  · cases h

/-- An object of a class in a namespace, and one of a class with a quote in its name. -/
def classNames : Heap where
  arrays := []
  objects := [(ObjectStore.ofClass (utf8 "\\App\\Point")).set (utf8 "x") .everywhere (.atom (.int 1)),
    .ofClass (utf8 "A'b")]

theorem className_classNames : (classNames.object 0).className = utf8 "App\\Point" ∧
    (classNames.object 1).className = utf8 "A'b" := ⟨rfl, rfl⟩

theorem expand_classNames :
    (Value.object 0).expand classNames 50 0 [] =
        .ok (.object (utf8 "App\\Point") [utf8 "x"] [.atom (.int 1)]) ∧
      (Value.object 1).expand classNames 50 0 [] = .ok (.object (utf8 "A'b") [] []) := by
  have h₀ : (classNames.object 0).keptValues = [.atom (.int 1)] := rfl
  have h₁ : (classNames.object 1).keptValues = [] := rfl
  have a₀ : (classNames.object 0).isAnonymous = false := rfl
  have a₁ : (classNames.object 1).isAnonymous = false := rfl
  refine ⟨?_, ?_⟩ <;> simp [Value.expand, expandAll, h₀, h₁, a₀, a₁, Except.map, bind, Except.bind, pure, Except.pure]
  · exact ⟨rfl, rfl⟩
  · exact ⟨rfl, rfl⟩

theorem render_classNames_zero : (Value.object 0).render {} classNames [] ⟨0, 0, 0⟩ =
    .ok (utf8 "\\Nette\\PhpGenerator\\Dumper::createObject('App\\Point', [\n\t'x' => 1,\n])") := by
  rw [render_of_expand expand_classNames.1, if_pos (by decide)]
  refine congrArg Except.ok ?_
  decide

theorem readString_className_iff_point : ∃ lines arguments,
    renderLinesWith .checked {} classNames [.object 0] ⟨0, 0, 0⟩ (objectLines {} 0)
      ((classNames.object 0).keptNames.map propertyLabel) (classNames.object 0).keptValues = .ok lines ∧
    utf8 "\\Nette\\PhpGenerator\\Dumper::createObject('App\\Point', [\n\t'x' => 1,\n])" =
      ({} : Settings).factory ++ utf8 "(" ++ arguments ∧
    readString arguments = .closed (utf8 "App\\Point") (utf8 ", " ++ propertyArray {} 0 lines ++ utf8 ")") := by
  obtain ⟨lines, arguments, hl, ht, hr⟩ := readString_className_iff (by decide) render_classNames_zero
  rw [className_classNames.1] at hr
  exact ⟨lines, arguments, hl, ht, hr.mpr (by decide)⟩

/-- A quote in the name of a class ends the literal of this name: not the name is read, but what stands before the
quote, and no array follows. -/
theorem dump_quoteInClassName :
    dump {} classNames (.object 1) 0 = .ok (({} : Settings).factory ++ utf8 "(" ++ utf8 "'A'b', [\n])") ∧
      (classNames.object 1).className = utf8 "A'b" ∧
      readString (utf8 "'A'b', [\n])") = .closed (utf8 "A") (utf8 "b', [\n])") := by
  refine ⟨?_, className_classNames.2, by decide⟩
  rw [dump_of_expand expand_classNames.2, if_pos (by decide)]
  refine congrArg Except.ok ?_
  decide

end PhpLiteral
