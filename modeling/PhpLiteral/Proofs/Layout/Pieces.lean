import PhpLiteral.Layout
import PhpLiteral.Proofs.Syntax.Number

/-!
# Tokens of the pieces of a layout

An atom is tokens (`isTerm_atom`), and so is what stands before an entry (`leads_of_mem_entryLabels`,
`leads_propertyLabel`) and before the properties of an object (`exists_objectHead`). Names are written as they are, so
that they have to be names (`Atom.IsNamed`).
-/

namespace PhpLiteral

open Syntax

/-- The names of classes, cases and functions in an atom are names with their namespaces. -/
def Atom.IsNamed : Atom → Prop
  | enumCase className caseName => isName className = true ∧ isName caseName = true
  | function name => isName name = true
  | method className name => isName className = true ∧ isName name = true
  | _ => True

/-! ## Atoms -/

theorem leads_space : Leads (utf8 " ") := leads_of_isSpace (w := [Ascii.space]) (List.forall_mem_singleton.mpr rfl)

theorem leads_openParen : Leads (utf8 "(") := ⟨[utf8 "("], fun _ _ => rfl, by decide⟩

theorem leads_closeParen : Leads (utf8 ")") := ⟨[utf8 ")"], fun _ _ => rfl, by decide⟩

theorem isTerm_closeParen : IsTerm (utf8 ")") :=
  ⟨[utf8 ")"], fun _ _ => rfl, isPlain_singleton (by decide) (by decide)⟩

/-- A word before an opening parenthesis. -/
theorem leads_call {w : Text} (hw : IsTerm w) : Leads (w ++ utf8 "(") :=
  hw.leads leads_openParen (stops_cons.mpr (by decide)) (by decide)

theorem leads_new : Leads (utf8 "new ") :=
  (isTerm_name (by decide : isName (utf8 "new") = true)).leads leads_space (stops_cons.mpr (by decide)) (by decide)

/-- A closure made of a function. -/
theorem isTerm_callable {w : Text} (hw : IsTerm w) : IsTerm (w ++ utf8 "(...)") := by
  have hd : Leads (utf8 "...") := ⟨[utf8 "..."], fun _ _ => rfl, by decide⟩
  have := (leads_call hw).isTerm (hd.isTerm isTerm_closeParen)
  rw [List.append_assoc] at this
  exact this

theorem isTerm_dateTime (d : DateTime) : IsTerm d.code := by
  have hc : IsTerm (utf8 "\\" ++ d.className) := by
    rw [DateTime.className]
    split <;> exact isTerm_name (by decide)
  have hz : IsTerm (utf8 "\\DateTimeZone") := isTerm_name (by decide)
  have hs : Leads (utf8 ", ") := leads_comma.append leads_space
  have := (leads_new.append (leads_call hc)).isTerm ((leads_stringLiteral d.clock.text).isTerm
    ((hs.append (leads_new.append (leads_call hz))).isTerm
      ((leads_stringLiteral d.zone).isTerm (leads_closeParen.isTerm isTerm_closeParen))))
  have e₁ : utf8 "new \\" = utf8 "new " ++ utf8 "\\" := rfl
  have e₂ : utf8 ", new \\DateTimeZone(" = utf8 ", " ++ (utf8 "new " ++ (utf8 "\\DateTimeZone" ++ utf8 "(")) := rfl
  have e₃ : utf8 "))" = utf8 ")" ++ utf8 ")" := rfl
  simpa only [DateTime.code, e₁, e₂, e₃, List.append_assoc] using this

/-- An atom without names that are none is an expression without brackets. -/
theorem isTerm_atom {a : Atom} (h : a.IsNamed) : IsTerm a.code := by
  cases a with
  | null => exact isTerm_name (by decide)
  | bool b => cases b <;> exact isTerm_name (by decide)
  | int i => exact isTerm_intLiteral i
  | float x => exact isTerm_floatLiteral x
  | string bytes => exact isTerm_stringLiteral bytes
  | dateTime d => exact isTerm_dateTime d
  | enumCase className caseName =>
    have hc := (isTerm_rooted h.1).leads leads_doubleColon (stops_cons.mpr (by decide)) (by decide)
    exact hc.isTerm (isTerm_name h.2)
  | serialized payload =>
    have hu : IsTerm (utf8 "unserialize") := isTerm_name (by decide)
    have := ((leads_call hu).append (leads_stringLiteral payload)).isTerm isTerm_closeParen
    exact this
  | function name => exact isTerm_callable (isTerm_name h)
  | method className name =>
    have hc := (isTerm_name h.1).leads leads_doubleColon (stops_cons.mpr (by decide)) (by decide)
    exact isTerm_callable (hc.isTerm (isTerm_name h.2))

/-! ## What stands around entries -/

theorem leads_arrow : Leads (utf8 " => ") := ⟨[utf8 "=>"], fun _ _ => rfl, by decide⟩

/-- A key before its value. -/
theorem leads_arrowBehind {w : Text} (hw : IsTerm w) : Leads (w ++ utf8 " => ") :=
  hw.leads leads_arrow (stops_cons.mpr (by decide)) (by decide)

theorem leads_keyPart (n : Numbering) (key : Key) : Leads (n.keyPart key) := by
  unfold Numbering.keyPart
  split
  · exact leads_of_isSpace (w := []) (by simp)
  · cases key with
    | int i => exact leads_arrowBehind (isTerm_intLiteral i)
    | str name => exact leads_arrowBehind (isTerm_stringLiteral name)

theorem exists_keyPart_of_mem {label : Text} : ∀ {n : Numbering} {keys : List Key}, label ∈ n.keyParts keys →
    ∃ (m : Numbering) (key : Key), label = m.keyPart key
  | n, key :: _, h => by
    rw [Numbering.keyParts, List.mem_cons] at h
    rcases h with h | h
    · exact ⟨n, key, h⟩
    · exact exists_keyPart_of_mem h

theorem leads_of_mem_entryLabels {label : Text} {keys : List Key} (h : label ∈ entryLabels keys) : Leads label := by
  obtain ⟨m, key, rfl⟩ := exists_keyPart_of_mem h
  exact leads_keyPart m key

theorem leads_propertyLabel (name : Text) : Leads (propertyLabel name) := leads_arrowBehind (isTerm_stringLiteral name)

/-- Before the properties of an object stands the same code for all settings with the same function. -/
theorem exists_objectHead {factory className : Text} (hf : factoryProblem? factory = none)
    (hc : isName className = true) :
    ∃ w, Leads w ∧ ∀ s : Settings, s.factory = factory → objectHead s className = w ++ [Ascii.openBracket] := by
  unfold objectHead
  split
  · have ho : IsTerm (utf8 "object") := isTerm_name (by decide)
    have hp := ho.leads (leads_closeParen.append leads_space) (stops_cons.mpr (by decide)) (by decide)
    exact ⟨_, leads_openParen.append hp, fun _ _ => rfl⟩
  · refine ⟨_, ((leads_call (isTerm_factory hf)).append (leads_quotedName hc)).append
      (leads_comma.append leads_space), fun s hs => ?_⟩
    simp only [hs, List.append_assoc, List.cons_append]
    rfl

end PhpLiteral
