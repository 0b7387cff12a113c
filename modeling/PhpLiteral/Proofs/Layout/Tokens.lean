import PhpLiteral.Proofs.Every
import PhpLiteral.Proofs.Layout.Basic
import PhpLiteral.Proofs.Layout.Pieces
import PhpLiteral.Proofs.Syntax.Spelling

/-!
# The tokens of a layout

However a value is laid out, its text has the same tokens, commas directly before closing brackets aside. For each
tree there are tokens that all its layouts spell (`exists_code`), so that the texts of one value for two settings and
two columns spell the same (`code?_dump`).
-/

namespace PhpLiteral

open Relation (ReflTransGen)
open Syntax

/-! ## Entries -/

/-- Entries are put on lines with nothing but white space and a comma. -/
structure LineStyle.IsBlank (style : LineStyle) : Prop where
  before : ∀ b ∈ style.before, isSpace b = true
  after : ∃ w, style.after = Ascii.comma :: w ∧ ∀ b ∈ w, isSpace b = true

theorem isBlank_arrayLines (s : Settings) (level : Nat) : (arrayLines s level).IsBlank where
  before _ := isSpace_of_mem_unit
  after := ⟨_, rfl, List.forall_mem_cons.mpr ⟨rfl, fun _ => isSpace_of_mem_levels⟩⟩

theorem isBlank_objectLines (s : Settings) (level : Nat) : (objectLines s level).IsBlank where
  before _ h := (List.mem_append.mp h).elim isSpace_of_mem_levels isSpace_of_mem_unit
  after := ⟨_, rfl, List.forall_mem_singleton.mpr rfl⟩

/-- An entry on one line; behind the first one stand the others. -/
theorem tokenizes_inlineEntry (offset : Nat) {label text : Text} {ls ts : List Syntax.Token}
    (hl : Tokenizes Always label ls) (ht : Tokenizes Stops text ts) :
    Tokenizes Stops (separator offset ++ (label ++ text)) ((if offset = 0 then [] else [comma]) ++ (ls ++ ts)) := by
  have hs : Tokenizes Always (separator offset) (if offset = 0 then [] else [comma]) := by
    unfold separator
    split
    · exact tokenizes_nil
    · exact tokenizes_comma.cons (tokenizes_of_isSpace (w := [Ascii.space]) (List.forall_mem_singleton.mpr rfl))
  exact hs.cons (hl.cons ht)

theorem tokenizes_lineEntry {style : LineStyle} (hb : style.IsBlank) {label text : Text} {ls ts : List Syntax.Token}
    (hl : Tokenizes Always label ls) (ht : Tokenizes Stops text ts) :
    Tokenizes Always (style.before ++ label ++ text ++ style.after) (ls ++ ts ++ [comma]) := by
  obtain ⟨w, hw, hs⟩ := hb.after
  have ha : Tokenizes Always style.after [comma] := hw ▸ tokenizes_comma.cons (tokenizes_of_isSpace hs)
  have hl := (tokenizes_of_isSpace hb.before).cons hl
  exact (hl.cons ht).append_stops ha (hw ▸ stops_comma w) (hw ▸ List.cons_ne_nil _ _)

/-- Entries spell `code` on one line as well as on lines of their own. -/
structure EntriesSpell (factory : Text) (labels : List Text) (values : List Tree) (code : List Syntax.Token) :
    Prop where
  inline : ∀ s : Settings, s.factory = factory → ∀ column counted offset, ∃ ts,
    Tokenizes Stops (layoutInline s column counted offset labels values)
      ((if offset = 0 then [] else [comma]) ++ ts) ∧ Spells ts code
  lines : ∀ s : Settings, s.factory = factory → ∀ level style, style.IsBlank → ∃ ts,
    Tokenizes Always (layoutLines s level style labels values) (ts ++ [comma]) ∧ Spells ts code

/-- Between brackets, entries are `code` on one line as well as on lines of their own. -/
structure EntriesFill (factory : Text) (labels : List Text) (values : List Tree) (code : List Syntax.Token) :
    Prop where
  inline : ∀ s : Settings, s.factory = factory → ∀ column counted, ∃ ts,
    Tokenizes Stops (layoutInline s column counted 0 labels values) ts ∧ Fills ts code
  lines : ∀ s : Settings, s.factory = factory → ∀ level style, style.IsBlank → ∃ ts,
    Tokenizes Stops (layoutLines s level style labels values) ts ∧ Fills ts code

variable {factory : Text} {labels : List Text} {values : List Tree}

theorem EntriesSpell.fill {code : List Syntax.Token} (h : EntriesSpell factory labels values code) :
    EntriesFill factory labels values code where
  inline s hs column counted := by
    obtain ⟨ts, ht, hts⟩ := h.inline s hs column counted 0
    exact ⟨ts, ht, .entries hts⟩
  lines s hs level style hb := by
    obtain ⟨ts, ht, hts⟩ := h.lines s hs level style hb
    exact ⟨_, ht.weaken, .trailing hts⟩

theorem entriesFill_nil (h : labels = [] ∨ values = []) : EntriesFill factory labels values [] where
  inline s _ column counted := ⟨[], by rw [layoutInline_nil h]; exact tokenizes_nil.weaken, .none⟩
  lines s _ level style _ := ⟨[], by rw [layoutLines_nil h]; exact tokenizes_nil.weaken, .none⟩

theorem stops_layoutInline {offset : Nat} (ho : offset ≠ 0) (s : Settings) (column : Nat) (counted : Bool) :
    Stops (layoutInline s column counted offset labels values) := by
  by_cases h : labels = [] ∨ values = []
  · rw [layoutInline_nil h]
    exact stops_nil
  · rw [not_or] at h
    obtain ⟨label, labels, rfl⟩ := List.exists_cons_of_ne_nil h.1
    obtain ⟨t, values, rfl⟩ := List.exists_cons_of_ne_nil h.2
    obtain ⟨c, o, e, -⟩ := exists_layoutInline_cons s column counted offset label labels t values
    rw [e, separator, if_neg ho]
    exact stops_comma _

/-- One entry before others. -/
theorem EntriesSpell.cons {label : Text} {t : Tree} {ls code code' : List Syntax.Token}
    (hl : Tokenizes Always label ls) (hls : closeBracket ∉ ls)
    (ht : ∀ s : Settings, s.factory = factory → ∀ level column, Writes (t.layout s level column) code)
    (h : EntriesSpell factory labels values code') :
    EntriesSpell factory (label :: labels) (t :: values) (ls ++ code ++ comma :: code') where
  inline s hs column counted offset := by
    obtain ⟨c, o, e, ho⟩ := exists_layoutInline_cons s column counted offset label labels t values
    obtain ⟨ts, hts, hc⟩ := ht s hs 0 c
    obtain ⟨us, hus, hd⟩ := h.inline s hs column counted o
    have hp : 0 < (t.layout s 0 c).length := List.length_pos_iff.mpr (Tokenizes.ne_nil hts stops_nil hc.ne_nil)
    have ho : o ≠ 0 := by omega
    rw [if_neg ho] at hus
    refine ⟨ls ++ ts ++ comma :: us, ?_, (hc.label hls).append_comma hd⟩
    have := (tokenizes_inlineEntry offset hl hts).append_stops hus (stops_layoutInline ho s column counted)
      (Tokenizes.ne_nil hus stops_nil (List.cons_ne_nil _ _))
    rw [e]
    simpa using this
  lines s hs level style hb := by
    obtain ⟨ts, hts, hc⟩ := ht s hs (level + 1) (labelRoom style.counted label)
    obtain ⟨us, hus, hd⟩ := h.lines s hs level style hb
    refine ⟨ls ++ ts ++ comma :: us, ?_, (hc.label hls).append_comma hd⟩
    rw [layoutLines]
    have := (tokenizes_lineEntry hb hl hts).cons hus
    simpa using this

/-- One entry alone. -/
theorem entriesSpell_singleton {label : Text} {t : Tree} {ls code : List Syntax.Token}
    (hl : Tokenizes Always label ls) (hls : closeBracket ∉ ls)
    (ht : ∀ s : Settings, s.factory = factory → ∀ level column, Writes (t.layout s level column) code)
    (h : labels = [] ∨ values = []) : EntriesSpell factory (label :: labels) (t :: values) (ls ++ code) where
  inline s hs column counted offset := by
    obtain ⟨c, o, e, -⟩ := exists_layoutInline_cons s column counted offset label labels t values
    obtain ⟨ts, hts, hc⟩ := ht s hs 0 c
    refine ⟨ls ++ ts, ?_, hc.label hls⟩
    rw [e, layoutInline_nil h, List.append_nil]
    exact tokenizes_inlineEntry offset hl hts
  lines s hs level style hb := by
    obtain ⟨ts, hts, hc⟩ := ht s hs (level + 1) (labelRoom style.counted label)
    refine ⟨ls ++ ts, ?_, hc.label hls⟩
    rw [layoutLines, layoutLines_nil h, List.append_nil]
    exact tokenizes_lineEntry hb hl hts

/-! ## Brackets -/

theorem EntriesFill.writes_array {keys : List Key} {code : List Syntax.Token}
    (h : EntriesFill factory (entryLabels keys) values code) {s : Settings} (hs : s.factory = factory)
    (level column : Nat) :
    Writes ((Tree.array keys values).layout s level column) ([openBracket] ++ (code ++ [closeBracket])) := by
  have hn : ∀ b ∈ ([] : Text), isSpace b = true := by simp
  rcases layout_array_cases s level column keys values with e | e
  · obtain ⟨ts, hts, hf⟩ := h.inline s hs column true
    have := writes_enclosed tokenizes_nil (by simp) hn hts hf hn tokenizes_nil.weaken (by simp) (by simp)
    rw [e]
    simp only [List.nil_append, List.append_nil] at this
    exact this
  · obtain ⟨ts, hts, hf⟩ := h.lines s hs level _ (isBlank_arrayLines s level)
    have hw : ∀ b ∈ Ascii.lineFeed :: s.indent.levels level, isSpace b = true :=
      List.forall_mem_cons.mpr ⟨rfl, fun _ => isSpace_of_mem_levels⟩
    have := writes_enclosed tokenizes_nil (by simp) hw hts hf hn tokenizes_nil.weaken (by simp) (by simp)
    rw [e]
    simp only [List.nil_append, List.append_nil] at this
    exact this

/-- Tokens behind the closing bracket of an object. -/
theorem exists_objectTail (className : Text) : ∃ w tl, objectTail className = Ascii.closeBracket :: w ∧
    Tokenizes Stops w tl ∧ closeBracket ∉ tl ∧ tl.getLast? ≠ some comma := by
  unfold objectTail
  split
  · exact ⟨[], [], rfl, tokenizes_nil.weaken, by simp, by simp⟩
  · obtain ⟨tl, ht, hp⟩ := isTerm_closeParen
    exact ⟨_, tl, rfl, ht, hp.not_mem, hp.last⟩

theorem exists_code_object {className : Text} {names : List Text} {code : List Syntax.Token}
    (hf : factoryProblem? factory = none) (hc : isName className = true)
    (h : EntriesFill factory (names.map propertyLabel) values code) :
    ∃ code, ∀ s : Settings, s.factory = factory → ∀ level column,
      Writes ((Tree.object className names values).layout s level column) code := by
  obtain ⟨lead, ⟨hs, hl, hh⟩, he⟩ := exists_objectHead hf hc
  obtain ⟨rest, tl, hr, hrt, ht, htl⟩ := exists_objectTail className
  refine ⟨hs ++ [openBracket] ++ (code ++ closeBracket :: tl), fun s hsf level column => ?_⟩
  obtain ⟨ts, hts, hfill⟩ := h.lines s hsf level _ (isBlank_objectLines s level)
  have := writes_enclosed hl hh (w := [Ascii.lineFeed]) (List.forall_mem_singleton.mpr rfl) hts hfill
    (fun _ => isSpace_of_mem_levels (i := s.indent) (n := level)) hrt ht htl
  rw [Tree.layout, objectText, he s hsf, hr]
  exact this

/-! ## Values -/

mutual

/-- All layouts of a tree spell the same tokens. -/
theorem exists_code (hf : factoryProblem? factory = none) : ∀ t : Tree, t.Every Atom.IsNamed (isName · = true) →
    ∃ code, ∀ s : Settings, s.factory = factory → ∀ level column, Writes (t.layout s level column) code
  | .atom a, h => by
    rw [Tree.Every] at h
    obtain ⟨ts, ht, hp⟩ := isTerm_atom h
    refine ⟨ts, fun s _ level column => ⟨ts, ?_, hp.spells⟩⟩
    rw [Tree.layout]
    exact ht
  | .array keys values, h => by
    rw [Tree.Every] at h
    obtain ⟨code, hc, -⟩ := exists_entries hf (entryLabels keys) values (fun _ => leads_of_mem_entryLabels) h
    exact ⟨_, fun s hs level column => hc.writes_array hs level column⟩
  | .object className names values, h => by
    rw [Tree.Every] at h
    have hl : ∀ label ∈ names.map propertyLabel, Leads label := by
      intro label hm
      obtain ⟨name, -, rfl⟩ := List.mem_map.mp hm
      exact leads_propertyLabel name
    obtain ⟨code, hc, -⟩ := exists_entries hf (names.map propertyLabel) values hl h.2
    exact exists_code_object hf h.1 hc

/-- All layouts of entries spell the same tokens. -/
theorem exists_entries (hf : factoryProblem? factory = none) : ∀ (labels : List Text) (values : List Tree),
    (∀ label ∈ labels, Leads label) → EveryTree Atom.IsNamed (isName · = true) values →
    ∃ code, EntriesFill factory labels values code ∧
      (¬ (labels = [] ∨ values = []) → EntriesSpell factory labels values code)
  | [], _, _, _ => ⟨[], entriesFill_nil (.inl rfl), fun hn => absurd (.inl rfl) hn⟩
  | _ :: _, [], _, _ => ⟨[], entriesFill_nil (.inr rfl), fun hn => absurd (.inr rfl) hn⟩
  | label :: labels, t :: values, hl, h => by
    rw [EveryTree] at h
    obtain ⟨ls, hls, hn⟩ := hl label List.mem_cons_self
    obtain ⟨code, hc⟩ := exists_code hf t h.1
    obtain ⟨code', -, hs⟩ := exists_entries hf labels values (fun l hm => hl l (List.mem_cons_of_mem _ hm)) h.2
    by_cases he : labels = [] ∨ values = []
    · have := entriesSpell_singleton hls hn hc he
      exact ⟨_, this.fill, fun _ => this⟩
    · have := EntriesSpell.cons hls hn hc (hs he)
      exact ⟨_, this.fill, fun _ => this⟩

end

/-- A value is no literal, and the names of classes, cases and functions in it are names with their namespaces. -/
def Heap.IsNamed (heap : Heap) : Value → Prop := heap.Meets Atom.IsNamed (isName · = true)

/-- Settings that differ in the layout only, and columns, do not change the tokens of the text of a value. -/
theorem code?_dump {heap : Heap} {s s' : Settings} {v : Value} {column column' : Nat} {text text' : Text}
    (hv : ∀ w, ReflTransGen heap.Holds v w → heap.IsNamed w) (hf : factoryProblem? s.factory = none)
    (hd : s'.maxDepth = s.maxDepth) (hs : s'.factory = s.factory) (h : dump s heap v column = .ok text)
    (h' : dump s' heap v column' = .ok text') : ∃ code, code? text = some code ∧ code? text' = some code := by
  obtain ⟨t, ht, rfl⟩ := exists_of_dump h
  obtain ⟨t', ht', rfl⟩ := exists_of_dump h'
  rw [hd] at ht'
  obtain rfl : t = t' := Except.ok.inj (ht.symm.trans ht')
  obtain ⟨code, hc⟩ := exists_code hf t (every_of_expand [] 0 v hv ht)
  have key : ∀ s₁ : Settings, s₁.factory = s.factory → ∀ column, code? (t.layout s₁ 0 column) = some code := by
    intro s₁ hs₁ column
    obtain ⟨ts, hts, hw⟩ := hc s₁ hs₁ 0 column
    rw [code?, hts.tokens?_eq stops_nil, Option.map_some, hw.code]
  exact ⟨code, key s rfl column, key s' hs column'⟩

/-- An object that holds an array of a case and a closure. -/
def namedNode : Heap where
  arrays := [.ofList [.atom (.enumCase (utf8 "App\\Suit") (utf8 "Hearts")), .atom (.function (utf8 "strlen"))]]
  objects := [(ObjectStore.ofClass (utf8 "App\\Node")).set (utf8 "items") .everywhere (.array 0)]

theorem values_namedNode : (namedNode.array 0).values =
    [.atom (.enumCase (utf8 "App\\Suit") (utf8 "Hearts")), .atom (.function (utf8 "strlen"))] := rfl

theorem keptValues_namedNode : (namedNode.object 0).keptValues = [.array 0] := rfl

theorem expand_namedNode : (Value.object 0).expand namedNode 50 0 [] =
    .ok (.object (utf8 "App\\Node") [utf8 "items"] [.array (namedNode.array 0).keys
      [.atom (.enumCase (utf8 "App\\Suit") (utf8 "Hearts")), .atom (.function (utf8 "strlen"))]]) := by
  have ha : (namedNode.object 0).isAnonymous = false := rfl
  simp [Value.expand, expandAll, values_namedNode, keptValues_namedNode, ha, Except.map, bind, Except.bind, pure,
    Except.pure]
  exact ⟨rfl, rfl⟩

theorem dump_namedNode : dump {} namedNode (.object 0) 0 =
    .ok (utf8 ("\\Nette\\PhpGenerator\\Dumper::createObject('App\\Node', [\n" ++
      "\t'items' => [\\App\\Suit::Hearts, strlen(...)],\n])")) := by
  rw [dump_of_expand expand_namedNode, if_pos (by decide)]
  refine congrArg Except.ok ?_
  decide

theorem dump_namedNode_narrow : dump { wrapLength := 30, indent := .spaces 2 } namedNode (.object 0) 7 =
    .ok (utf8 ("\\Nette\\PhpGenerator\\Dumper::createObject('App\\Node', [\n" ++
      "  'items' => [\n    \\App\\Suit::Hearts,\n    strlen(...),\n  ],\n])")) := by
  rw [dump_of_expand expand_namedNode, if_pos (by decide)]
  refine congrArg Except.ok ?_
  decide

theorem isNamed_namedNode {w : Value} (hw : ReflTransGen namedNode.Holds (.object 0) w) : namedNode.IsNamed w := by
  have : w = .object 0 ∨ w = .array 0 ∨ w = .atom (.enumCase (utf8 "App\\Suit") (utf8 "Hearts")) ∨
      w = .atom (.function (utf8 "strlen")) := by
    induction hw with
    | refl => exact .inl rfl
    | tail _ h ih =>
      rcases ih with rfl | rfl | rfl | rfl <;> cases h <;> rename_i hm
      · rw [keptValues_namedNode, List.mem_singleton] at hm
        exact .inr (.inl hm)
      · rw [values_namedNode] at hm
        simp only [List.mem_cons, List.not_mem_nil, or_false] at hm
        exact .inr (.inr hm)
  rcases this with rfl | rfl | rfl | rfl
  · show isName (namedNode.object 0).className = true
    decide
  · trivial
  · show isName _ = true ∧ isName _ = true
    decide
  · show isName _ = true
    decide

theorem code?_dump_namedNode : ∃ code,
    code? (utf8 ("\\Nette\\PhpGenerator\\Dumper::createObject('App\\Node', [\n" ++
      "\t'items' => [\\App\\Suit::Hearts, strlen(...)],\n])")) = some code ∧
    code? (utf8 ("\\Nette\\PhpGenerator\\Dumper::createObject('App\\Node', [\n" ++
      "  'items' => [\n    \\App\\Suit::Hearts,\n    strlen(...),\n  ],\n])")) = some code :=
  code?_dump (fun _ => isNamed_namedNode) (by decide) (by rfl) (by rfl) dump_namedNode dump_namedNode_narrow

end PhpLiteral
