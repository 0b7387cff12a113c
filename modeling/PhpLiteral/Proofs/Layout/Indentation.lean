import PhpLiteral.Proofs.Every
import PhpLiteral.Proofs.Layout.IndentedLines
import PhpLiteral.Proofs.Pointwise

/-!
# Indentation mirrors nesting

In the text of a value of scalars, strings, arrays and objects, each line has one unit of indentation for every bracket
that is open before it, and the entries of a container that is not on one line stand on lines of their own
(`indentation_dump`).

* `OnLines`: which lines the entries of containers are on;
* `isWritten_of_expand`: the invariant, for the value at any place in the text.
-/

namespace PhpLiteral

open Relation (ReflTransGen)
open Syntax

/-! ## Scalars -/

/-- An atom is a scalar or a string. -/
def Atom.IsScalar : Atom → Prop
  | null => True
  | bool _ => True
  | int _ => True
  | float _ => True
  | string _ => True
  | _ => False

/-- A printable byte other than a space that is no quote and no bracket. -/
def isBare (b : UInt8) : Bool := 0x20 < b && b < 0x7f && isInert b

section

variable {s : Settings} {factory t : Text}

theorem isInert_of_isBare {b : UInt8} (h : isBare b = true) : isInert b = true := by
  simp only [isBare, Bool.and_eq_true] at h
  exact h.2

theorem startsLine_of_isBare {b : UInt8} (h : isBare b = true) (rest : Text) : StartsLine factory (b :: rest) := by
  simp only [isBare, isInert, Bool.and_eq_true, decide_eq_true_eq, bne_iff_ne] at h
  exact .shown h.1.1 h.1.2 h.2.2

theorem isOneLine_of_isBare (h : t.all isBare = true) (hn : t ≠ []) : IsOneLine factory t := by
  rw [List.all_eq_true] at h
  refine ⟨.of_isInert (List.all_eq_true.mpr fun b hb => isInert_of_isBare (h b hb)), ?_,
    hasLineFeed_eq_false.mpr fun hm => absurd (h _ hm) (by decide)⟩
  obtain ⟨b, rest, rfl⟩ := List.exists_cons_of_ne_nil hn
  exact startsLine_of_isBare (h b List.mem_cons_self) rest

theorem isBare_of_isDigit {b : UInt8} (h : Ascii.isDigit b = true) : isBare b = true := by
  simp only [Ascii.isDigit, Bool.and_eq_true, decide_eq_true_eq] at h
  simp only [isBare, isInert, Bool.and_eq_true, decide_eq_true_eq, bne_iff_ne]
  grind

theorem isBare_intLiteral (i : Int64) : (intLiteral i).all isBare = true := by
  rw [List.all_eq_true]
  intro b hb
  rcases mem_intLiteral hb with hd | rfl
  · exact isBare_of_isDigit hd
  · rfl

theorem isBare_floatLiteral (x : Binary64) : (floatLiteral x).all isBare = true := by
  rcases x.floatLiteral_cases with h | h
  · have hc : ∀ w ∈ [utf8 "NAN", utf8 "INF", utf8 "-INF"], w.all isBare = true := by decide
    exact hc _ h
  · rw [h, List.all_eq_true]
    intro b hb
    rcases x.isWellFormed_form.of_mem_text hb with hd | hm
    · exact isBare_of_isDigit hd
    · have hc : ∀ b ∈ [Ascii.minus, Ascii.plus, Ascii.dot, 0x45], isBare b = true :=
        List.all_iff_forall_prop.mp (by decide)
      exact hc b hm

theorem isOneLine_intLiteral (i : Int64) : IsOneLine factory (intLiteral i) :=
  isOneLine_of_isBare (isBare_intLiteral i) (isTerm_intLiteral i).ne_nil

theorem isOneLine_stringLiteral (bytes : Text) : IsOneLine factory (stringLiteral bytes) where
  neutral := neutral_stringLiteral bytes
  starts := by
    obtain ⟨q, w, hw, hq⟩ := exists_stringLiteral_cons bytes
    rw [hw]
    rcases hq with rfl | rfl <;> exact .shown (by decide) (by decide) (by decide)
  noLineFeed := (isLabel_stringLiteral bytes).noLineFeed

theorem isOneLine_atom {a : Atom} (h : a.IsScalar) : IsOneLine factory a.code := by
  cases a with
  | null => exact isOneLine_of_isBare (by decide) (by decide)
  | bool b => cases b <;> exact isOneLine_of_isBare (by decide) (by decide)
  | int i => exact isOneLine_intLiteral i
  | float x => exact isOneLine_of_isBare (isBare_floatLiteral x) (isTerm_floatLiteral x).ne_nil
  | string bytes => exact isOneLine_stringLiteral bytes
  | _ => exact h.elim

/-! ## Labels and heads -/

theorem IsOneLine.arrow (h : IsOneLine factory t) : IsOneLine factory (t ++ utf8 " => ") where
  neutral := h.neutral.append (.of_isInert rfl)
  starts := h.starts.append _
  noLineFeed := by
    rw [hasLineFeed_append, h.noLineFeed]
    rfl

theorem isOneLine_propertyLabel (name : Text) : IsOneLine factory (propertyLabel name) :=
  (isOneLine_stringLiteral name).arrow

theorem isOneLine_of_mem_entryLabels {label : Text} {keys : List Key} (h : label ∈ entryLabels keys) :
    label = [] ∨ IsOneLine factory label := by
  obtain ⟨m, key, rfl⟩ := exists_keyPart_of_mem h
  unfold Numbering.keyPart
  split
  · exact .inl rfl
  · cases key with
    | int i => exact .inr (isOneLine_intLiteral i).arrow
    | str name => exact .inr (isOneLine_stringLiteral name).arrow

theorem isFrame_array : IsFrame factory (utf8 "[") (utf8 "]") where
  starts := .shown (by decide) (by decide) (by decide)
  before := ⟨[], rfl, .nil, rfl⟩
  behind := ⟨[], rfl, .nil, rfl⟩

theorem isInert_of_isNameParts (h : ∀ b ∈ t, isNamePart b = true) : t.all isInert = true ∧ hasLineFeed t = false := by
  refine ⟨List.all_eq_true.mpr fun b hb => isInert_of_isNamePart (h b hb), hasLineFeed_eq_false.mpr fun hm => ?_⟩
  exact absurd (h _ hm) (by decide)

theorem isInert_factory (hf : factoryProblem? factory = none) :
    factory.all isInert = true ∧ hasLineFeed factory = false := by
  obtain ⟨c, method, rfl, hn, hm⟩ := exists_nameText_of_factoryProblem? hf
  obtain ⟨hi, hl⟩ := isInert_of_isNameParts hn.parts
  rcases hm with rfl | ⟨m, rfl, hm⟩
  · rw [List.append_nil]
    exact ⟨hi, hl⟩
  · obtain ⟨hi', hl'⟩ := isInert_of_isNameParts (nameText_of_isIdentifier hm).parts
    rw [List.all_append, List.all_append, hasLineFeed_append, hasLineFeed_append, hi, hl, hi', hl']
    exact ⟨rfl, rfl⟩

theorem isFrame_object (hf : factoryProblem? s.factory = none) {className : Text} (hc : isName className = true) :
    IsFrame s.factory (objectHead s className) (objectTail className) := by
  unfold objectHead objectTail
  split
  · refine ⟨.shown (by decide) (by decide) (by decide), ⟨utf8 "(object) ", rfl, ?_, rfl⟩, ⟨[], rfl, .nil, rfl⟩⟩
    exact .of_isInert rfl
  · obtain ⟨hi, hl⟩ := isInert_factory hf
    obtain ⟨-, hn⟩ := isInert_of_isNameParts (nameText_of_isName hc).parts
    have hw' : Neutral (s.factory ++ utf8 "(" ++ (Ascii.quote :: (className ++ [Ascii.quote])) ++ utf8 ", ") := by
      refine ((Neutral.append ?_ ?_).append (neutral_quotedName hc)).append ?_
      · exact .of_isInert hi
      · exact .of_isInert rfl
      · exact .of_isInert rfl
    have hw : s.factory ++ utf8 "('" ++ className ++ utf8 "', [" =
        s.factory ++ utf8 "(" ++ (Ascii.quote :: (className ++ [Ascii.quote])) ++ utf8 ", " ++ [Ascii.openBracket] := by
      have e₁ : utf8 "('" = utf8 "(" ++ [Ascii.quote] := rfl
      have e₂ : utf8 "', [" = Ascii.quote :: (utf8 ", " ++ [Ascii.openBracket]) := rfl
      simp [e₁, e₂]
    refine ⟨?_, ⟨_, hw, hw', ?_⟩, ⟨utf8 ")", rfl, .of_isInert rfl, rfl⟩⟩
    · rw [hw, List.append_assoc, List.append_assoc]
      exact .call _
    · have hq : hasLineFeed (className ++ [Ascii.quote]) = false := by
        rw [hasLineFeed_append, hn]
        rfl
      rw [hasLineFeed_append, hasLineFeed_append, hasLineFeed_append, hl]
      show (false || hasLineFeed (className ++ [Ascii.quote]) || false) = false
      rw [hq]
      rfl

end

/-! ## Entries -/

section

variable {s : Settings} {labels : List Text} {values : List Tree}

theorem neutral_layoutInline (hl : ∀ label ∈ labels, label = [] ∨ IsOneLine s.factory label)
    (hv : ∀ t ∈ values, ∀ column, Neutral (t.layout s 0 column)) (column : Nat) (counted : Bool) (offset : Nat) :
    Neutral (layoutInline s column counted offset labels values) := by
  induction labels generalizing values offset with
  | nil =>
    rw [layoutInline_nil (.inl rfl)]
    exact .nil
  | cons label labels ih =>
    cases values with
    | nil =>
      rw [layoutInline_nil (.inr rfl)]
      exact .nil
    | cons t values =>
      obtain ⟨hl₀, hl⟩ := List.forall_mem_cons.mp hl
      obtain ⟨hv₀, hv⟩ := List.forall_mem_cons.mp hv
      obtain ⟨c, o, e, -⟩ := exists_layoutInline_cons s column counted offset label labels t values
      have hs : Neutral (separator offset) := by
        unfold separator
        split
        · exact .nil
        · exact .of_isInert rfl
      have hlabel : Neutral label := by
        rcases hl₀ with rfl | h
        · exact .nil
        · exact h.neutral
      rw [e]
      exact (hs.append (hlabel.append (hv₀ c))).append (ih hl hv o)

/-- The texts of values on lines of their own. -/
def lineTexts (s : Settings) (level : Nat) (style : LineStyle) (labels : List Text) (values : List Tree) : List Text :=
  List.zipWith (fun label t => t.layout s (level + 1) (labelRoom style.counted label)) labels values

/-- Lines of entries are the same with each line feed before its line. -/
theorem layoutLines_append {level : Nat} {style : LineStyle} {pre : Text} (h : style.Indents s.indent level pre)
    (labels : List Text) (values : List Tree) (more : Text) :
    Ascii.lineFeed :: (pre ++ (layoutLines s level style labels values ++ more)) =
      entryLines s.indent (level + 1) (List.zipWith (· ++ ·) labels (lineTexts s level style labels values)) ++
        Ascii.lineFeed :: (pre ++ more) := by
  induction labels generalizing values with
  | nil =>
    rw [layoutLines_nil (.inl rfl)]
    rfl
  | cons label labels ih =>
    cases values with
    | nil =>
      rw [layoutLines_nil (.inr rfl)]
      rfl
    | cons t values =>
      rw [layoutLines, h.after, lineTexts, List.zipWith_cons_cons, List.zipWith_cons_cons, entryLines,
        List.flatMap_cons, ← entryLines, ← lineTexts, ← h.before]
      simp only [List.append_assoc, List.cons_append, List.nil_append, ih values]

theorem linesArray_eq_onLines (s : Settings) (level : Nat) (labels : List Text) (values : List Tree) :
    linesArray s level (layoutLines s level (arrayLines s level) labels values) =
      onLines s.indent level (utf8 "[") (utf8 "]")
        (List.zipWith (· ++ ·) labels (lineTexts s level (arrayLines s level) labels values)) := by
  have e : utf8 "[\n" = utf8 "[" ++ [Ascii.lineFeed] := rfl
  have := layoutLines_append (indents_arrayLines s level) labels values (utf8 "]")
  simp only [linesArray, onLines, e, List.append_assoc, List.cons_append, List.nil_append, this]

theorem objectText_eq_onLines (s : Settings) (level : Nat) (className : Text) (labels : List Text)
    (values : List Tree) :
    objectText s level className (layoutLines s level (objectLines s level) labels values) =
      onLines s.indent level (objectHead s className) (objectTail className)
        (List.zipWith (· ++ ·) labels (lineTexts s level (objectLines s level) labels values)) := by
  have e : utf8 "\n" = [Ascii.lineFeed] := rfl
  have := layoutLines_append (indents_objectLines s level) labels values (s.indent.levels level ++ objectTail className)
  rw [List.nil_append, List.nil_append] at this
  simp only [objectText, onLines, e, List.append_assoc, List.cons_append, List.nil_append, this]

theorem isLaid_entries {level : Nat} {texts : List Text} (hl : ∀ label ∈ labels, label = [] ∨ IsOneLine s.factory label)
    (ht : ∀ text ∈ texts, IsLaid s level text) : ∀ e ∈ List.zipWith (· ++ ·) labels texts, IsLaid s level e := by
  induction labels generalizing texts with
  | nil => nofun
  | cons label labels ih =>
    cases texts with
    | nil => nofun
    | cons text texts =>
      obtain ⟨hl₀, hl⟩ := List.forall_mem_cons.mp hl
      obtain ⟨ht₀, ht⟩ := List.forall_mem_cons.mp ht
      exact List.forall_mem_cons.mpr ⟨ht₀.labelled hl₀, ih hl ht⟩

end

/-! ## Values -/

/-- A value is written with its entries on lines of their own if it is a container that is not on one line, and so are
the values in it. -/
inductive OnLines (s : Settings) (heap : Heap) : Nat → Value → Text → Prop
  | oneLine {level : Nat} {v : Value} {text : Text} : hasLineFeed text = false → OnLines s heap level v text
  | array {level id : Nat} {texts : List Text} : texts.length = (heap.array id).values.length →
    (∀ p ∈ (heap.array id).values.zip texts, OnLines s heap (level + 1) p.1 p.2) →
    OnLines s heap level (.array id) (onLines s.indent level (utf8 "[") (utf8 "]")
      (List.zipWith (· ++ ·) (entryLabels (heap.array id).keys) texts))
  | object {level id : Nat} {texts : List Text} : texts.length = (heap.object id).keptValues.length →
    (∀ p ∈ (heap.object id).keptValues.zip texts, OnLines s heap (level + 1) p.1 p.2) →
    OnLines s heap level (.object id) (onLines s.indent level (objectHead s (heap.object id).className)
      (objectTail (heap.object id).className)
      (List.zipWith (· ++ ·) ((heap.object id).keptNames.map propertyLabel) texts))

section

variable {s : Settings} {heap : Heap} {maxDepth : Nat}

/-- A text of a value is laid for a level, and its entries are on lines of their own. -/
structure IsWritten (s : Settings) (heap : Heap) (level : Nat) (v : Value) (text : Text) : Prop where
  isLaid : IsLaid s level text
  onLines : OnLines s heap level v text

/-- All texts of a value are written so. -/
def IsWrittenAs (s : Settings) (heap : Heap) (v : Value) (t : Tree) : Prop :=
  ∀ level column, IsWritten s heap level v (t.layout s level column)

theorem IsOneLine.isWritten {text : Text} (h : IsOneLine s.factory text) (level : Nat) (v : Value) :
    IsWritten s heap level v text := ⟨h.isLaid, .oneLine h.noLineFeed⟩

theorem forall₂_lineTexts (level : Nat) (style : LineStyle) {vs : List Value} {ts : List Tree}
    (h : List.Forall₂ (IsWrittenAs s heap) vs ts) {labels : List Text} (hl : labels.length = vs.length) :
    List.Forall₂ (IsWritten s heap (level + 1)) vs (lineTexts s level style labels ts) := by
  induction h generalizing labels with
  | nil =>
    rw [lineTexts, List.zipWith_nil_right]
    exact .nil
  | cons hv _ ih =>
    obtain ⟨label, labels, rfl⟩ := List.exists_cons_of_length_eq_add_one hl
    exact .cons (hv _ _) (ih (Nat.succ.inj hl))

/-- Entries on lines of their own, and the text of the container around them. -/
theorem isWritten_onLines (hf : factoryProblem? s.factory = none) {level : Nat} {v : Value} {vs : List Value}
    {ts : List Tree} (style : LineStyle) {labels : List Text} {head tail : Text}
    (h : List.Forall₂ (IsWrittenAs s heap) vs ts) (hl : labels.length = vs.length)
    (hlabels : ∀ label ∈ labels, label = [] ∨ IsOneLine s.factory label) (hframe : IsFrame s.factory head tail)
    (hv : ∀ texts : List Text, texts.length = vs.length →
      (∀ p ∈ vs.zip texts, OnLines s heap (level + 1) p.1 p.2) →
      OnLines s heap level v (onLines s.indent level head tail (List.zipWith (· ++ ·) labels texts))) :
    IsWritten s heap level v (onLines s.indent level head tail
      (List.zipWith (· ++ ·) labels (lineTexts s level style labels ts))) := by
  have ht := forall₂_lineTexts level style h hl
  refine ⟨isLaid_onLines hf hframe (isLaid_entries hlabels fun text hm => ?_), hv _ ht.length_eq.symm fun p hp => ?_⟩
  · obtain ⟨w, -, hw⟩ := exists_of_mem_right ht hm
    exact hw.isLaid
  · exact (List.forall₂_zip ht hp).onLines

theorem isOneLine_inlineArray {inline : Text} (hn : Neutral inline) (hl : hasLineFeed inline = false) :
    IsOneLine s.factory (inlineArray inline) where
  neutral := hn.enclosed
  starts := .shown (by decide) (by decide) (by decide)
  noLineFeed := (hasLineFeed_inlineArray inline).trans hl

theorem isWritten_array (hf : factoryProblem? s.factory = none) {id : Nat} {ts : List Tree}
    (h : List.Forall₂ (IsWrittenAs s heap) (heap.array id).values ts) (level column : Nat) :
    IsWritten s heap level (.array id) ((Tree.array (heap.array id).keys ts).layout s level column) := by
  have hl : (entryLabels (heap.array id).keys).length = (heap.array id).values.length := by
    rw [length_entryLabels, length_keys]
  have hlabels : ∀ label ∈ entryLabels (heap.array id).keys, label = [] ∨ IsOneLine s.factory label :=
    fun _ => isOneLine_of_mem_entryLabels
  by_cases he : ts = []
  · rw [he, Tree.layout, if_pos List.isEmpty_nil]
    exact (isOneLine_inlineArray .nil rfl).isWritten level _
  rw [layout_array_eq he]
  split
  · rename_i hk
    simp only [Settings.keepsArray, Bool.and_eq_true, Bool.not_eq_true'] at hk
    refine (isOneLine_inlineArray (neutral_layoutInline hlabels (fun t hm c => ?_) _ _ _) hk.1).isWritten level _
    obtain ⟨w, -, hw⟩ := exists_of_mem_right h hm
    exact (hw 0 c).isLaid.neutral
  · rw [linesArray_eq_onLines]
    exact isWritten_onLines hf _ h hl hlabels isFrame_array fun _ => .array

theorem isWritten_object (hf : factoryProblem? s.factory = none) {id : Nat} {ts : List Tree}
    (hc : isName (heap.object id).className = true)
    (h : List.Forall₂ (IsWrittenAs s heap) (heap.object id).keptValues ts) (level column : Nat) :
    IsWritten s heap level (.object id)
      ((Tree.object (heap.object id).className (heap.object id).keptNames ts).layout s level column) := by
  have hl : ((heap.object id).keptNames.map propertyLabel).length = (heap.object id).keptValues.length := by
    rw [List.length_map, length_keptNames]
  have hlabels : ∀ label ∈ (heap.object id).keptNames.map propertyLabel, label = [] ∨ IsOneLine s.factory label := by
    intro label hm
    obtain ⟨name, -, rfl⟩ := List.mem_map.mp hm
    exact .inr (isOneLine_propertyLabel name)
  rw [Tree.layout, objectText_eq_onLines]
  exact isWritten_onLines hf _ h hl hlabels (isFrame_object hf hc) fun _ => .object

mutual

/-- The text of a value at any place is laid for the level there. -/
theorem isWritten_of_expand (hf : factoryProblem? s.factory = none) (chain : List Ref) (depth : Nat) : ∀ (v : Value)
    {t : Tree}, (∀ w, ReflTransGen heap.Holds v w → heap.Meets Atom.IsScalar (isName · = true) w) →
    v.expand heap maxDepth depth chain = .ok t → IsWrittenAs s heap v t
  | .atom a, t, hv, h => by
    rw [Value.expand] at h
    cases h
    intro level column
    rw [Tree.layout]
    exact (isOneLine_atom (hv _ .refl)).isWritten level _
  | .array id, t, hv, h => by
    obtain ⟨-, rfl⟩ | ⟨hc, ts, hts, rfl⟩ := expand_array_cases h
    · intro level column
      rw [Tree.layout, if_pos List.isEmpty_nil]
      exact (isOneLine_inlineArray .nil rfl).isWritten level _
    · exact isWritten_array hf (isWritten_of_expandAll hf (.array id :: chain) (depth + 1) (heap.array id).values
        (fun u hu w hw => hv w (.head (.entry hu) hw)) hts)
  | .object id, t, hv, h => by
    obtain ⟨hc, ts, hts, rfl⟩ := exists_of_expand_object h
    exact isWritten_object hf (hv _ .refl) (isWritten_of_expandAll hf (.object id :: chain) (depth + 1)
      (heap.object id).keptValues (fun u hu w hw => hv w (.head (.property hu) hw)) hts)
  | .literal text args, t, hv, h => (hv _ .refl).elim
  | .capturing, t, hv, h => by rw [Value.expand] at h; cases h
  | .resource kind, t, hv, h => by rw [Value.expand] at h; cases h
termination_by v => (heap.remaining chain, sizeOf v, 1)
decreasing_by
  · exact Heap.enter_lt (And.right ‹_›) Heap.values_array_of_not_mem
  · exact Heap.enter_lt (And.right ‹_›) Heap.keptValues_object_of_not_mem

theorem isWritten_of_expandAll (hf : factoryProblem? s.factory = none) (chain : List Ref) (depth : Nat) :
    ∀ (vs : List Value) {ts : List Tree},
      (∀ v ∈ vs, ∀ w, ReflTransGen heap.Holds v w → heap.Meets Atom.IsScalar (isName · = true) w) →
      expandAll heap maxDepth depth chain vs = .ok ts →
      List.Forall₂ (IsWrittenAs s heap) vs ts
  | [], ts, hv, h => by
    rw [expandAll] at h
    cases h
    exact .nil
  | v :: rest, ts, hv, h => by
    obtain ⟨t, us, ht, hu, rfl⟩ := expandAll_cons_eq_ok.mp h
    exact .cons (isWritten_of_expand hf chain depth v (hv v List.mem_cons_self) ht)
      (isWritten_of_expandAll hf chain depth rest (fun w hw => hv w (List.mem_cons_of_mem _ hw)) hu)
termination_by vs => (heap.remaining chain, sizeOf vs, 0)

end

end

/-- Behind every line feed in the text of a value of scalars, strings, arrays and objects stands one unit of indentation
for each bracket that is open there outside of strings, one less before a closing bracket, and then no white space; and
the entries of every container that is not on one line are on lines of their own, each with a comma at its end. -/
theorem indentation_dump {s : Settings} {heap : Heap} {v : Value} {column : Nat} {text : Text}
    (hv : ∀ w, ReflTransGen heap.Holds v w → heap.Meets Atom.IsScalar (isName · = true) w)
    (hf : factoryProblem? s.factory = none) (h : dump s heap v column = .ok text) :
    (∀ earlier line, text = earlier ++ Ascii.lineFeed :: line → IsIndented s (openBrackets? earlier) line) ∧
      OnLines s heap 0 v text := by
  obtain ⟨t, ht, rfl⟩ := exists_of_dump h
  have hw := isWritten_of_expand hf [] 0 v hv ht 0 column
  refine ⟨fun earlier line he => ?_, hw.onLines⟩
  have := hw.isLaid.lines [] earlier line he
  rwa [List.append_nil] at this

/-- An object that holds an array of a bracket and an object without properties. -/
def bracketNode : Heap where
  arrays := [.ofList [.atom (.string (utf8 "[")), .object 1]]
  objects := [(ObjectStore.ofClass (utf8 "App\\Node")).set (utf8 "items") .everywhere (.array 0),
    .ofClass (utf8 "stdClass")]

theorem values_bracketNode : (bracketNode.object 0).keptValues = [.array 0] ∧
    (bracketNode.array 0).values = [.atom (.string (utf8 "[")), .object 1] ∧
    (bracketNode.object 1).keptValues = [] := ⟨rfl, rfl, rfl⟩

theorem dump_bracketNode : dump {} bracketNode (.object 0) 0 =
    .ok (utf8 ("\\Nette\\PhpGenerator\\Dumper::createObject('App\\Node', [\n" ++
      "\t'items' => [\n\t\t'[',\n\t\t(object) [\n\t\t],\n\t],\n])")) := by
  obtain ⟨h₀, h₁, h₂⟩ := values_bracketNode
  have ha : ∀ id < 2, (bracketNode.object id).isAnonymous = false := by decide
  have he : (Value.object 0).expand bracketNode 50 0 [] = .ok (.object (utf8 "App\\Node") [utf8 "items"]
      [.array (bracketNode.array 0).keys [.atom (.string (utf8 "[")), .object (utf8 "stdClass") [] []]]) := by
    simp [Value.expand, expandAll, h₀, h₁, h₂, ha, Except.map, bind, Except.bind, pure, Except.pure]
    exact ⟨rfl, rfl, rfl, rfl⟩
  rw [dump_of_expand he, if_pos (by decide)]
  refine congrArg Except.ok ?_
  decide

theorem meets_bracketNode {w : Value} (hw : ReflTransGen bracketNode.Holds (.object 0) w) :
    bracketNode.Meets Atom.IsScalar (isName · = true) w := by
  obtain ⟨h₀, h₁, h₂⟩ := values_bracketNode
  have : w = .object 0 ∨ w = .array 0 ∨ w = .atom (.string (utf8 "[")) ∨ w = .object 1 := by
    induction hw with
    | refl => exact .inl rfl
    | tail _ h ih =>
      rcases ih with rfl | rfl | rfl | rfl <;> cases h <;> rename_i hm
      · rw [h₀, List.mem_singleton] at hm
        exact .inr (.inl hm)
      · rw [h₁] at hm
        simp only [List.mem_cons, List.not_mem_nil, or_false] at hm
        exact .inr (.inr hm)
      · rw [h₂] at hm
        cases hm
  rcases this with rfl | rfl | rfl | rfl
  · show isName (bracketNode.object 0).className = true
    decide
  · trivial
  · trivial
  · show isName (bracketNode.object 1).className = true
    decide

/-- The bracket in the string counts for nothing. -/
theorem indentation_dump_bracketNode :
    (∀ earlier line,
      utf8 ("\\Nette\\PhpGenerator\\Dumper::createObject('App\\Node', [\n" ++
        "\t'items' => [\n\t\t'[',\n\t\t(object) [\n\t\t],\n\t],\n])") = earlier ++ Ascii.lineFeed :: line →
      IsIndented {} (openBrackets? earlier) line) ∧
    OnLines {} bracketNode 0 (.object 0)
      (utf8 ("\\Nette\\PhpGenerator\\Dumper::createObject('App\\Node', [\n" ++
        "\t'items' => [\n\t\t'[',\n\t\t(object) [\n\t\t],\n\t],\n])")) :=
  indentation_dump (fun _ => meets_bracketNode) (by decide) dump_bracketNode

end PhpLiteral
