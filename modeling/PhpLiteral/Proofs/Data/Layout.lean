import PhpLiteral.Proofs.Data.Numbering
import PhpLiteral.Proofs.Layout.Basic

/-!
# Layouts of data

A tree without objects and code is the tree of data (`Data.tree`), and its text is read as this data at every level
and every column (`reads_layout`), on one line as well as on several.
-/

namespace PhpLiteral

open Syntax (Data Indexing Reads Lexes Delimits Stops Lexeme ParsesEntry ParsesEntries ParsesTail)

/-! ## Data as a tree -/

mutual

/-- The tree of a value without objects. -/
def Syntax.Data.tree : Data → Tree
  | .null => .atom .null
  | .bool b => .atom (.bool b)
  | .int i => .atom (.int i)
  | .string bytes => .atom (.string bytes)
  | .array entries => .array (entries.map Prod.fst) (Syntax.Data.trees entries)

/-- The trees of the values in an array. -/
def Syntax.Data.trees : List (Key × Data) → List Tree
  | [] => []
  | (_, d) :: rest => d.tree :: Syntax.Data.trees rest

end

mutual

/-- In all arrays, no key is there twice, and a text key names no integer. -/
def Syntax.Data.IsNormal : Data → Prop
  | .array entries =>
    (entries.map Prod.fst).Nodup ∧ (∀ name, .str name ∈ entries.map Prod.fst → Key.ofText name = .str name) ∧
      Syntax.Data.AllNormal entries
  | _ => True

def Syntax.Data.AllNormal : List (Key × Data) → Prop
  | [] => True
  | (_, d) :: rest => d.IsNormal ∧ Syntax.Data.AllNormal rest

end

open Syntax.Data (trees AllNormal)

/-! ## Entries -/

variable {r : Indexing}

/-- The numbering before the rest of the entries of an array, whose keys are new and read as themselves. -/
structure Pending (n : Numbering) (before rest : List (Key × Data)) : Prop where
  nodup : ((before ++ rest).map Prod.fst).Nodup
  normal : ∀ name, .str name ∈ rest.map Prod.fst → Key.ofText name = .str name
  follows : n.Follows (before.map Prod.fst) (rest.map Prod.fst)

theorem Pending.tail {n : Numbering} {before rest : List (Key × Data)} {key : Key} {d : Data}
    (h : Pending n before ((key, d) :: rest)) : Pending (n.after key) (before ++ [(key, d)]) rest where
  nodup := by simpa using h.nodup
  normal name hm := h.normal name (List.mem_cons_of_mem _ hm)
  follows := by simpa using h.follows.after

theorem reads_keyLiteral {key : Key} (h : ∀ name, key = .str name → Key.ofText name = .str name) :
    ∃ k : Data, k.key? = some key ∧ Reads r (Numbering.keyLiteral key) k := by
  cases key with
  | int i => exact ⟨.int i, rfl, Syntax.reads_intLiteral i⟩
  | str name => exact ⟨.string name, congrArg some (h name rfl), Syntax.reads_stringLiteral name⟩

/-- An entry is read as itself, with its key or without. -/
theorem Pending.parsesEntry {n : Numbering} {before rest : List (Key × Data)} {key : Key} {d : Data} {text : Text}
    (h : Pending n before ((key, d) :: rest)) (ht : Reads r text d) :
    ∃ ls, Lexes (n.keyPart key ++ text) ls ∧ ParsesEntry r before ls (key, d) := by
  obtain ⟨vs, hl, hv⟩ := ht
  have hn : key ∉ before.map Prod.fst := by
    have := h.nodup
    rw [List.map_append, List.nodup_append] at this
    exact fun hm => this.2.2 key hm key (by simp) rfl
  unfold Numbering.keyPart
  split
  · rename_i hi
    obtain ⟨hi, rfl⟩ := hi
    exact ⟨vs, hl, hv.entry_implied (h.follows.next? hi r) hn⟩
  · have hkn : ∀ name, key = .str name → Key.ofText name = .str name := fun name e => h.normal name (by simp [e])
    obtain ⟨k, hk, ks, hkl, hkp⟩ := reads_keyLiteral (r := r) hkn
    have hs : Stops (utf8 " => ") := Syntax.stops_cons.mpr (by decide)
    refine ⟨ks ++ [.arrow] ++ vs, ?_, ?_⟩
    · exact (hkl.append_delimits Syntax.delimits_arrow hs (by decide)).append_lexes hl
    · rw [List.append_assoc]
      exact hkp.entry hk hv hn

/-! ## Layout -/

theorem delimits_comma_space {w : Text} (h : ∀ b ∈ w, Syntax.isSpace b = true) :
    Delimits (Ascii.comma :: w) [.comma] :=
  Syntax.delimits_comma.append (Syntax.delimits_of_isSpace h)

mutual

/-- The text of data is read as this data, wherever it stands. -/
theorem reads_layout (s : Settings) : ∀ (d : Data), d.IsNormal → ∀ level column,
    Reads r (d.tree.layout s level column) d
  | .null, _, level, column => by
    rw [Data.tree, Tree.layout]
    exact Syntax.reads_null
  | .bool b, _, level, column => by
    rw [Data.tree, Tree.layout]
    cases b
    · exact Syntax.reads_false
    · exact Syntax.reads_true
  | .int i, _, level, column => by
    rw [Data.tree, Tree.layout]
    exact Syntax.reads_intLiteral i
  | .string bytes, _, level, column => by
    rw [Data.tree, Tree.layout]
    exact Syntax.reads_stringLiteral bytes
  | .array [], _, level, column => by
    rw [Data.tree, Tree.layout, trees, if_pos List.isEmpty_nil]
    exact ⟨_, (Syntax.delimits_open.append Syntax.delimits_close).lexes, (Syntax.parsesEntries_nil []).array⟩
  | .array (e :: entries), h, level, column => by
    rw [Data.IsNormal] at h
    obtain ⟨hd, hk, hn⟩ := h
    have hp : Pending (Numbering.ofKeys ((e :: entries).map Prod.fst)) [] (e :: entries) :=
      ⟨hd, hk, Numbering.follows_ofKeys _⟩
    rw [Data.tree, Tree.layout, if_neg (by simp [trees])]
    simp only
    split
    · obtain ⟨ls, hl, hes⟩ := reads_layoutInline s (e :: entries) hn hp (List.cons_ne_nil _ _) column
      have := (Syntax.delimits_open.append_lexes hl).append_delimits Syntax.delimits_close
        (Syntax.stops_cons.mpr (by decide)) (by decide)
      exact ⟨_, this.lexes, hes.array⟩
    · obtain ⟨ls, hl, hes⟩ := reads_layoutLines s (e :: entries) hn hp level
      have hs : Delimits (utf8 "[\n" ++ s.indent.levels level) [.openBracket] :=
        (Syntax.delimits_open.append (Syntax.delimits_of_isSpace (w := [Ascii.lineFeed])
          (List.forall_mem_singleton.mpr rfl))).append (Syntax.delimits_of_isSpace fun _ => isSpace_of_mem_levels)
      exact ⟨_, ((hs.append hl).append Syntax.delimits_close).lexes, hes.array⟩

/-- The entries of data on lines of their own. -/
theorem reads_layoutLines (s : Settings) : ∀ (entries : List (Key × Data)), AllNormal entries →
    ∀ {before : List (Key × Data)} {n : Numbering}, Pending n before entries → ∀ level,
    ∃ ls, Delimits (layoutLines s level (arrayLines s level) (n.keyParts (entries.map Prod.fst)) (trees entries)) ls ∧
      ParsesEntries r before ls entries
  | [], _, before, n, _, level => ⟨[], Syntax.Delimits.nil, Syntax.parsesEntries_nil before⟩
  | (key, d) :: rest, hn, before, n, hp, level => by
    rw [AllNormal] at hn
    obtain ⟨ls, hl, he⟩ := hp.parsesEntry (reads_layout s d hn.1 (level + 1) (labelRoom true (n.keyPart key)))
    obtain ⟨ms, hm, hes⟩ := reads_layoutLines s rest hn.2 hp.tail level
    have hu : Delimits s.indent.unit [] := Syntax.delimits_of_isSpace fun _ => isSpace_of_mem_unit
    have hc : Delimits (Ascii.comma :: Ascii.lineFeed :: s.indent.levels level) [.comma] :=
      delimits_comma_space fun b hb => by
        rcases List.mem_cons.mp hb with rfl | hb
        · rfl
        · exact isSpace_of_mem_levels hb
    have ht := ((hu.append_lexes hl).append_delimits hc (Syntax.stops_comma _) (by simp)).append hm
    refine ⟨_, ?_, he.cons hes⟩
    have e : layoutLines s level (arrayLines s level) (n.keyParts (((key, d) :: rest).map Prod.fst))
          (trees ((key, d) :: rest)) =
        s.indent.unit ++ (n.keyPart key ++ d.tree.layout s (level + 1) (labelRoom true (n.keyPart key))) ++
          Ascii.comma :: Ascii.lineFeed :: s.indent.levels level ++
          layoutLines s level (arrayLines s level) ((n.after key).keyParts (rest.map Prod.fst)) (trees rest) := by
      rw [List.map_cons, Numbering.keyParts, trees, layoutLines, ← List.append_assoc s.indent.unit]
      rfl
    rw [e]
    simpa using ht

/-- The entries of data on one line. -/
theorem reads_layoutInline (s : Settings) : ∀ (entries : List (Key × Data)), AllNormal entries →
    ∀ {n : Numbering}, Pending n [] entries → entries ≠ [] → ∀ column,
    ∃ ls, Lexes (layoutInline s column true 0 (n.keyParts (entries.map Prod.fst)) (trees entries)) ls ∧
      ParsesEntries r [] ls entries
  | (key, d) :: rest, hn, n, hp, _, column => by
    rw [AllNormal] at hn
    obtain ⟨c, o, e, ho⟩ := exists_layoutInline_cons s column true 0 (n.keyPart key)
      ((n.after key).keyParts (rest.map Prod.fst)) d.tree (trees rest)
    have hd : Reads r (d.tree.layout s 0 c) d := reads_layout s d hn.1 0 c
    obtain ⟨ls, hl, he⟩ := hp.parsesEntry hd
    have hpos : 0 < (d.tree.layout s 0 c).length := List.length_pos_iff.mpr hd.ne_nil
    obtain ⟨ms, hml, hms, hes, hc⟩ := reads_layoutTail s rest hn.2 hp.tail column o (by omega)
    rw [List.map_cons, Numbering.keyParts, trees, e]
    exact ⟨ls ++ ms, hl.append hml hms, he.entries hes hc⟩

/-- Further entries of data on one line. -/
theorem reads_layoutTail (s : Settings) : ∀ (entries : List (Key × Data)), AllNormal entries →
    ∀ {before : List (Key × Data)} {n : Numbering}, Pending n before entries → ∀ column offset, offset ≠ 0 →
    ∃ ls, Lexes (layoutInline s column true offset (n.keyParts (entries.map Prod.fst)) (trees entries)) ls ∧
      Stops (layoutInline s column true offset (n.keyParts (entries.map Prod.fst)) (trees entries)) ∧
      ParsesTail r before ls entries ∧ (ls = [] ∨ ls.head? = some .comma)
  | [], hn, before, n, hp, column, offset, ho =>
    ⟨[], Syntax.Delimits.nil.lexes, Syntax.stops_nil, Syntax.parsesTail_nil before, .inl rfl⟩
  | (key, d) :: rest, hn, before, n, hp, column, offset, ho => by
    rw [AllNormal] at hn
    obtain ⟨c, o, e, hoo⟩ := exists_layoutInline_cons s column true offset (n.keyPart key)
      ((n.after key).keyParts (rest.map Prod.fst)) d.tree (trees rest)
    obtain ⟨ls, hl, he⟩ := hp.parsesEntry (reads_layout s d hn.1 0 c)
    obtain ⟨ms, hml, hms, hes, hc⟩ := reads_layoutTail s rest hn.2 hp.tail column o (by omega)
    -- Behind the first entry there is always a comma, because no text of a value is empty.
    have hs : separator offset = Ascii.comma :: [Ascii.space] := if_neg ho
    rw [List.map_cons, Numbering.keyParts, trees, e, hs]
    have hcs : Delimits (Ascii.comma :: [Ascii.space]) [.comma] :=
      delimits_comma_space (List.forall_mem_singleton.mpr rfl)
    exact ⟨_, (hcs.append_lexes hl).append hml hms, Syntax.stops_comma _, (he.entries hes hc).tail, .inr rfl⟩

end

end PhpLiteral
