import PhpLiteral.Config
import PhpLiteral.Proofs.Render
import PhpLiteral.Proofs.Syntax.Name
import PhpLiteral.Proofs.Toml.Table

/-!
# Configurations are read back

Whatever a configuration is read from, its settings are within their ranges, and merging keeps them there
(`Config.IsValid`). The text that is written for a configuration with such settings is read back as this configuration,
with what it leaves out left out. Of the reader this needs only that it takes back tables as they are written
(`Config.parseWith_toml`). So every configuration that is loaded, with others merged into it, can be stored
(`Config.parse_toml_merged`).
-/

namespace PhpLiteral

/-- Whether a unit of indentation can be chosen. -/
def Indent.isChoice : Indent → Bool
  | .spaces count => isCount count
  | .tab => true

namespace Config

open Toml (Item Members Entry)

/-! ## Settings within their ranges -/

/-- Every setting that is made is one that may stand in a configuration. -/
structure IsValid (c : Config) : Prop where
  maxDepth : ∀ n, c.maxDepth = some n → 0 < n ∧ n < UInt64.size
  wrapLength : ∀ n, c.wrapLength = some n → 0 < n ∧ n < UInt64.size
  indent : ∀ i, c.indent = some i → i.isChoice = true
  factory : ∀ name, c.factory = some name → factoryProblem? name = none

/-- Every setting that is made has a value of its type. -/
structure IsTyped (c : Config) : Prop where
  maxDepth : ∀ n, c.maxDepth = some n → n < UInt64.size
  wrapLength : ∀ n, c.wrapLength = some n → n < UInt64.size
  indent : ∀ i, c.indent = some i → i.isChoice = true

theorem isTyped_empty : empty.IsTyped := ⟨nofun, nofun, nofun⟩

theorem lt_size_of_wordOf {item : Item} {n : Nat} (h : wordOf item = .ok n) : n < UInt64.size := by
  unfold wordOf at h
  split at h
  · split at h
    · cases h
      omega
    · cases h
  · cases h

theorem isChoice_of_ofCount {count : Nat} {i : Indent} (h : Indent.ofCount count = .ok i) : i.isChoice = true := by
  rw [Indent.ofCount] at h
  split at h
  · cases h
    assumption
  · cases h

theorem isChoice_of_parse {t : Text} {i : Indent} (h : Indent.parse t = .ok i) : i.isChoice = true := by
  rw [Indent.parse] at h
  split at h
  · cases h
    rfl
  split at h
  · split at h
    · exact isChoice_of_ofCount h
    · cases h
  · cases h

theorem isChoice_of_indentOf {item : Item} {i : Indent} (h : indentOf item = .ok i) : i.isChoice = true := by
  unfold indentOf at h
  split at h
  · split at h
    · exact isChoice_of_ofCount (mapError_eq_ok.mp h)
    · cases h
  · exact isChoice_of_parse (mapError_eq_ok.mp h)
  · cases h

/-- What a setting does, by its name. -/
theorem setItem_cases {c c' : Config} {name : Text} {item : Item} (h : c.setItem name item = .ok c') :
    (name = utf8 "max_depth" ∧ ∃ n, wordOf item = .ok n ∧ c' = { c with maxDepth := some n }) ∨
      (name = utf8 "wrap_length" ∧ ∃ n, wordOf item = .ok n ∧ c' = { c with wrapLength := some n }) ∨
      (name = utf8 "indentation" ∧ ∃ i, indentOf item = .ok i ∧ c' = { c with indent := some i }) ∨
      (name = utf8 "object_factory" ∧ ∃ t, textOf item = .ok t ∧ c' = { c with factory := some t }) := by
  unfold Config.setItem at h
  split at h
  · obtain ⟨n, hn, h⟩ := bind_eq_ok.mp h
    cases h
    exact .inl ⟨‹_›, n, hn, rfl⟩
  split at h
  · obtain ⟨n, hn, h⟩ := bind_eq_ok.mp h
    cases h
    exact .inr (.inl ⟨‹_›, n, hn, rfl⟩)
  split at h
  · obtain ⟨i, hi, h⟩ := bind_eq_ok.mp h
    cases h
    exact .inr (.inr (.inl ⟨‹_›, i, hi, rfl⟩))
  split at h
  · obtain ⟨t, ht, h⟩ := bind_eq_ok.mp h
    cases h
    exact .inr (.inr (.inr ⟨‹_›, t, ht, rfl⟩))
  · cases h

theorem IsTyped.setItem {c c' : Config} {name : Text} {item : Item} (h : c.IsTyped)
    (hs : c.setItem name item = .ok c') : c'.IsTyped := by
  rcases setItem_cases hs with ⟨-, n, hn, rfl⟩ | ⟨-, n, hn, rfl⟩ | ⟨-, i, hi, rfl⟩ | ⟨-, t, -, rfl⟩
  · exact { h with maxDepth := fun m hm => Option.some.inj hm ▸ lt_size_of_wordOf hn }
  · exact { h with wrapLength := fun m hm => Option.some.inj hm ▸ lt_size_of_wordOf hn }
  · exact { h with indent := fun j hj => Option.some.inj hj ▸ isChoice_of_indentOf hi }
  · exact { h with }

/-- What every step keeps holds of the result of all of them. -/
theorem of_foldlM_eq_ok {α β ε : Type} {P : β → Prop} {f : β → α → Except ε β}
    (hf : ∀ {b a b'}, P b → f b a = .ok b' → P b') : ∀ {l : List α} {b b' : β}, P b → l.foldlM f b = .ok b' → P b'
  | [], _, _, hb, h => by
    cases h
    exact hb
  | _ :: _, _, _, hb, h => by
    rw [List.foldlM_cons] at h
    obtain ⟨_, h₁, h₂⟩ := bind_eq_ok.mp h
    exact of_foldlM_eq_ok hf (hf hb h₁) h₂

theorem IsTyped.setItems {c c' : Config} {items : List (Text × Item)} (h : c.IsTyped)
    (hs : c.setItems items = .ok c') : c'.IsTyped :=
  of_foldlM_eq_ok (fun hb hs => hb.setItem hs) h hs

theorem isTyped_of_ofItem {item : Item} {c : Config} (h : ofItem item = .ok c) : c.IsTyped := by
  unfold ofItem at h
  split at h
  · exact isTyped_empty.setItems h
  · obtain ⟨c', hc, h⟩ := bind_eq_ok.mp h
    split at h
    · cases h
    · cases h
      exact isTyped_empty.setItems hc
  · cases h

theorem isTyped_of_ofMembers {members : Members} {c : Config} (h : ofMembers members = .ok c) : c.IsTyped := by
  refine of_foldlM_eq_ok (fun _ hs => ?_) isTyped_empty h
  simp only at hs
  split at hs
  · exact isTyped_of_ofItem hs
  · cases hs

theorem IsTyped.isValid {c : Config} (h : c.IsTyped) (hp : c.problem? = none) : c.IsValid := by
  unfold problem? at hp
  split at hp
  · cases hp
  rename_i hd
  split at hp
  · cases hp
  rename_i hw
  refine ⟨fun n hn => ⟨?_, h.maxDepth n hn⟩, fun n hn => ⟨?_, h.wrapLength n hn⟩, h.indent, fun name hf => ?_⟩
  · exact Nat.pos_of_ne_zero fun e => hd (e ▸ hn)
  · exact Nat.pos_of_ne_zero fun e => hw (e ▸ hn)
  · rwa [hf, Option.bind_some, Option.map_eq_none_iff] at hp

/-- A text holds only settings within their ranges, whatever reads its table. -/
theorem isValid_of_parseWith {toml? : Text → Option Members} {source t : Text} {c : Config}
    (h : parseWith toml? source t = .ok c) : c.IsValid := by
  unfold parseWith at h
  split at h
  · cases h
  split at h
  · cases h
  · cases h
  rename_i c' hc
  split at h
  · cases h
  · rename_i hp
    cases h
    exact (isTyped_of_ofMembers hc).isValid hp

theorem isValid_of_parse {source t : Text} {c : Config} (h : parse source t = .ok c) : c.IsValid :=
  isValid_of_parseWith h

theorem isValid_defaults : defaults.IsValid := by
  refine ⟨fun n h => ?_, fun n h => ?_, fun i h => ?_, fun name h => ?_⟩ <;> cases h <;> decide

theorem IsValid.merge {c other : Config} (h : c.IsValid) (ho : other.IsValid) : (c.merge other).IsValid := by
  have hor : ∀ {α : Type} {P : α → Prop} {o o' : Option α}, (∀ a, o = some a → P a) → (∀ a, o' = some a → P a) →
      ∀ a, o.or o' = some a → P a := by
    intro α P o o' h h' a ha
    rcases Option.or_eq_some_iff.mp ha with ha | ⟨-, ha⟩
    · exact h a ha
    · exact h' a ha
  exact ⟨hor ho.maxDepth h.maxDepth, hor ho.wrapLength h.wrapLength, hor ho.indent h.indent, hor ho.factory h.factory⟩

/-! ## Configurations as tables -/

/-- The item that stands for a unit of indentation. -/
def indentItem : Indent → Item
  | .spaces count => .int count
  | .tab => .text (utf8 "tab")

/-- The settings that are made, as they are assigned in the text of the configuration. -/
def entries (c : Config) : List Entry :=
  (c.maxDepth.toList.map fun n => ⟨utf8 "max_depth", decimal n, .int n⟩) ++
    (c.wrapLength.toList.map fun n => ⟨utf8 "wrap_length", decimal n, .int n⟩) ++
    (c.indent.toList.map fun i => ⟨utf8 "indentation", writtenIndent i, indentItem i⟩) ++
    (c.factory.toList.map fun t => ⟨utf8 "object_factory", Toml.writtenString t, .text t⟩)

theorem writtenLine_eq_flatMap {α : Type} (name : Text) (written : α → Text) (item : α → Item) (o : Option α) :
    writtenLine name (o.map written) = (o.toList.map fun a => ⟨name, written a, item a⟩).flatMap Entry.line := by
  cases o with
  | none => rfl
  | some a => simp [writtenLine, Entry.line]

theorem toml_eq (c : Config) : c.toml = Toml.header (utf8 "dumper") ++ c.entries.flatMap Entry.line := by
  rw [toml, entries, writtenLine_eq_flatMap _ decimal fun n => .int n, writtenLine_eq_flatMap _ decimal fun n => .int n,
    writtenLine_eq_flatMap _ writtenIndent indentItem, writtenLine_eq_flatMap _ Toml.writtenString .text]
  simp only [List.flatMap_append, List.append_assoc]
  rfl

/-! ### Keys -/

theorem map_const_sublist {α β : Type} (o : Option α) (b : β) : (o.toList.map fun _ => b).Sublist [b] := by
  cases o <;> simp

/-- The settings that are made are in the order of their names. -/
theorem sublist_names (c : Config) : (c.entries.map Entry.key).Sublist names := by
  have h := (((map_const_sublist c.maxDepth (utf8 "max_depth")).append
    (map_const_sublist c.wrapLength (utf8 "wrap_length"))).append
    (map_const_sublist c.indent (utf8 "indentation"))).append (map_const_sublist c.factory (utf8 "object_factory"))
  simpa [entries, Function.comp_def, names] using h

/-! ### Values -/

/-- The name of a function holds none of the bytes that decide how a string is written. -/
theorem not_mem_of_factoryProblem? {name : Text} (h : factoryProblem? name = none) :
    Ascii.quote ∉ name ∧ Ascii.doubleQuote ∉ name ∧ Ascii.lineFeed ∉ name := by
  obtain ⟨c, rest, rfl, hn, hr⟩ := Syntax.exists_nameText_of_factoryProblem? h
  have hb : ∀ b ∈ c ++ rest, Syntax.isNamePart b = true ∨ b = Ascii.colon := by
    intro b hb
    rcases List.mem_append.mp hb with hb | hb
    · exact .inl (hn.parts b hb)
    rcases hr with rfl | ⟨method, rfl, hm⟩
    · cases hb
    rcases List.mem_append.mp hb with hb | hb
    · exact .inr (by simpa using (show b ∈ [Ascii.colon, Ascii.colon] from hb))
    · exact .inl ((Syntax.nameText_of_isIdentifier hm).parts b hb)
  exact ⟨fun hm => absurd (hb _ hm) (by decide), fun hm => absurd (hb _ hm) (by decide),
    fun hm => absurd (hb _ hm) (by decide)⟩

theorem isWritten_of_mem_entries {c : Config} (h : c.IsValid) {e : Entry} (he : e ∈ c.entries) : e.IsWritten := by
  have hk : ∀ name ∈ names, Toml.IsBareKey name := by decide
  have hk := hk _ ((sublist_names c).subset (List.mem_map_of_mem he))
  simp only [entries, List.mem_append, List.mem_map, Option.mem_toList] at he
  rcases he with ((⟨n, hn, rfl⟩ | ⟨n, hn, rfl⟩) | ⟨i, hi, rfl⟩) | ⟨t, ht, rfl⟩
  · exact .number hk (Nat.ne_of_gt (h.maxDepth n hn).1)
  · exact .number hk (Nat.ne_of_gt (h.wrapLength n hn).1)
  · cases i with
    | tab => exact .string (t := utf8 "tab") hk (by decide) (by decide) (by decide)
    | spaces count =>
      have hc := h.indent _ hi
      simp only [Indent.isChoice, Indent.isCount, Bool.and_eq_true, decide_eq_true_eq] at hc
      exact .number hk (by omega)
  · obtain ⟨hq, hd, hl⟩ := not_mem_of_factoryProblem? (h.factory t ht)
    exact .string hk hq hd hl

/-! ## Reading back -/

theorem wordOf_int {n : Nat} (h : n < UInt64.size) : wordOf (.int n) = .ok n := by
  rw [wordOf, if_pos ⟨by omega, by omega⟩, Int.toNat_natCast]

theorem indentOf_indentItem {i : Indent} (h : i.isChoice = true) : indentOf (indentItem i) = .ok i := by
  cases i with
  | tab => rfl
  | spaces count =>
    have hc := h
    simp only [Indent.isChoice, Indent.isCount, Bool.and_eq_true, decide_eq_true_eq] at hc
    rw [indentItem, indentOf, if_pos ⟨by omega, by omega⟩, Int.toNat_natCast, Indent.ofCount,
      if_pos (show Indent.isCount count = true from h)]
    rfl

theorem setItems_append {c c' : Config} {items : List (Text × Item)} (h : c.setItems items = .ok c')
    (more : List (Text × Item)) : c.setItems (items ++ more) = c'.setItems more := by
  rw [setItems] at h
  rw [setItems, List.foldlM_append, h]
  rfl

/-- A member that is there only if a setting is made makes this setting. -/
theorem setItems_toList {α : Type} {c : Config} {name : Text} {item : α → Item} {o : Option α}
    (update : Option α → Config) (hn : update none = c)
    (hs : ∀ a, o = some a → c.setItem name (item a) = .ok (update (some a))) :
    c.setItems (o.toList.map fun a => (name, item a)) = .ok (update o) := by
  cases o with
  | none => exact congrArg Except.ok hn.symm
  | some a =>
    show (c.setItem name (item a) >>= fun c => Except.ok c) = _
    rw [hs a rfl]
    rfl

/-- The members of the table make the settings that they were made of. -/
theorem setItems_entries {c : Config} (h : c.IsValid) : empty.setItems (c.entries.map Entry.member) = .ok c := by
  have h₁ : empty.setItems (c.maxDepth.toList.map fun n : Nat => (utf8 "max_depth", .int n)) =
      .ok ⟨c.maxDepth, none, none, none⟩ := by
    refine setItems_toList (fun d => ⟨d, none, none, none⟩) rfl fun n hn => ?_
    rw [setItem, if_pos rfl, wordOf_int (h.maxDepth n hn).2]
    rfl
  have h₂ : setItems ⟨c.maxDepth, none, none, none⟩
      (c.wrapLength.toList.map fun n : Nat => (utf8 "wrap_length", .int n)) =
        .ok ⟨c.maxDepth, c.wrapLength, none, none⟩ := by
    refine setItems_toList (fun w => ⟨c.maxDepth, w, none, none⟩) rfl fun n hn => ?_
    rw [setItem, if_neg (by decide), if_pos rfl, wordOf_int (h.wrapLength n hn).2]
    rfl
  have h₃ : setItems ⟨c.maxDepth, c.wrapLength, none, none⟩
      (c.indent.toList.map fun i => (utf8 "indentation", indentItem i)) =
        .ok ⟨c.maxDepth, c.wrapLength, c.indent, none⟩ := by
    refine setItems_toList (fun i => ⟨c.maxDepth, c.wrapLength, i, none⟩) rfl fun i hi => ?_
    rw [setItem, if_neg (by decide), if_neg (by decide), if_pos rfl, indentOf_indentItem (h.indent i hi)]
    rfl
  have h₄ : setItems ⟨c.maxDepth, c.wrapLength, c.indent, none⟩
      (c.factory.toList.map fun t => (utf8 "object_factory", .text t)) = .ok c := by
    refine setItems_toList (fun f => ⟨c.maxDepth, c.wrapLength, c.indent, f⟩) rfl fun t ht => ?_
    rw [setItem, if_neg (by decide), if_neg (by decide), if_neg (by decide), if_pos rfl]
    rfl
  simp only [entries, List.map_append, List.map_map, Function.comp_def, Entry.member, List.append_assoc]
  rw [setItems_append h₁, setItems_append h₂, setItems_append h₃, h₄]

theorem problem?_of_isValid {c : Config} (h : c.IsValid) : c.problem? = none := by
  have hd : c.maxDepth ≠ some 0 := fun e => absurd (h.maxDepth 0 e).1 (Nat.lt_irrefl 0)
  have hw : c.wrapLength ≠ some 0 := fun e => absurd (h.wrapLength 0 e).1 (Nat.lt_irrefl 0)
  rw [problem?, if_neg hd, if_neg hw]
  cases hf : c.factory with
  | none => rfl
  | some name => rw [Option.bind_some, h.factory name hf, Option.map_none]

/-- The text that is written for a configuration whose settings are within their ranges is read back as this
configuration, by every reader that takes written tables for what they are. -/
theorem parseWith_toml {toml? : Text → Option Members} (hr : Toml.ReadsBack toml?) {c : Config} (h : c.IsValid)
    (source : Text) : parseWith toml? source c.toml = .ok c := by
  have hk : (c.entries.map Entry.key).Nodup := (sublist_names c).nodup (by decide)
  have hn : Toml.IsBareKey (utf8 "dumper") := by decide
  have ht := hr hn (fun e he => isWritten_of_mem_entries h he) hk
  have hm : ofMembers [(utf8 "dumper", .table .declared (c.entries.map Entry.member))] = .ok c := by
    rw [ofMembers, List.foldlM_cons]
    simp only [if_pos, ofItem, setItems_entries h]
    rfl
  rw [toml_eq, parseWith, ht]
  simp only [hm, problem?_of_isValid h]

theorem parse_toml {c : Config} (h : c.IsValid) (source : Text) : parse source c.toml = .ok c :=
  parseWith_toml Toml.readsBack_parse? h source

/-- A configuration can be read from a text exactly if its settings are within their ranges. -/
theorem exists_parse_iff (source : Text) (c : Config) : (∃ t, parse source t = .ok c) ↔ c.IsValid :=
  ⟨fun ⟨_, h⟩ => isValid_of_parse h, fun h => ⟨c.toml, parse_toml h source⟩⟩

/-! ## Configurations that are loaded -/

/-- A configuration that can be begun with or merged: the defaults, or what a text holds. -/
inductive IsLoaded : Config → Prop
  | defaults : IsLoaded defaults
  | parsed {source t : Text} {c : Config} : parse source t = .ok c → IsLoaded c

theorem IsLoaded.isValid {c : Config} (h : c.IsLoaded) : c.IsValid := by
  cases h with
  | defaults => exact isValid_defaults
  | parsed h => exact isValid_of_parse h

theorem isValid_foldl_merge {c : Config} {others : List Config} (h : c.IsValid) (ho : ∀ o ∈ others, o.IsValid) :
    (others.foldl merge c).IsValid := by
  induction others generalizing c with
  | nil => exact h
  | cons o others ih =>
    rw [List.forall_mem_cons] at ho
    exact ih (h.merge ho.1) ho.2

/-- A loaded configuration with any sequence of loaded ones merged into it is read back from the text that is written
for it. -/
theorem parse_toml_merged {c : Config} {others : List Config} (h : c.IsLoaded) (ho : ∀ o ∈ others, o.IsLoaded)
    (source : Text) : parse source (others.foldl merge c).toml = .ok (others.foldl merge c) :=
  parse_toml (isValid_foldl_merge h.isValid fun o hm => (ho o hm).isValid) source

/-- The text of a configuration with the greatest depth and a name that needs an escape. -/
def overridesText : Text :=
  utf8 "[dumper]\nmax_depth = 18446744073709551615\nindentation = '8'\nobject_factory = \"\\\\Åpp\\\\new\\u007f::make\""

/-- The configuration that this text holds. -/
def overrides : Config := ⟨some 18446744073709551615, none, some (.spaces 8), some (utf8 "\\Åpp\\new\x7f::make")⟩

theorem parse_overridesText : parse (utf8 "phplit.toml") overridesText = .ok overrides := by rfl

theorem parse_toml_merged_overrides : parse (utf8 "phplit.toml")
    (utf8 "[dumper]\nmax_depth = 18446744073709551615\nwrap_length = 120
indentation = 8\nobject_factory = \"\\\\Åpp\\\\new\\u007F::make\"\n") =
      .ok { overrides with wrapLength := some 120 } := by
  have ho : ∀ o ∈ [overrides], o.IsLoaded := List.forall_mem_singleton.mpr (.parsed parse_overridesText)
  have h := parse_toml_merged .defaults ho (utf8 "phplit.toml")
  have ht : ([overrides].foldl merge defaults).toml = utf8 "[dumper]\nmax_depth = 18446744073709551615
wrap_length = 120\nindentation = 8\nobject_factory = \"\\\\Åpp\\\\new\\u007F::make\"\n" := by decide
  rw [ht] at h
  exact h

end Config

end PhpLiteral
