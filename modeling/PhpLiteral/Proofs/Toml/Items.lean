import PhpLiteral.Proofs.Document.Values
import PhpLiteral.Toml

/-!
# Items of TOML texts

A table that is read from a TOML text has no name twice, and a list in it has no more items than the text has bytes, and
one (`Toml.areSound_of_parse?`). The machine keeps this for the items that it puts into statements
(`Toml.Machine.IsSound`), and each statement keeps it for the root table (`Toml.Builder.isSound_step`), where the
statements count the rows of headers.
-/

namespace PhpLiteral.Toml

open Association (IsTableOf)

/-- No list in an item has more items than a limit, and no table has a name twice. The tables of headers in double
brackets have a limit of their own. -/
inductive Item.IsSound (limit rows : Nat) : Item → Prop
  | bool (b : Bool) : IsSound limit rows (.bool b)
  | int (i : Int) : IsSound limit rows (.int i)
  | float (x : Binary64) : IsSound limit rows (.float x)
  | text (t : Text) : IsSound limit rows (.text t)
  | moment (m : Moment) : IsSound limit rows (.moment m)
  | list {items : List Item} : items.length ≤ limit → (∀ item ∈ items, IsSound limit rows item) →
      IsSound limit rows (.list items)
  | table {kind : TableKind} {members : Members} : (members.map Prod.fst).Nodup →
      (∀ member ∈ members, IsSound limit rows member.2) → IsSound limit rows (.table kind members)
  | rows {tables : List Members} : tables ≠ [] → tables.length ≤ rows →
      (∀ members ∈ tables, (members.map Prod.fst).Nodup) →
      (∀ members ∈ tables, ∀ member ∈ members, IsSound limit rows member.2) → IsSound limit rows (.rows tables)

/-- No member of a table has the name of another, and all are sound. -/
abbrev AreSound (limit rows : Nat) (members : Members) : Prop := IsTableOf (Item.IsSound limit rows) members

variable {limit limit' rows rows' : Nat}

namespace Item.IsSound

theorem mono (hl : limit ≤ limit') (hr : rows ≤ rows') {item : Item} (h : item.IsSound limit rows) :
    item.IsSound limit' rows' := by
  induction h with
  | bool b => exact .bool b
  | int i => exact .int i
  | float x => exact .float x
  | text t => exact .text t
  | moment m => exact .moment m
  | list hn _ ih => exact .list (Nat.le_trans hn hl) ih
  | table hn _ ih => exact .table hn ih
  | rows he hn hu _ ih => exact .rows he (Nat.le_trans hn hr) hu ih

theorem ofTable {kind : TableKind} {members : Members} (h : AreSound limit rows members) :
    (Item.table kind members).IsSound limit rows :=
  .table h.nodup h.all

theorem toTable {kind : TableKind} {members : Members} (h : (Item.table kind members).IsSound limit rows) :
    AreSound limit rows members := by
  cases h with
  | table hn hm => exact ⟨hn, hm⟩

theorem ofRows {tables : List Members} (he : tables ≠ []) (hn : tables.length ≤ rows)
    (h : ∀ members ∈ tables, AreSound limit rows members) : (Item.rows tables).IsSound limit rows :=
  .rows he hn (fun members hm => (h members hm).nodup) fun members hm => (h members hm).all

theorem toRows {tables : List Members} (h : (Item.rows tables).IsSound limit rows) :
    tables ≠ [] ∧ tables.length ≤ rows ∧ ∀ members ∈ tables, AreSound limit rows members := by
  cases h with
  | rows he hn hu hm => exact ⟨he, hn, fun members h => ⟨hu members h, hm members h⟩⟩

end Item.IsSound

theorem AreSound.mono (hl : limit ≤ limit') (hr : rows ≤ rows') {members : Members}
    (h : AreSound limit rows members) : AreSound limit' rows' members :=
  h.imp fun _ hi => hi.mono hl hr

/-! ## Statements -/

theorem AreSound.assign {item : Item} (hi : item.IsSound limit rows) {mayEnd : Bool} {key : List Text}
    {members members' : Members} (hm : AreSound limit rows members)
    (h : Toml.assign item mayEnd key members = some members') : AreSound limit rows members' := by
  -- The key ends here, leads into a new table, or into one that is there.
  fun_induction Toml.assign item mayEnd key members generalizing members' with
  | case1 => cases h
  | case2 mayEnd members name hk =>
    cases h
    simp only [Bool.and_eq_true, Option.isNone_iff_eq_none] at hk
    exact hm.concat hk.2 hi
  | case3 => cases h
  | case4 _ members name rest _ hk ih =>
    obtain ⟨inner, hr, rfl⟩ := Option.map_eq_some_iff.mp h
    exact hm.concat hk (.ofTable (ih .nil hr))
  | case5 _ members name rest _ inner hk ih =>
    obtain ⟨inner', hr, rfl⟩ := Option.map_eq_some_iff.mp h
    exact hm.put (.ofTable (ih (hm.get? hk).toTable hr))
  | case6 _ members name rest _ inner hk ih =>
    obtain ⟨inner', hr, rfl⟩ := Option.map_eq_some_iff.mp h
    exact hm.put (.ofTable (ih (hm.get? hk).toTable hr))
  | case7 => cases h

/-- The rows with another last table are sound if the tables are. -/
theorem Item.IsSound.replaceLast {tables : List Members} (h : (Item.rows tables).IsSound limit rows) {inner : Members}
    (hi : AreSound limit rows' inner) (hr : rows ≤ rows') :
    (Item.rows (tables.dropLast ++ [inner])).IsSound limit rows' := by
  obtain ⟨he, hn, ht⟩ := h.toRows
  refine .ofRows (by simp) ?_ (List.forall_mem_append.mpr ⟨fun members hm => ?_, List.forall_mem_singleton.mpr hi⟩)
  · have hp := List.length_pos_iff.mpr he
    rw [List.length_append, List.length_dropLast, List.length_singleton]
    omega
  · exact (ht members (List.dropLast_subset _ hm)).mono (Nat.le_refl _) hr

/-- A change at a path keeps the table sound if it keeps those sound that it is made to. -/
theorem AreSound.within (hr : rows ≤ rows') {change : Members → Option Members}
    (hc : ∀ {members members'}, AreSound limit rows members → change members = some members' →
      AreSound limit rows' members')
    {path : List Text} {members members' : Members} (hm : AreSound limit rows members)
    (h : Toml.within change path members = some members') : AreSound limit rows' members' := by
  -- The path ends here, leads into a new table, into one that is there, or into the last row.
  fun_induction Toml.within change path members generalizing members' with
  | case1 members => exact hc hm h
  | case2 members name rest hk ih =>
    obtain ⟨inner, hi, rfl⟩ := Option.map_eq_some_iff.mp h
    exact (hm.mono (Nat.le_refl _) hr).concat hk (.ofTable (ih .nil hi))
  | case3 => cases h
  | case4 members name rest kind inner _ hk ih =>
    obtain ⟨inner', hi, rfl⟩ := Option.map_eq_some_iff.mp h
    exact (hm.mono (Nat.le_refl _) hr).put (.ofTable (ih (hm.get? hk).toTable hi))
  | case5 members name rest tables hk ih =>
    obtain ⟨inner, hi, rfl⟩ := Option.map_eq_some_iff.mp h
    have ht := hm.get? hk
    obtain ⟨he, -, hs⟩ := ht.toRows
    have hl : AreSound limit rows (tables.getLast?.getD []) := by
      rw [List.getLast?_eq_some_getLast he]
      exact hs _ (List.getLast_mem he)
    exact (hm.mono (Nat.le_refl _) hr).put (ht.replaceLast (ih hl hi) hr)
  | case6 => cases h

theorem AreSound.declareTable {name : Text} {members members' : Members} (hm : AreSound limit rows members)
    (h : Toml.declareTable name members = some members') : AreSound limit rows members' := by
  rw [Toml.declareTable] at h
  split at h
  · cases h
    exact hm.concat ‹_› (.ofTable .nil)
  · rename_i inner hk
    cases h
    have hw : AreSound limit rows (without name members) :=
      ⟨hm.nodup.sublist (List.filter_sublist.map _), fun member h => hm.all member (List.mem_of_mem_filter h)⟩
    refine hw.concat (Association.get?_of_not_mem ?_) (.ofTable (hm.get? hk).toTable)
    simp [without]
  · cases h

theorem AreSound.declareRow {name : Text} {members members' : Members} (hm : AreSound limit rows members)
    (h : Toml.declareRow name members = some members') : AreSound limit (rows + 1) members' := by
  have hm' := hm.mono (Nat.le_refl _) (Nat.le_succ rows)
  have he : AreSound limit (rows + 1) [] := .nil
  rw [Toml.declareRow] at h
  split at h
  · cases h
    exact hm'.concat ‹_› (.ofRows (List.cons_ne_nil _ _) (by simp) (List.forall_mem_singleton.mpr he))
  · rename_i tables hk
    cases h
    obtain ⟨-, hn, ht⟩ := (hm.get? hk).toRows
    refine hm'.put (.ofRows (by simp) (by simpa using hn) (List.forall_mem_append.mpr
      ⟨fun members h => (ht members h).mono (Nat.le_refl _) (Nat.le_succ rows), List.forall_mem_singleton.mpr he⟩))
  · cases h

/-- The item of a statement is sound, whatever the limit of rows. -/
def Statement.IsSound (limit : Nat) : Statement → Prop
  | .assignment _ item => item.IsSound limit 0
  | .table _ | .row _ => True

/-- A statement keeps the root table sound, with room for one more row. -/
theorem Builder.isSound_step {b b' : Builder} {s : Statement} (hb : AreSound limit rows b.root)
    (hs : s.IsSound limit) (h : b.step s = some b') : AreSound limit (rows + 1) b'.root := by
  have enter : ∀ {declare : Text → Members → Option Members} {path : List Text},
      (∀ {name members members'}, AreSound limit rows members → declare name members = some members' →
        AreSound limit (rows + 1) members') → b.enter declare path = some b' → AreSound limit (rows + 1) b'.root := by
    intro declare path hd h
    obtain ⟨name, -, h⟩ := Option.bind_eq_some_iff.mp h
    obtain ⟨root, hr, h⟩ := Option.bind_eq_some_iff.mp h
    cases h
    exact hb.within (Nat.le_succ rows) hd hr
  cases s with
  | assignment key item =>
    obtain ⟨root, hr, rfl⟩ := Option.map_eq_some_iff.mp h
    have hi : item.IsSound limit rows := Item.IsSound.mono (Nat.le_refl _) (Nat.zero_le _) hs
    exact hb.within (Nat.le_succ rows)
      (fun hm h => (hm.assign hi h).mono (Nat.le_refl _) (Nat.le_succ rows)) hr
  | table path => exact enter (fun hm h => (hm.declareTable h).mono (Nat.le_refl _) (Nat.le_succ rows)) h
  | row path => exact enter (fun hm h => hm.declareRow h) h

theorem Builder.isSound_foldlM_step {b b' : Builder} {statements : List Statement} (hb : AreSound limit rows b.root)
    (hs : ∀ s ∈ statements, s.IsSound limit) (h : statements.foldlM Builder.step b = some b') :
    AreSound limit (rows + statements.length) b'.root :=
  of_foldlM_eq_some (P := fun rows (b : Builder) => AreSound limit rows b.root)
    (fun s hm _ _ _ hb h => Builder.isSound_step hb (hs s hm) h) hb h

/-- The root table that statements build is sound, and has no more rows than there are statements. -/
theorem areSound_of_build? {statements : List Statement} {members : Members}
    (hs : ∀ s ∈ statements, s.IsSound limit) (h : build? statements = some members) :
    AreSound limit statements.length members := by
  obtain ⟨b, hb, rfl⟩ := Option.map_eq_some_iff.mp h
  have h₀ : AreSound limit 0 Builder.start.root := .nil
  exact (Nat.zero_add statements.length) ▸ Builder.isSound_foldlM_step h₀ hs hb

/-! ## The machine -/

/-- The items of an open list, or the members of an open table, are sound. -/
def Frame.IsSound (limit : Nat) : Frame → Prop
  | .list items => items.length ≤ limit ∧ ∀ item ∈ items, item.IsSound limit 0
  | .table members _ => AreSound limit 0 members

/-- All that a key waits with is sound. -/
def KeyRole.IsSound (limit : Nat) : KeyRole → Prop
  | .member _ stack members => (∀ f ∈ stack, f.IsSound limit) ∧ AreSound limit 0 members
  | .assignment | .table | .row => True

/-- All that a state holds is sound. -/
def State.IsSound (limit : Nat) : State → Prop
  | .key role _ | .keyEnd role _ => role.IsSound limit
  | .value _ stack | .scalar _ stack _ _ => ∀ f ∈ stack, f.IsSound limit
  | .after _ stack item => (∀ f ∈ stack, f.IsSound limit) ∧ item.IsSound limit 0
  | .member _ stack members => (∀ f ∈ stack, f.IsSound limit) ∧ AreSound limit 0 members
  | .line | .restOfLine | .header | .rowEnd _ => True

/-- Statements are sound, and not more than a limit. -/
def AreDone (limit : Nat) (done : List Statement) : Prop := (∀ s ∈ done, s.IsSound limit) ∧ done.length ≤ limit

/-- All that the machine holds and has put out is sound. -/
def Machine.IsSound (limit : Nat) (m : Machine) : Prop := m.state.IsSound limit ∧ AreDone limit m.statements

theorem Frame.IsSound.mono (hl : limit ≤ limit') {f : Frame} (h : f.IsSound limit) : f.IsSound limit' := by
  cases f with
  | list items => exact ⟨Nat.le_trans h.1 hl, fun item hi => (h.2 item hi).mono hl (Nat.le_refl 0)⟩
  | table members key => exact AreSound.mono hl (Nat.le_refl 0) h

theorem forall_isSound_mono (hl : limit ≤ limit') {stack : List Frame} (h : ∀ f ∈ stack, f.IsSound limit) :
    ∀ f ∈ stack, f.IsSound limit' :=
  fun f hf => (h f hf).mono hl

theorem KeyRole.IsSound.mono (hl : limit ≤ limit') {role : KeyRole} (h : role.IsSound limit) :
    role.IsSound limit' := by
  cases role with
  | member target stack members => exact ⟨forall_isSound_mono hl h.1, h.2.mono hl (Nat.le_refl 0)⟩
  | assignment | table | row => trivial

theorem State.IsSound.mono (hl : limit ≤ limit') {s : State} (h : s.IsSound limit) : s.IsSound limit' := by
  cases s with
  | key role path => exact KeyRole.IsSound.mono hl h
  | keyEnd role path => exact KeyRole.IsSound.mono hl h
  | value target stack => exact forall_isSound_mono hl h
  | scalar target stack t gap => exact forall_isSound_mono hl h
  | after target stack item => exact ⟨forall_isSound_mono hl h.1, h.2.mono hl (Nat.le_refl 0)⟩
  | member target stack members => exact ⟨forall_isSound_mono hl h.1, h.2.mono hl (Nat.le_refl 0)⟩
  | line | restOfLine | header | rowEnd path => trivial

theorem Statement.IsSound.mono (hl : limit ≤ limit') {s : Statement} (h : s.IsSound limit) : s.IsSound limit' := by
  cases s with
  | assignment key item => exact Item.IsSound.mono hl (Nat.le_refl 0) h
  | table path | row path => trivial

theorem AreDone.mono (hl : limit ≤ limit') {done : List Statement} (h : AreDone limit done) : AreDone limit' done :=
  ⟨fun s hs => (h.1 s hs).mono hl, Nat.le_trans h.2 hl⟩

theorem AreDone.cons {done : List Statement} (h : AreDone limit done) {s : Statement} (hs : s.IsSound limit) :
    AreDone (limit + 1) (s :: done) :=
  ⟨List.forall_mem_cons.mpr ⟨hs.mono (Nat.le_succ _), (h.mono (Nat.le_succ _)).1⟩, Nat.succ_le_succ h.2⟩

theorem Frame.IsSound.concat {items : List Item} {item : Item} (h : Frame.IsSound limit (.list items))
    (hi : item.IsSound limit 0) : Frame.IsSound (limit + 1) (.list (items ++ [item])) := by
  refine ⟨by simpa using h.1, List.forall_mem_append.mpr ⟨?_, List.forall_mem_singleton.mpr ?_⟩⟩
  · exact (h.mono (Nat.le_succ limit)).2
  · exact hi.mono (Nat.le_succ limit) (Nat.le_refl 0)

theorem isSound_of_scalar? {t : Text} {item : Item} (h : scalar? t = some item) : item.IsSound limit rows := by
  unfold scalar? at h
  split at h
  · cases h
    exact .bool _
  split at h
  · cases h
    exact .bool _
  split at h <;> cases h
  · exact .int _
  · exact .float _
  · exact .moment _

section

variable {done : List Statement} {target : List Text} {stack : List Frame} {l : Lexeme} {m : Machine}

theorem isSound_stepAfter (hd : AreDone limit done) (hs : ∀ f ∈ stack, f.IsSound limit) {item : Item}
    (hi : item.IsSound limit 0) (h : stepAfter done target stack item l = some m) : m.IsSound (limit + 1) := by
  have hd' := hd.mono (Nat.le_succ limit)
  have hs' := forall_isSound_mono (Nat.le_succ limit) hs
  have hi' := hi.mono (Nat.le_succ limit) (Nat.le_refl 0)
  unfold stepAfter at h
  split at h
  · cases h
    exact ⟨trivial, hd.cons hi⟩
  · cases h
    exact ⟨trivial, hd.cons hi⟩
  · cases h
    exact ⟨trivial, hd.cons hi⟩
  · cases h
    rw [List.forall_mem_cons] at hs hs'
    exact ⟨List.forall_mem_cons.mpr ⟨hs.1.concat hi, hs'.2⟩, hd'⟩
  · cases h
    rw [List.forall_mem_cons] at hs hs'
    have hf := hs.1.concat hi
    exact ⟨⟨hs'.2, .list hf.1 hf.2⟩, hd'⟩
  · obtain ⟨members, ha, rfl⟩ := Option.map_eq_some_iff.mp h
    rw [List.forall_mem_cons] at hs'
    exact ⟨⟨hs'.2, AreSound.assign hi' hs'.1 ha⟩, hd'⟩
  · obtain ⟨members, ha, rfl⟩ := Option.map_eq_some_iff.mp h
    rw [List.forall_mem_cons] at hs'
    exact ⟨⟨hs'.2, .ofTable (AreSound.assign hi' hs'.1 ha)⟩, hd'⟩
  · split at h
    · cases h
      exact ⟨⟨hs', hi'⟩, hd'⟩
    · cases h
  · cases h

theorem isSound_stepValue (hd : AreDone limit done) (hs : ∀ f ∈ stack, f.IsSound limit)
    (h : stepValue done target stack l = some m) : m.IsSound limit := by
  unfold stepValue at h
  split at h
  · cases h
    exact ⟨hs, hd⟩
  · cases h
    exact ⟨⟨hs, .text _⟩, hd⟩
  · cases h
    exact ⟨⟨hs, .text _⟩, hd⟩
  · split at h
    · cases h
      exact ⟨List.forall_mem_cons.mpr ⟨⟨Nat.zero_le _, nofun⟩, hs⟩, hd⟩
    · cases h
  · split at h
    · cases h
      exact ⟨⟨hs, .nil⟩, hd⟩
    · cases h
  · cases h
    rw [List.forall_mem_cons] at hs
    exact ⟨⟨hs.2, .list hs.1.1 hs.1.2⟩, hd⟩
  · cases h
    exact ⟨hs, hd⟩
  · cases h
    exact ⟨hs, hd⟩
  · cases h
    exact ⟨hs, hd⟩
  · cases h

theorem isSound_stepKeyEnd (hd : AreDone limit done) {role : KeyRole} {path : List Text} (hr : role.IsSound limit)
    (h : stepKeyEnd done role path l = some m) : m.IsSound (limit + 1) := by
  have hd' := hd.mono (Nat.le_succ limit)
  have hr' := hr.mono (Nat.le_succ limit)
  unfold stepKeyEnd at h
  split at h
  · cases h
    exact ⟨hr', hd'⟩
  · cases h
    exact ⟨hr', hd'⟩
  · cases h
    exact ⟨nofun, hd'⟩
  · cases h
    exact ⟨List.forall_mem_cons.mpr ⟨hr'.2, hr'.1⟩, hd'⟩
  · cases h
    exact ⟨trivial, hd.cons trivial⟩
  · cases h
    exact ⟨trivial, hd'⟩
  · cases h

end

/-- The machine holds sound items after a lexeme if it does before, with room for one more item or statement. -/
theorem Machine.IsSound.step {m m' : Machine} {l : Lexeme} (hm : m.IsSound limit) (h : Toml.step m l = some m') :
    m'.IsSound (limit + 1) := by
  obtain ⟨state, done⟩ := m
  obtain ⟨hs, hd⟩ := hm
  have hs' := hs.mono (Nat.le_succ limit)
  have hd' := AreDone.mono (Nat.le_succ limit) hd
  unfold Toml.step at h
  dsimp only at h hs hs' hd hd'
  split at h
  -- the start of a line
  · cases h
    exact ⟨trivial, hd'⟩
  · split at h
    · cases h
      exact ⟨trivial, hd'⟩
    · obtain ⟨part, -, rfl⟩ := Option.map_eq_some_iff.mp h
      exact ⟨trivial, hd'⟩
  -- the rest of a line
  · cases h
    exact ⟨trivial, hd'⟩
  · split at h
    · cases h
      exact ⟨trivial, hd'⟩
    · cases h
  -- headers
  · cases h
    exact ⟨trivial, hd'⟩
  · cases h
    exact ⟨trivial, hd'⟩
  · obtain ⟨part, -, rfl⟩ := Option.map_eq_some_iff.mp h
    exact ⟨trivial, hd'⟩
  -- keys
  · cases h
    exact ⟨hs', hd'⟩
  · obtain ⟨part, -, rfl⟩ := Option.map_eq_some_iff.mp h
    exact ⟨hs', hd'⟩
  · exact isSound_stepKeyEnd hd hs h
  · cases h
    exact ⟨trivial, hd.cons trivial⟩
  · cases h
  -- values
  · exact isSound_stepValue hd' hs' h
  · cases h
    exact ⟨hs', hd'⟩
  · cases h
    exact ⟨hs', hd'⟩
  · split at h
    · cases h
      exact ⟨hs', hd'⟩
    · obtain ⟨item, hi, h⟩ := Option.bind_eq_some_iff.mp h
      exact isSound_stepAfter hd hs (isSound_of_scalar? hi) h
  · cases h
    exact ⟨hs', hd'⟩
  · obtain ⟨item, hi, h⟩ := Option.bind_eq_some_iff.mp h
    exact isSound_stepAfter hd hs (isSound_of_scalar? hi) h
  · exact isSound_stepAfter hd hs.1 hs.2 h
  -- members
  · cases h
    exact ⟨⟨hs'.1, .ofTable hs'.2⟩, hd'⟩
  · split at h
    · cases h
      exact ⟨hs', hd'⟩
    · obtain ⟨part, -, rfl⟩ := Option.map_eq_some_iff.mp h
      exact ⟨hs', hd'⟩

theorem Machine.IsSound.foldlM_step {m m' : Machine} {ls : List Lexeme} (hm : m.IsSound limit)
    (h : ls.foldlM Toml.step m = some m') : m'.IsSound (limit + ls.length) :=
  of_foldlM_eq_some (fun _ _ _ _ _ hm h => hm.step h) hm h

theorem length_lexemesFrom? {t : Text} {skip : Nat} {ls : List Lexeme} (h : lexemesFrom? skip t = some ls) :
    ls.length ≤ t.length := by
  induction t generalizing skip ls with
  | nil => cases skip <;> cases h <;> exact Nat.le_refl _
  | cons b rest ih =>
    cases skip with
    | succ skip => exact Nat.le_succ_of_le (ih h)
    | zero =>
      rw [lexemesFrom?] at h
      split at h
      · obtain ⟨ls, hr, rfl⟩ := Option.map_eq_some_iff.mp h
        exact Nat.succ_le_succ (ih hr)
      · cases h

theorem length_lexemes? {t : Text} {ls : List Lexeme} (h : lexemes? t = some ls) : ls.length ≤ t.length := by
  unfold lexemes? at h
  split at h
  · have := length_lexemesFrom? h
    simp only [List.length_cons]
    omega
  · exact length_lexemesFrom? h

/-- The statements of a text are sound, and no more than the text has bytes, and one. -/
theorem areDone_of_statements? {t : Text} {statements : List Statement} (h : statements? t = some statements) :
    AreDone (t.length + 1) statements := by
  obtain ⟨ls, hl, h⟩ := Option.bind_eq_some_iff.mp h
  obtain ⟨m, hm, h⟩ := Option.bind_eq_some_iff.mp h
  have h₀ : Machine.IsSound 0 ⟨.line, []⟩ := ⟨trivial, nofun, Nat.le_refl 0⟩
  have hm := h₀.foldlM_step hm
  have hn := length_lexemes? hl
  rw [List.length_append, List.length_singleton, Nat.zero_add] at hm
  split at h
  · cases h
    have hd := AreDone.mono (Nat.succ_le_succ hn) hm.2
    exact ⟨fun s hs => hd.1 s (List.mem_reverse.mp hs), (List.length_reverse ..).symm ▸ hd.2⟩
  · cases h

/-- The root table of a text has no name twice in a table, and in a list no more items than the text has bytes, and
one. -/
theorem areSound_of_parse? {t : Text} {members : Members} (h : parse? t = some members) :
    AreSound (t.length + 1) (t.length + 1) members := by
  obtain ⟨statements, hs, hb⟩ := Option.bind_eq_some_iff.mp h
  obtain ⟨hs, hl⟩ := areDone_of_statements? hs
  exact (areSound_of_build? hs hb).mono (Nat.le_refl _) hl

end PhpLiteral.Toml
