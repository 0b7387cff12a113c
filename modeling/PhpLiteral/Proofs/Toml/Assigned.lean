import PhpLiteral.Proofs.Toml.Items
import PhpLiteral.Proofs.Toml.KeyLines

/-!
# Members that are assigned stay

What statements assign is never taken away again: once a table holds a member of some name, at any depth, whose item
satisfies a condition (`HasMember`), every statement keeps it, provided that the condition allows only items to which
nothing can be added (`HasMember.builder_step`). The machine in turn puts out a statement that assigns such a member
once it has awaited the value of that name (`Machine.Has`, `Machine.Has.step`).
-/

namespace PhpLiteral

theorem Association.get?_append {κ α : Type} [DecidableEq κ] (key : κ) (l l' : List (κ × α)) :
    get? key (l ++ l') = (get? key l).or (get? key l') := by
  induction l with
  | nil => rfl
  | cons e l ih =>
    rw [List.cons_append, get?, get?, ih]
    split <;> rfl

namespace Toml

open Association (get? put)

/-- No statement adds anything to the item. -/
def Item.IsClosed : Item → Prop
  | .table kind _ => kind = .inline
  | .rows _ => False
  | .bool _ | .int _ | .float _ | .text _ | .moment _ | .list _ => True

theorem Item.not_isClosed_table {kind : TableKind} {members : Members} (h : kind ≠ .inline) :
    ¬ (Item.table kind members).IsClosed := h

section

variable (name : Text) (P : Item → Prop)

/-- An item has a member of a name, at any depth, whose item satisfies a condition. -/
inductive Item.Has : Item → Prop
  | list {items : List Item} {item : Item} : item ∈ items → Has item → Has (.list items)
  | here {kind : TableKind} {members : Members} {item : Item} : get? name members = some item → P item →
      Has (.table kind members)
  | inside {kind : TableKind} {members : Members} {n : Text} {item : Item} : get? n members = some item → Has item →
      Has (.table kind members)
  | rows {tables : List Members} {members : Members} : members ∈ tables → Has (.table .declared members) →
      Has (.rows tables)

/-- A table has such a member. -/
def HasMember (members : Members) : Prop :=
  (∃ item, get? name members = some item ∧ P item) ∨ ∃ n item, get? n members = some item ∧ item.Has name P

end

variable {name : Text} {P : Item → Prop}

theorem Item.has_table_iff {kind : TableKind} {members : Members} :
    (Item.table kind members).Has name P ↔ HasMember name P members := by
  constructor
  · intro h
    cases h with
    | here hg hp => exact .inl ⟨_, hg, hp⟩
    | inside hg hi => exact .inr ⟨_, _, hg, hi⟩
  · rintro (⟨item, hg, hp⟩ | ⟨n, item, hg, hi⟩)
    · exact .here hg hp
    · exact .inside hg hi

theorem Item.has_rows_iff {tables : List Members} :
    (Item.rows tables).Has name P ↔ ∃ members ∈ tables, HasMember name P members := by
  constructor
  · intro h
    cases h with
    | rows hm hi => exact ⟨_, hm, has_table_iff.mp hi⟩
  · rintro ⟨members, hm, hi⟩
    exact .rows hm (has_table_iff.mpr hi)

namespace HasMember

variable {members members' : Members}

/-- More members take nothing away. -/
theorem mono (h : HasMember name P members)
    (hs : ∀ n item, get? n members = some item → get? n members' = some item) : HasMember name P members' := by
  rcases h with ⟨item, hg, hp⟩ | ⟨n, item, hg, hi⟩
  · exact .inl ⟨item, hs _ _ hg, hp⟩
  · exact .inr ⟨n, item, hs _ _ hg, hi⟩

theorem append (h : HasMember name P members) (more : Members) : HasMember name P (members ++ more) :=
  h.mono fun n item hg => by rw [Association.get?_append, hg, Option.some_or]

theorem not_nil : ¬ HasMember name P [] := by
  rintro (⟨item, hg, -⟩ | ⟨n, item, hg, -⟩) <;> cases hg

/-- An item that has the member makes one of the table. -/
theorem concat {n : Text} {item : Item} (hn : get? n members = none) (h : item.Has name P) :
    HasMember name P (members ++ [(n, item)]) :=
  .inr ⟨n, item, by simp [Association.get?_append, hn, get?], h⟩

theorem of_put {n : Text} {item : Item} (h : item.Has name P) : HasMember name P (put n item members) :=
  .inr ⟨n, item, by rw [Association.get?_put, if_pos rfl], h⟩

/-- An item to which something can be added is replaced by one that keeps the member if it had it. -/
theorem replace (hc : ∀ item, P item → item.IsClosed) (h : HasMember name P members) {n : Text} {old new : Item}
    (ho : get? n members = some old) (hn : ¬ old.IsClosed) (hk : old.Has name P → new.Has name P)
    (hg : get? n members' = some new) (hs : ∀ k, n ≠ k → get? k members' = get? k members) :
    HasMember name P members' := by
  rcases h with ⟨item, hi, hp⟩ | ⟨k, item, hi, hp⟩
  · have hne : n ≠ name := by
      rintro rfl
      rw [ho] at hi
      cases hi
      exact hn (hc _ hp)
    exact .inl ⟨item, by rw [hs _ hne, hi], hp⟩
  · by_cases hk' : n = k
    · subst hk'
      rw [ho] at hi
      cases hi
      exact .inr ⟨n, new, hg, hk hp⟩
    · exact .inr ⟨k, item, by rw [hs _ hk', hi], hp⟩

theorem put (hc : ∀ item, P item → item.IsClosed) (h : HasMember name P members) {n : Text} {old new : Item}
    (ho : get? n members = some old) (hn : ¬ old.IsClosed) (hk : old.Has name P → new.Has name P) :
    HasMember name P (put n new members) :=
  h.replace hc ho hn hk (by rw [Association.get?_put, if_pos rfl]) fun k hk => by rw [Association.get?_put, if_neg hk]

/-! ## Statements -/

theorem get?_without (n k : Text) (members : Members) :
    get? k (without n members) = if n = k then none else get? k members := by
  induction members with
  | nil => rw [without, List.filter_nil, get?, ite_self]
  | cons e members ih =>
    rw [without] at ih ⊢
    by_cases he : e.1 = n
    · rw [List.filter_cons_of_neg (by simpa using he), ih]
      split
      · rfl
      · rename_i hk
        rw [get?, if_neg fun h => hk (he.symm.trans h)]
    · rw [List.filter_cons_of_pos (by simpa using he), get?, get?, ih]
      split
      · rename_i hk
        rw [if_neg fun h => he (hk.trans h.symm)]
      · rfl

section

variable (hc : ∀ item, P item → item.IsClosed)

include hc

theorem assign {item : Item} {mayEnd : Bool} {key : List Text} (hm : HasMember name P members)
    (h : Toml.assign item mayEnd key members = some members') : HasMember name P members' := by
  fun_induction Toml.assign item mayEnd key members generalizing members' with
  | case1 => cases h
  | case2 =>
    cases h
    exact hm.append _
  | case3 => cases h
  | case4 _ n rest members _ hk ih =>
    obtain ⟨inner, -, rfl⟩ := Option.map_eq_some_iff.mp h
    exact hm.append _
  | case5 _ n rest members _ inner hk ih =>
    obtain ⟨inner', hr, rfl⟩ := Option.map_eq_some_iff.mp h
    refine hm.put hc hk (Item.not_isClosed_table (by decide)) fun hi => ?_
    exact Item.has_table_iff.mpr (ih (Item.has_table_iff.mp hi) hr)
  | case6 _ n rest members _ inner hk ih =>
    obtain ⟨inner', hr, rfl⟩ := Option.map_eq_some_iff.mp h
    refine hm.put hc hk (Item.not_isClosed_table (by decide)) fun hi => ?_
    exact Item.has_table_iff.mpr (ih (Item.has_table_iff.mp hi) hr)
  | case7 => cases h

/-- A change at a path keeps the member if it keeps it where it is made. -/
theorem within {change : Members → Option Members}
    (hch : ∀ {members members'}, HasMember name P members → change members = some members' → HasMember name P members')
    {path : List Text} (hm : HasMember name P members) (h : Toml.within change path members = some members') :
    HasMember name P members' := by
  fun_induction Toml.within change path members generalizing members' with
  | case1 members => exact hch hm h
  | case2 n rest members hk ih =>
    obtain ⟨inner, -, rfl⟩ := Option.map_eq_some_iff.mp h
    exact hm.append _
  | case3 => cases h
  | case4 n rest members kind inner hkind hk ih =>
    obtain ⟨inner', hr, rfl⟩ := Option.map_eq_some_iff.mp h
    exact hm.put hc hk hkind fun hi => Item.has_table_iff.mpr (ih (Item.has_table_iff.mp hi) hr)
  | case5 n rest members tables hk ih =>
    obtain ⟨inner', hr, rfl⟩ := Option.map_eq_some_iff.mp h
    refine hm.put hc hk id fun ht => ?_
    obtain ⟨ms, hms, hi⟩ := Item.has_rows_iff.mp ht
    -- The member is in the last row, to which the path leads, or in one before it.
    rcases List.eq_nil_or_concat' tables with rfl | ⟨rows, last, rfl⟩
    · cases hms
    rw [List.getLast?_concat, Option.getD_some] at ih hr
    rw [List.dropLast_concat, Item.has_rows_iff]
    rcases List.mem_append.mp hms with hms | hms
    · exact ⟨ms, List.mem_append_left _ hms, hi⟩
    · rw [List.mem_singleton] at hms
      subst hms
      exact ⟨inner', List.mem_append_right _ (List.mem_singleton_self _), ih hi hr⟩
  | case6 => cases h

theorem declareTable {n : Text} (hm : HasMember name P members)
    (h : Toml.declareTable n members = some members') : HasMember name P members' := by
  rw [Toml.declareTable] at h
  split at h
  · cases h
    exact hm.append _
  · rename_i inner hk
    cases h
    have hn : get? n (without n members) = none := by rw [get?_without, if_pos rfl]
    have hi : (Item.table .implied inner).Has name P → (Item.table .declared inner).Has name P :=
      fun hi => Item.has_table_iff.mpr (Item.has_table_iff.mp hi)
    refine hm.replace hc hk (Item.not_isClosed_table (by decide)) hi ?_ fun k hk => ?_
    · simp [Association.get?_append, hn, get?]
    · simp [Association.get?_append, get?_without, get?, hk]
  · cases h

theorem declareRow {n : Text} (hm : HasMember name P members)
    (h : Toml.declareRow n members = some members') : HasMember name P members' := by
  rw [Toml.declareRow] at h
  split at h
  · cases h
    exact hm.append _
  · rename_i tables hk
    cases h
    refine hm.put hc hk id fun hi => ?_
    obtain ⟨ms, hms, hi⟩ := Item.has_rows_iff.mp hi
    exact Item.has_rows_iff.mpr ⟨ms, List.mem_append_left _ hms, hi⟩
  · cases h

end

end HasMember

/-! ## Assignments -/

theorem hasMember_assign_single {members members' : Members} {item : Item} {mayEnd : Bool} (hp : P item)
    (h : assign item mayEnd [name] members = some members') : HasMember name P members' := by
  rw [assign] at h
  rcases ite_eq_iff.mp h with ⟨hk, h⟩ | ⟨-, h⟩
  · cases h
    rw [Bool.and_eq_true, Option.isNone_iff_eq_none] at hk
    exact .inl ⟨item, by simp [Association.get?_append, hk.2, get?], hp⟩
  · cases h

theorem hasMember_assign {members members' : Members} {item : Item} {mayEnd : Bool} {key : List Text}
    (hi : item.Has name P) (h : assign item mayEnd key members = some members') : HasMember name P members' := by
  fun_induction Toml.assign item mayEnd key members generalizing members' with
  | case1 => cases h
  | case2 mayEnd n members hk =>
    cases h
    rw [Bool.and_eq_true, Option.isNone_iff_eq_none] at hk
    exact .concat hk.2 hi
  | case3 => cases h
  | case4 _ n rest members _ hk ih =>
    obtain ⟨inner, hr, rfl⟩ := Option.map_eq_some_iff.mp h
    exact .concat hk (Item.has_table_iff.mpr (ih hr))
  | case5 _ n rest members _ inner hk ih =>
    obtain ⟨inner', hr, rfl⟩ := Option.map_eq_some_iff.mp h
    exact .of_put (Item.has_table_iff.mpr (ih hr))
  | case6 _ n rest members _ inner hk ih =>
    obtain ⟨inner', hr, rfl⟩ := Option.map_eq_some_iff.mp h
    exact .of_put (Item.has_table_iff.mpr (ih hr))
  | case7 => cases h

/-- A change at a path makes a member of the table if it makes one where it is made. -/
theorem hasMember_within {change : Members → Option Members}
    (hch : ∀ {members members'}, change members = some members' → HasMember name P members')
    {path : List Text} {members members' : Members} (h : within change path members = some members') :
    HasMember name P members' := by
  fun_induction within change path members generalizing members' with
  | case1 members => exact hch h
  | case2 n rest members hk ih =>
    obtain ⟨inner, hr, rfl⟩ := Option.map_eq_some_iff.mp h
    exact .concat hk (Item.has_table_iff.mpr (ih hr))
  | case3 => cases h
  | case4 n rest members kind inner hkind hk ih =>
    obtain ⟨inner', hr, rfl⟩ := Option.map_eq_some_iff.mp h
    exact .of_put (Item.has_table_iff.mpr (ih hr))
  | case5 n rest members tables hk ih =>
    obtain ⟨inner', hr, rfl⟩ := Option.map_eq_some_iff.mp h
    exact .of_put (Item.has_rows_iff.mpr ⟨inner', List.mem_append_right _ (List.mem_singleton_self _), ih hr⟩)
  | case6 => cases h

/-- A statement assigns a member of the name, or an item that has one. -/
def Statement.Has (name : Text) (P : Item → Prop) : Statement → Prop
  | .assignment key item => key = [name] ∧ P item ∨ item.Has name P
  | .table _ | .row _ => False

/-- A statement keeps the members, and makes those that it has. -/
theorem HasMember.builder_step (hc : ∀ item, P item → item.IsClosed) {b b' : Builder} {s : Statement}
    (hb : HasMember name P b.root ∨ s.Has name P) (h : b.step s = some b') : HasMember name P b'.root := by
  have enter : ∀ {declare : Text → Members → Option Members} {path : List Text},
      (∀ {n members members'}, HasMember name P members → declare n members = some members' →
        HasMember name P members') → HasMember name P b.root → b.enter declare path = some b' →
      HasMember name P b'.root := by
    intro declare path hd hb h
    obtain ⟨n, -, h⟩ := Option.bind_eq_some_iff.mp h
    obtain ⟨root, hr, h⟩ := Option.bind_eq_some_iff.mp h
    cases h
    exact hb.within hc hd hr
  cases s with
  | assignment key item =>
    obtain ⟨root, hr, rfl⟩ := Option.map_eq_some_iff.mp h
    rcases hb with hb | ⟨rfl, hp⟩ | hi
    · exact hb.within hc (fun hm h => hm.assign hc h) hr
    · exact hasMember_within (fun h => hasMember_assign_single hp h) hr
    · exact hasMember_within (fun h => hasMember_assign hi h) hr
  | table path => exact enter (fun hm h => hm.declareTable hc h) (hb.resolve_right id) h
  | row path => exact enter (fun hm h => hm.declareRow hc h) (hb.resolve_right id) h

/-- The root table has what any of the statements has. -/
theorem hasMember_foldlM_step (hc : ∀ item, P item → item.IsClosed) {statements : List Statement} {b b' : Builder}
    (hb : HasMember name P b.root ∨ ∃ s ∈ statements, s.Has name P)
    (h : statements.foldlM Builder.step b = some b') : HasMember name P b'.root := by
  induction statements generalizing b with
  | nil =>
    cases h
    exact hb.resolve_right nofun
  | cons s statements ih =>
    rw [List.foldlM_cons] at h
    obtain ⟨b₁, h₁, h⟩ := Option.bind_eq_some_iff.mp h
    refine ih ?_ h
    rcases hb with hb | ⟨s', hs', hh⟩
    · exact .inl (HasMember.builder_step hc (.inl hb) h₁)
    rcases List.mem_cons.mp hs' with rfl | hs'
    · exact .inl (HasMember.builder_step hc (.inr hh) h₁)
    · exact .inr ⟨s', hs', hh⟩

/-! ## The machine -/

/-- A condition on the item of a value, and one on the text of a value that is neither a string nor a list nor a table,
as far as it has been read. -/
structure Follows (P : Item → Prop) (Q : Text → Bool → Prop) : Prop where
  closed : ∀ item, P item → item.IsClosed
  list : ∀ items, P (.list items)
  table : ∀ members, P (.table .inline members)
  goesOn : ∀ {t t' : Text} {gap gap' : Bool} {l : Lexeme}, Q t gap → GoesOn t gap l t' gap' → Q t' gap'
  ends : ∀ {t : Text} {gap : Bool} {item : Item}, Q t gap → scalar? t = some item → P item

/-- What is open holds a member of the name, or is the value of the name itself. -/
inductive StackHas (name : Text) (P : Item → Prop) (target : List Text) : List Frame → Prop
  | list {items : List Item} {item : Item} {stack : List Frame} : item ∈ items → item.Has name P →
      StackHas name P target (.list items :: stack)
  | table {members : Members} {key : List Text} {stack : List Frame} : HasMember name P members →
      StackHas name P target (.table members key :: stack)
  | value {frame : Frame} {stack : List Frame} : Awaits [name] target stack → StackHas name P target (frame :: stack)
  | outer {frame : Frame} {stack : List Frame} : StackHas name P target stack → StackHas name P target (frame :: stack)

/-- The member is there, or it is that of the inline table that the key is in. -/
def KeyRole.Has (name : Text) (P : Item → Prop) : KeyRole → Prop
  | .member target stack members => StackHas name P target stack ∨ HasMember name P members ∨ Awaits [name] target stack
  | .assignment | .table | .row => False

/-- The member of the name is there, or its value has been read at least in part. -/
def State.Has (name : Text) (P : Item → Prop) (Q : Text → Bool → Prop) : State → Prop
  | .key role _ | .keyEnd role _ => role.Has name P
  | .value target stack => StackHas name P target stack
  | .scalar target stack t gap => StackHas name P target stack ∨ Awaits [name] target stack ∧ Q t gap
  | .after target stack item => StackHas name P target stack ∨ item.Has name P ∨ Awaits [name] target stack ∧ P item
  | .member target stack members => KeyRole.Has name P (.member target stack members)
  | .line | .restOfLine | .header | .rowEnd _ => False

/-- The machine has the member, or the value of the name, in its state or in a statement. -/
def Machine.Has (name : Text) (P : Item → Prop) (Q : Text → Bool → Prop) (m : Machine) : Prop :=
  m.state.Has name P Q ∨ ∃ s ∈ m.statements, s.Has name P

section

variable {Q : Text → Bool → Prop} (hf : Follows P Q)
variable {done : List Statement} {target : List Text} {stack : List Frame} {l : Lexeme} {m m' : Machine}

/-- A list with one more item. -/
theorem StackHas.concat {items : List Item} {item : Item}
    (h : State.Has name P Q (.after target (.list items :: stack) item)) :
    StackHas name P target (.list (items ++ [item]) :: stack) := by
  rcases h with h | h | ⟨ha, -⟩
  · cases h with
    | list hm hi => exact .list (List.mem_append_left _ hm) hi
    | value ha => exact .value ha
    | outer h => exact .outer h
  · exact .list (List.mem_append_right _ (List.mem_singleton_self _)) h
  · cases ha

include hf

/-- A list that ends. -/
theorem StackHas.closeList {items : List Item} (h : StackHas name P target (.list items :: stack)) :
    State.Has name P Q (.after target stack (.list items)) := by
  cases h with
  | list hm hi => exact .inr (.inl (.list hm hi))
  | value ha => exact .inr (.inr ⟨ha, hf.list items⟩)
  | outer h => exact .inl h

/-- An inline table with one more member. -/
theorem State.Has.assign {members members' : Members} {key : List Text} {item : Item}
    (h : State.Has name P Q (.after target (.table members key :: stack) item))
    (ha : Toml.assign item true key members = some members') : KeyRole.Has name P (.member target stack members') := by
  rcases h with h | h | ⟨hk, hp⟩
  · cases h with
    | table hm => exact .inr (.inl (hm.assign hf.closed ha))
    | value hk => exact .inr (.inr hk)
    | outer h => exact .inl h
  · exact .inr (.inl (hasMember_assign h ha))
  · cases hk
    exact .inr (.inl (hasMember_assign_single hp ha))

/-- An inline table that ends. -/
theorem KeyRole.Has.close {members : Members} (h : KeyRole.Has name P (.member target stack members)) :
    State.Has name P Q (.after target stack (.table .inline members)) := by
  rcases h with h | h | hk
  · exact .inl h
  · exact .inr (.inl (Item.has_table_iff.mpr h))
  · exact .inr (.inr ⟨hk, hf.table members⟩)

omit hf in
/-- The value of a member of an inline table begins. -/
theorem KeyRole.Has.stackHas {members : Members} (h : KeyRole.Has name P (.member target stack members))
    (key : List Text) : StackHas name P target (.table members key :: stack) := by
  rcases h with h | h | hk
  · exact .outer h
  · exact .table h
  · exact .value hk

omit hf in
/-- The statement at the end of a value. -/
theorem exists_statement {item : Item} (hm : Machine.Has name P Q ⟨.after target [] item, done⟩) :
    ∃ s ∈ .assignment target item :: done, s.Has name P := by
  rcases hm with (h | h | ⟨ha, hp⟩) | ⟨s, hs, h⟩
  · cases h
  · exact ⟨_, List.mem_cons_self, .inr h⟩
  · cases ha
    exact ⟨_, List.mem_cons_self, .inl ⟨rfl, hp⟩⟩
  · exact ⟨s, List.mem_cons_of_mem _ hs, h⟩

theorem has_stepAfter {item : Item} (hm : Machine.Has name P Q ⟨.after target stack item, done⟩)
    (h : stepAfter done target stack item l = some m') : m'.Has name P Q := by
  unfold stepAfter at h
  split at h
  · cases h
    exact .inr (exists_statement hm)
  · cases h
    exact .inr (exists_statement hm)
  · cases h
    exact .inr (exists_statement hm)
  · cases h
    exact hm.imp_left .concat
  · cases h
    exact hm.imp_left fun hm => (StackHas.concat hm).closeList hf
  · obtain ⟨members, ha, rfl⟩ := Option.map_eq_some_iff.mp h
    exact hm.imp_left fun hm => hm.assign hf ha
  · obtain ⟨members, ha, rfl⟩ := Option.map_eq_some_iff.mp h
    exact hm.imp_left fun hm => (hm.assign hf ha).close hf
  · split at h
    · cases h
      exact hm
    · cases h
  · cases h

theorem has_stepValue (hm : Machine.Has name P Q ⟨.value target stack, done⟩)
    (h : stepValue done target stack l = some m') : m'.Has name P Q := by
  unfold stepValue at h
  split at h
  · cases h
    exact hm.imp_left .inl
  · cases h
    exact hm.imp_left .inl
  · cases h
    exact hm.imp_left .inl
  · split at h
    · cases h
      exact hm.imp_left .outer
    · cases h
  · split at h
    · cases h
      exact hm.imp_left .inl
    · cases h
  · cases h
    exact hm.imp_left fun hm => hm.closeList hf
  · cases h
    exact hm
  · cases h
    exact hm
  · cases h
    exact hm
  · cases h

omit hf in
theorem has_stepKeyEnd {role : KeyRole} {path : List Text} (hm : Machine.Has name P Q ⟨.keyEnd role path, done⟩)
    (h : stepKeyEnd done role path l = some m') : m'.Has name P Q := by
  have more : ∀ s', (∃ s ∈ done, s.Has name P) → ∃ s ∈ s' :: done, s.Has name P :=
    fun s' ⟨s, hs, hh⟩ => ⟨s, List.mem_cons_of_mem _ hs, hh⟩
  unfold stepKeyEnd at h
  split at h
  · cases h
    exact hm
  · cases h
    exact hm
  · cases h
    exact hm.imp_left False.elim
  · cases h
    exact hm.imp_left fun hm => hm.stackHas path
  · cases h
    exact .inr (more _ (hm.resolve_left id))
  · cases h
    exact hm
  · cases h

/-- Every lexeme keeps the member. -/
theorem Machine.Has.step (hm : m.Has name P Q) (h : Toml.step m l = some m') : m'.Has name P Q := by
  have key : ∀ {l : Lexeme} {f : Text → Machine}, (keyPart? l).map f = some m' → (∀ part, (f part).Has name P Q) →
      m'.Has name P Q := by
    intro l f hk hp
    obtain ⟨part, -, rfl⟩ := Option.map_eq_some_iff.mp hk
    exact hp part
  obtain ⟨state, done⟩ := m
  cases state with
  | scalar target stack t gap =>
    rcases step_scalar_cases h with ⟨t', gap', hg, rfl⟩ | ⟨item, hi, h⟩
    · exact hm.imp_left fun hm => hm.imp_right fun ⟨ha, hq⟩ => ⟨ha, hf.goesOn hq hg⟩
    · refine has_stepAfter hf (hm.imp_left fun hm => hm.imp_right fun ⟨ha, hq⟩ => .inr ⟨ha, hf.ends hq hi⟩) h
  | value target stack => exact has_stepValue hf hm h
  | after target stack item => exact has_stepAfter hf hm h
  | keyEnd role path => exact has_stepKeyEnd hm h
  | rowEnd path =>
    obtain ⟨s, hs, hh⟩ := hm.resolve_left id
    cases l with
    | closeBracket =>
      cases h
      exact .inr ⟨s, List.mem_cons_of_mem _ hs, hh⟩
    | _ => cases h
  | restOfLine =>
    cases l with
    | blank | comment | lineEnd =>
      cases h
      exact hm
    | _ => cases h
  | line =>
    cases l with
    | openBracket | blank | lineEnd | comment | string =>
      cases h
      exact hm
    | word => exact key h fun _ => hm
    | _ => cases h
  | header =>
    cases l with
    | openBracket | blank | string =>
      cases h
      exact hm
    | word => exact key h fun _ => hm
    | _ => cases h
  | key role path =>
    cases l with
    | blank | string =>
      cases h
      exact hm
    | word => exact key h fun _ => hm
    | _ => cases h
  | member target stack members =>
    cases l with
    | closeBrace =>
      cases h
      exact hm.imp_left fun hm => hm.close hf
    | blank | lineEnd | comment | string =>
      cases h
      exact hm
    | word => exact key h fun _ => hm
    | _ => cases h

theorem Machine.Has.foldlM_step {ls : List Lexeme} (hm : m.Has name P Q) (h : ls.foldlM Toml.step m = some m') :
    m'.Has name P Q :=
  of_foldlM_eq_some (P := fun _ (m : Machine) => m.Has name P Q) (n := 0) (fun _ _ _ _ _ hm h => hm.step hf h) hm h

end

end Toml

end PhpLiteral
