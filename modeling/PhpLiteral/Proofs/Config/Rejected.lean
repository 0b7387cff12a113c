import PhpLiteral.Proofs.Config.RoundTrip
import PhpLiteral.Proofs.Toml.ValuePlaces

/-!
# Values that are rejected

The value that a configuration is rejected for is the only member of its name, in the `dumper` table unless this is a
list (`Config.exists_of_hasMember`). So where a line of the text assigns this name, this value stands behind the equals
sign, as a single lexeme (`Config.exists_isRejectedAt`).
-/

namespace PhpLiteral

open Association (get?)
open Toml (Item Members)

/-- The item that is rejected. -/
def ConfigProblem.item : ConfigProblem → Item
  | zeroDepth | zeroWidth => .int 0
  | factory name _ => .text name

namespace Config

/-! ## Settings and members -/

/-- The setting of a name is the one that an item makes. -/
structure IsSetBy (c : Config) (name : Text) (item : Item) : Prop where
  maxDepth : name = utf8 "max_depth" → ∃ n, wordOf item = .ok n ∧ c.maxDepth = some n
  wrapLength : name = utf8 "wrap_length" → ∃ n, wordOf item = .ok n ∧ c.wrapLength = some n
  factory : name = utf8 "object_factory" → ∃ t, textOf item = .ok t ∧ c.factory = some t

theorem isSetBy_of_setItem {c c' : Config} {name : Text} {item : Item} (h : c.setItem name item = .ok c') :
    c'.IsSetBy name item := by
  rcases setItem_cases h with ⟨rfl, n, hn, rfl⟩ | ⟨rfl, n, hn, rfl⟩ | ⟨rfl, i, -, rfl⟩ | ⟨rfl, t, ht, rfl⟩
  · exact ⟨fun _ => ⟨n, hn, rfl⟩, fun e => absurd e (by decide), fun e => absurd e (by decide)⟩
  · exact ⟨fun e => absurd e (by decide), fun _ => ⟨n, hn, rfl⟩, fun e => absurd e (by decide)⟩
  · exact ⟨fun e => absurd e (by decide), fun e => absurd e (by decide), fun e => absurd e (by decide)⟩
  · exact ⟨fun e => absurd e (by decide), fun e => absurd e (by decide), fun _ => ⟨t, ht, rfl⟩⟩

/-- Another setting leaves it as it is. -/
theorem IsSetBy.setItem {c c' : Config} {name other : Text} {item item' : Item} (h : c.IsSetBy name item)
    (hn : other ≠ name) (hs : c.setItem other item' = .ok c') : c'.IsSetBy name item := by
  rcases setItem_cases hs with ⟨rfl, n, -, rfl⟩ | ⟨rfl, n, -, rfl⟩ | ⟨rfl, i, -, rfl⟩ | ⟨rfl, t, -, rfl⟩
  · exact ⟨fun e => absurd e.symm hn, h.wrapLength, h.factory⟩
  · exact ⟨h.maxDepth, fun e => absurd e.symm hn, h.factory⟩
  · exact ⟨h.maxDepth, h.wrapLength, h.factory⟩
  · exact ⟨h.maxDepth, h.wrapLength, fun e => absurd e.symm hn⟩

theorem IsSetBy.setItems {c c' : Config} {name : Text} {item : Item} {members : Members} (h : c.IsSetBy name item)
    (hn : name ∉ members.map Prod.fst) (hs : c.setItems members = .ok c') : c'.IsSetBy name item := by
  induction members generalizing c with
  | nil =>
    cases hs
    exact h
  | cons m members ih =>
    rw [List.map_cons, List.mem_cons, not_or] at hn
    rw [Config.setItems, List.foldlM_cons] at hs
    obtain ⟨c₁, h₁, hs⟩ := bind_eq_ok.mp hs
    exact ih (h.setItem (Ne.symm hn.1) h₁) hn.2 hs

/-- Every member of a table that is read is a number or a text, and makes the setting of its name. -/
theorem isSetBy_of_setItems {c c' : Config} {members : Members} (hn : (members.map Prod.fst).Nodup)
    (hs : c.setItems members = .ok c') : ∀ m ∈ members, c'.IsSetBy m.1 m.2 := by
  induction members generalizing c with
  | nil => exact nofun
  | cons m members ih =>
    rw [List.map_cons, List.nodup_cons] at hn
    rw [Config.setItems, List.foldlM_cons] at hs
    obtain ⟨c₁, h₁, hs⟩ := bind_eq_ok.mp hs
    exact List.forall_mem_cons.mpr ⟨(isSetBy_of_setItem h₁).setItems hn.1 hs, ih hn.2 hs⟩

theorem isAtom_of_setItem {c c' : Config} {name : Text} {item : Item} (h : c.setItem name item = .ok c') :
    item.IsAtom := by
  rcases setItem_cases h with ⟨-, n, hn, -⟩ | ⟨-, n, hn, -⟩ | ⟨-, i, hn, -⟩ | ⟨-, t, hn, -⟩
  all_goals cases item <;> trivial

theorem isAtom_of_setItems {c c' : Config} {members : Members} (hs : c.setItems members = .ok c') :
    ∀ m ∈ members, m.2.IsAtom := by
  induction members generalizing c with
  | nil => exact nofun
  | cons m members ih =>
    rw [Config.setItems, List.foldlM_cons] at hs
    obtain ⟨c₁, h₁, hs⟩ := bind_eq_ok.mp hs
    exact List.forall_mem_cons.mpr ⟨isAtom_of_setItem h₁, ih hs⟩

theorem eq_of_wordOf_zero {item : Item} (h : wordOf item = .ok 0) : item = .int 0 := by
  unfold wordOf at h
  split at h
  · rcases ite_eq_iff.mp h with ⟨hi, h⟩ | ⟨-, h⟩
    · have hz := Except.ok.inj h
      rw [Item.int.injEq]
      omega
    · cases h
  · cases h

theorem eq_of_textOf {item : Item} {t : Text} (h : textOf item = .ok t) : item = .text t := by
  cases item <;> cases h
  rfl

/-- The item that makes a setting which is rejected. -/
theorem IsSetBy.item_eq {c : Config} {problem : ConfigProblem} {item : Item} (h : c.IsSetBy problem.key item)
    (hp : c.problem? = some problem) : item = problem.item := by
  unfold problem? at hp
  rcases ite_eq_iff.mp hp with ⟨hd, hp⟩ | ⟨-, hp⟩
  · cases hp
    obtain ⟨n, hw, hn⟩ := h.maxDepth rfl
    cases hd.symm.trans hn
    exact eq_of_wordOf_zero hw
  rcases ite_eq_iff.mp hp with ⟨hd, hp⟩ | ⟨-, hp⟩
  · cases hp
    obtain ⟨n, hw, hn⟩ := h.wrapLength rfl
    cases hd.symm.trans hn
    exact eq_of_wordOf_zero hw
  obtain ⟨name, hf, hp⟩ := Option.bind_eq_some_iff.mp hp
  obtain ⟨reason, -, rfl⟩ := Option.map_eq_some_iff.mp hp
  obtain ⟨t, ht, hn⟩ := h.factory rfl
  cases hf.symm.trans hn
  exact eq_of_textOf ht

/-- The root table has only the settings. -/
theorem eq_of_ofMembers {c : Config} {members : Members} (hn : (members.map Prod.fst).Nodup)
    (h : ofMembers members = .ok c) (hm : members ≠ []) :
    ∃ item, members = [(utf8 "dumper", item)] ∧ ofItem item = .ok c := by
  obtain ⟨⟨name, item⟩, more, rfl⟩ := List.exists_cons_of_ne_nil hm
  rw [ofMembers, List.foldlM_cons] at h
  obtain ⟨c₁, h₁, h₂⟩ := bind_eq_ok.mp h
  rcases ite_eq_iff.mp h₁ with ⟨rfl, h₁⟩ | ⟨-, h₁⟩
  · cases more with
    | nil =>
      cases h₂
      exact ⟨item, rfl, h₁⟩
    | cons m more =>
      rw [List.foldlM_cons] at h₂
      obtain ⟨c₂, h₂, -⟩ := bind_eq_ok.mp h₂
      rcases ite_eq_iff.mp h₂ with ⟨hk, -⟩ | ⟨-, h₂⟩
      · simp [hk] at hn
      · cases h₂
  · cases h₁

/-- A member of the name of a rejected setting, at any depth of the root table, is what the setting is made of. -/
theorem exists_of_hasMember {c : Config} {problem : ConfigProblem} {members : Members} {P : Item → Prop} {limit rows : Nat}
    (hs : Toml.AreSound limit rows members) (h : ofMembers members = .ok c) (hp : c.problem? = some problem)
    (hm : Toml.HasMember problem.key P members) :
    (∃ items, members = [(utf8 "dumper", .list items)]) ∨
      ∃ kind inner, members = [(utf8 "dumper", .table kind inner)] ∧ get? problem.key inner = some problem.item ∧
        P problem.item := by
  have hne : members ≠ [] := by
    rintro rfl
    exact Toml.HasMember.not_nil hm
  obtain ⟨item, rfl, hi⟩ := eq_of_ofMembers hs.nodup h hne
  have hkey : utf8 "dumper" ≠ problem.key := by
    cases problem with
    | zeroDepth | zeroWidth => decide
    | factory => exact show utf8 "dumper" ≠ utf8 "object_factory" by decide
  have hh : item.Has problem.key P := by
    rcases hm with ⟨item', hg, -⟩ | ⟨n, item', hg, hh⟩
    · rw [get?, if_neg hkey] at hg
      cases hg
    · rw [get?] at hg
      rcases ite_eq_iff.mp hg with ⟨-, hg⟩ | ⟨-, hg⟩ <;> cases hg
      exact hh
  cases item with
  | list items => exact .inl ⟨items, rfl⟩
  | table kind inner =>
    have hn := (hs.all _ List.mem_cons_self).toTable.nodup
    refine .inr ⟨kind, inner, rfl, ?_⟩
    rcases Item.has_table_iff.mp hh with ⟨item, hg, hP⟩ | ⟨n, item, hg, hi'⟩
    · have he := (isSetBy_of_setItems hn hi _ (Association.mem_of_get?_eq_some hg)).item_eq hp
      exact ⟨he ▸ hg, he ▸ hP⟩
    · exact absurd hi' (Toml.Item.not_has_of_isAtom (isAtom_of_setItems hi _ (Association.mem_of_get?_eq_some hg)))
  | rows => cases hi
  | _ => cases hh

/-! ## Places -/

theorem isBareKey_key (problem : ConfigProblem) : Toml.IsBareKey problem.key := by
  cases problem with
  | zeroDepth | zeroWidth => decide
  | factory => exact show Toml.IsBareKey (utf8 "object_factory") by decide

theorem isAtom_item (problem : ConfigProblem) : problem.item.IsAtom := by
  cases problem <;> trivial

/-- What is rejected is the member of its name in the `dumper` table, and its value is written as `value`, with `after`
behind it. -/
structure IsRejectedAt (t : Text) (problem : ConfigProblem) (value after : Text) : Prop where
  place : Toml.IsValueAt t problem.key problem.item value after
  member : ∃ kind members, Toml.parse? t = some [(utf8 "dumper", .table kind members)] ∧
    get? problem.key members = some problem.item

/-- Behind the key of a rejected setting at the start of a line, the value stands that it is rejected for. -/
theorem exists_isRejectedAt {t head u rest : Text} {members : Members} {c : Config} {problem : ConfigProblem}
    (h : Toml.StartsLine t head u rest) (hu : u.filter Toml.isBareKeyByte = problem.key)
    (ht : Toml.parse? t = some members) (hc : ofMembers members = .ok c) (hp : c.problem? = some problem) :
    Toml.IsInString (Toml.unmarked t) (u ++ Ascii.equals :: rest) ∨
      (∃ items, Toml.parse? t = some [(utf8 "dumper", .list items)]) ∨
      ∃ gap value after, rest = gap ++ (value ++ after) ∧ (∀ b ∈ gap, Toml.isBlank b = true) ∧
        IsRejectedAt t problem value after := by
  obtain ⟨statements, hs, hb⟩ := Option.bind_eq_some_iff.mp ht
  refine (Toml.exists_value_place h hs).imp_right ?_
  rintro ⟨gap, value, after, l, hr, hg, ha, s, hm, hh⟩
  rw [hu] at ha hh
  have hsound := Toml.areSound_of_build? (Toml.areDone_of_statements? hs).1 hb
  obtain ⟨b, hf, rfl⟩ := Option.map_eq_some_iff.mp hb
  -- The statement behind the key makes a member of its name, and only the rejected one has this name.
  have hmember := Toml.hasMember_foldlM_step (fun _ hi => hi.isClosed) (.inr ⟨s, hm, hh⟩) hf
  rcases exists_of_hasMember hsound hc hp hmember with ⟨items, he⟩ | ⟨kind, inner, he, hget, hbegins⟩
  · exact .inl ⟨items, he ▸ ht⟩
  · have hplace : Toml.IsValueAt t problem.key problem.item value after :=
      ⟨l, ha, hbegins.item?_eq (isAtom_item problem)⟩
    exact .inr ⟨gap, value, after, hr, hg, hplace, kind, inner, he ▸ ht, hget⟩

end Config

end PhpLiteral
