import PhpLiteral.Json
import PhpLiteral.Proofs.Document.Values

/-!
# Contents of JSON texts

A table that is read from a JSON text has no name twice, and a list in it has no more items than the text has bytes
(`Json.isSound_of_parse?`). The machine keeps this for all that it holds (`Json.State.IsSound`), with the number of
lexemes that it has taken as the limit.
-/

namespace PhpLiteral.Json

/-- No list in a content has more items than a limit, and no table has a name twice. -/
inductive Content.IsSound (limit : Nat) : Content → Prop
  | null : IsSound limit .null
  | bool (b : Bool) : IsSound limit (.bool b)
  | number (n : Number) : IsSound limit (.number n)
  | text (t : Text) : IsSound limit (.text t)
  | list {items : List Content} : items.length ≤ limit → (∀ item ∈ items, IsSound limit item) →
      IsSound limit (.list items)
  | table {members : List (Text × Content)} : (members.map Prod.fst).Nodup →
      (∀ member ∈ members, IsSound limit member.2) → IsSound limit (.table members)

theorem Content.isSound_table {limit : Nat} {members : List (Text × Content)}
    (h : Association.IsTableOf (Content.IsSound limit) members) : (Content.table members).IsSound limit :=
  .table h.nodup h.all

theorem Content.IsSound.mono {limit limit' : Nat} (hl : limit ≤ limit') {c : Content} (h : c.IsSound limit) :
    c.IsSound limit' := by
  induction h with
  | null => exact .null
  | bool b => exact .bool b
  | number n => exact .number n
  | text t => exact .text t
  | list hn _ ih => exact .list (Nat.le_trans hn hl) ih
  | table hn _ ih => exact .table hn ih

/-! ## Lexemes -/

/-- The content of a lexeme is sound, whatever the limit. -/
def Lexeme.IsSound : Lexeme → Prop
  | .scalar c => c.IsSound 0
  | _ => True

theorem isSound_of_mem_words : ∀ w ∈ words, w.2.IsSound 0 := by
  simp only [words, List.forall_mem_cons]
  exact ⟨.null, .bool _, .bool _, nofun⟩

theorem isSound_of_lexeme? {t : Text} {l : Lexeme} {width : Nat} (h : lexeme? t = some (some l, width)) :
    l.IsSound := by
  unfold lexeme? at h
  split at h
  · cases h
  dsimp only at h
  rcases ite_eq_iff.mp h with ⟨-, h⟩ | ⟨-, h⟩
  · cases h
  iterate 6
    rcases ite_eq_iff.mp h with ⟨-, h⟩ | ⟨-, h⟩
    · cases h
      trivial
  rcases ite_eq_iff.mp h with ⟨-, h⟩ | ⟨-, h⟩
  · obtain ⟨p, -, e⟩ := Option.map_eq_some_iff.mp h
    cases e
    trivial
  rcases ite_eq_iff.mp h with ⟨-, h⟩ | ⟨-, h⟩
  · obtain ⟨n, -, e⟩ := Option.map_eq_some_iff.mp h
    cases e
    exact .number n
  · obtain ⟨w, hw, e⟩ := Option.map_eq_some_iff.mp h
    cases e
    exact isSound_of_mem_words _ (List.mem_of_find?_eq_some hw)

/-- There are no more lexemes than bytes, and all of them are sound. -/
theorem lexemesFrom?_spec {t : Text} {skip : Nat} {ls : List Lexeme} (h : lexemesFrom? skip t = some ls) :
    ls.length ≤ t.length ∧ ∀ l ∈ ls, l.IsSound := by
  induction t generalizing skip ls with
  | nil =>
    cases skip <;> cases h <;> exact ⟨Nat.le_refl _, nofun⟩
  | cons b rest ih =>
    cases skip with
    | succ skip => exact (ih h).imp_left fun hl => Nat.le_succ_of_le hl
    | zero =>
      rw [lexemesFrom?] at h
      split at h
      · rename_i l width hl
        obtain ⟨ls, hr, rfl⟩ := Option.map_eq_some_iff.mp h
        obtain ⟨hn, hs⟩ := ih hr
        exact ⟨Nat.succ_le_succ hn, List.forall_mem_cons.mpr ⟨isSound_of_lexeme? hl, hs⟩⟩
      · exact (ih h).imp_left fun hl => Nat.le_succ_of_le hl
      · cases h

/-! ## The machine -/

variable {limit : Nat}

/-- The items of an open list, or the members of an open table, are sound. -/
def Frame.IsSound (limit : Nat) : Frame → Prop
  | .list items => items.length ≤ limit ∧ ∀ item ∈ items, item.IsSound limit
  | .table members _ => Association.IsTableOf (Content.IsSound limit) members

/-- All that the machine holds is sound. -/
def State.IsSound (limit : Nat) : State → Prop
  | .value stack _ | .colon stack => ∀ f ∈ stack, f.IsSound limit
  | .name stack members _ =>
    (∀ f ∈ stack, f.IsSound limit) ∧ Association.IsTableOf (Content.IsSound limit) members
  | .after stack c => (∀ f ∈ stack, f.IsSound limit) ∧ c.IsSound limit

theorem Frame.IsSound.mono {limit' : Nat} (hl : limit ≤ limit') {f : Frame} (h : f.IsSound limit) :
    f.IsSound limit' := by
  cases f with
  | list items => exact ⟨Nat.le_trans h.1 hl, fun item hi => (h.2 item hi).mono hl⟩
  | table members name => exact Association.IsTableOf.imp (fun _ hd => hd.mono hl) h

theorem State.IsSound.mono {limit' : Nat} (hl : limit ≤ limit') {s : State} (h : s.IsSound limit) :
    s.IsSound limit' := by
  have hf : ∀ {stack : List Frame}, (∀ f ∈ stack, f.IsSound limit) → ∀ f ∈ stack, f.IsSound limit' :=
    fun h f hf => (h f hf).mono hl
  cases s with
  | value stack closable => exact hf h
  | colon stack => exact hf h
  | name stack members closable => exact ⟨hf h.1, h.2.imp fun _ hd => hd.mono hl⟩
  | after stack c => exact ⟨hf h.1, h.2.mono hl⟩

/-- One more item needs a limit that is greater by one. -/
theorem Frame.IsSound.cons {items : List Content} {c : Content} (h : Frame.IsSound limit (.list items))
    (hc : c.IsSound limit) : Frame.IsSound (limit + 1) (.list (c :: items)) :=
  ⟨Nat.succ_le_succ h.1, List.forall_mem_cons.mpr
    ⟨hc.mono (Nat.le_succ _), fun item hi => (h.2 item hi).mono (Nat.le_succ _)⟩⟩

/-- The machine holds sound contents after a lexeme if it does before, with room for one more item. -/
theorem State.IsSound.step {s s' : State} {l : Lexeme} (hs : s.IsSound limit) (hl : l.IsSound)
    (h : Json.step s l = some s') : s'.IsSound (limit + 1) := by
  have hm := hs.mono (Nat.le_succ limit)
  unfold Json.step at h
  split at h
  -- a value, or what opens one
  · cases h
    exact ⟨hm, hl.mono (Nat.zero_le _)⟩
  · cases h
    exact ⟨hm, .text _⟩
  · split at h
    · cases h
      exact List.forall_mem_cons.mpr ⟨⟨Nat.zero_le _, nofun⟩, hm⟩
    · cases h
  · split at h
    · cases h
      exact ⟨hm, .nil⟩
    · cases h
  -- the end of an empty list
  · cases h
    exact ⟨(List.forall_mem_cons.mp hm).2, .list (Nat.zero_le _) nofun⟩
  -- names and colons
  · cases h
    exact List.forall_mem_cons.mpr ⟨hm.2, hm.1⟩
  · cases h
    exact ⟨hm.1, Content.isSound_table hm.2⟩
  · cases h
    exact hm
  -- one more item
  · cases h
    exact List.forall_mem_cons.mpr
      ⟨(List.forall_mem_cons.mp hs.1).1.cons hs.2, (List.forall_mem_cons.mp hm.1).2⟩
  · cases h
    have hf := (List.forall_mem_cons.mp hs.1).1.cons hs.2
    refine ⟨(List.forall_mem_cons.mp hm.1).2, .list (by simpa using hf.1) fun item hi => ?_⟩
    exact hf.2 item (List.mem_reverse.mp hi)
  -- one more member
  · cases h
    obtain ⟨hf, hr⟩ := List.forall_mem_cons.mp hm.1
    exact ⟨hr, Association.IsTableOf.put hf hm.2⟩
  · cases h
    obtain ⟨hf, hr⟩ := List.forall_mem_cons.mp hm.1
    exact ⟨hr, Content.isSound_table (Association.IsTableOf.put hf hm.2)⟩
  · cases h

/-- After lexemes, no list has more items than it had before, and one for each lexeme. -/
theorem State.IsSound.foldlM_step {s s' : State} {ls : List Lexeme} (hs : s.IsSound limit)
    (hl : ∀ l ∈ ls, l.IsSound) (h : ls.foldlM Json.step s = some s') : s'.IsSound (limit + ls.length) :=
  of_foldlM_eq_some (fun l hm _ _ _ hs h => hs.step (hl l hm) h) hs h

/-- The content of a text has no name twice in a table, and in a list no more items than the text has bytes. -/
theorem isSound_of_parse? {t : Text} {c : Content} (h : parse? t = some c) : c.IsSound t.length := by
  obtain ⟨ls, hl, h⟩ := Option.bind_eq_some_iff.mp h
  obtain ⟨s, hs, h⟩ := Option.bind_eq_some_iff.mp h
  obtain ⟨hn, hl⟩ := lexemesFrom?_spec hl
  have hv : State.IsSound 0 (.value [] false) := nofun
  have hs := hv.foldlM_step hl hs
  split at h
  · cases h
    exact hs.2.mono (by omega)
  · cases h

end PhpLiteral.Json
