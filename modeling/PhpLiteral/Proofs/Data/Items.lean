import Mathlib.Data.List.Forall2
import PhpLiteral.Proofs.Data.RoundTrip
import PhpLiteral.Proofs.Syntax.Items

/-!
# Data behind labels

Values behind their labels are read as one item each, on one line (`exists_layoutInline_items`) as well as on lines of
their own (`exists_layoutLines_items`), if each of them is read as an item wherever it stands (`ReadsItem`).
-/

namespace PhpLiteral

open Relation (ReflTransGen)
open Syntax (Data Lexeme Lexes Delimits Stops ParsesItem ParsesItems ParsesFurther)

variable {α : Type} {s : Settings} {read : Nat → List Lexeme → Option (α × List Lexeme)} {stop : List Lexeme}

/-- A tree behind its label is read as an item, wherever it stands. -/
def ReadsItem (s : Settings) (read : Nat → List Lexeme → Option (α × List Lexeme)) (stop : List Lexeme)
    (labelled : Text × Tree) (item : α) : Prop :=
  ∀ level column, ∃ ls, Lexes (labelled.1 ++ labelled.2.layout s level column) ls ∧ ParsesItem read stop ls item

theorem ne_nil_of_lexes {t : Text} {ls : List Lexeme} (h : Lexes t ls) (hn : ls ≠ []) : t ≠ [] := by
  rintro rfl
  have := h [] Syntax.stops_nil
  simp [Syntax.lex, Syntax.lexFrom] at this
  exact hn this

/-! ## On lines of their own -/

theorem exists_layoutLines_items {style : LineStyle} (hb : ∀ b ∈ style.before, Syntax.isSpace b = true)
    (ha : Delimits style.after [.comma]) (hs : Stops style.after) (hn : style.after ≠ []) (level : Nat) :
    ∀ {labels : List Text} {values : List Tree} {items : List α},
      List.Forall₂ (ReadsItem s read stop) (labels.zip values) items →
        ∃ ls, Delimits (layoutLines s level style labels values) ls ∧ ParsesItems read stop ls items
  | [], values, items, h => by
    rw [List.zip_nil_left, List.forall₂_nil_left_iff] at h
    rw [h, layoutLines_nil (.inl rfl)]
    exact ⟨[], Syntax.Delimits.nil, Syntax.parsesItems_nil⟩
  | _ :: _, [], items, h => by
    rw [List.zip_nil_right, List.forall₂_nil_left_iff] at h
    rw [h, layoutLines_nil (.inr rfl)]
    exact ⟨[], Syntax.Delimits.nil, Syntax.parsesItems_nil⟩
  | label :: labels, value :: values, items, h => by
    rw [List.zip_cons_cons, List.forall₂_cons_left_iff] at h
    obtain ⟨item, items, hi, h, rfl⟩ := h
    obtain ⟨ls, hl, hp⟩ := hi (level + 1) (labelRoom style.counted label)
    obtain ⟨ms, hm, hps⟩ := exists_layoutLines_items hb ha hs hn level h
    refine ⟨ls ++ .comma :: ms, ?_, hp.cons hps⟩
    have := (((Syntax.delimits_of_isSpace hb).append_lexes hl).append_delimits ha hs hn).append hm
    rw [layoutLines]
    simpa using this

/-! ## On one line -/

/-- Further values on the line of others. -/
theorem exists_layoutInline_further (column : Nat) (counted : Bool) : ∀ {labels : List Text} {values : List Tree}
    {items : List α}, List.Forall₂ (ReadsItem s read stop) (labels.zip values) items → ∀ {offset : Nat}, offset ≠ 0 →
      ∃ ls, Lexes (layoutInline s column counted offset labels values) ls ∧
        Stops (layoutInline s column counted offset labels values) ∧ ParsesFurther read stop ls items
  | [], values, items, h, offset, _ => by
    rw [List.zip_nil_left, List.forall₂_nil_left_iff] at h
    rw [h, layoutInline_nil (.inl rfl)]
    exact ⟨[], Syntax.Delimits.nil.lexes, Syntax.stops_nil, .inl ⟨rfl, rfl⟩⟩
  | _ :: _, [], items, h, offset, _ => by
    rw [List.zip_nil_right, List.forall₂_nil_left_iff] at h
    rw [h, layoutInline_nil (.inr rfl)]
    exact ⟨[], Syntax.Delimits.nil.lexes, Syntax.stops_nil, .inl ⟨rfl, rfl⟩⟩
  | label :: labels, value :: values, items, h, offset, ho => by
    rw [List.zip_cons_cons, List.forall₂_cons_left_iff] at h
    obtain ⟨item, items, hi, h, rfl⟩ := h
    obtain ⟨c, o, e, hoo⟩ := exists_layoutInline_cons s column counted offset label labels value values
    obtain ⟨ls, hl, hp⟩ := hi 0 c
    have ho' : o ≠ 0 := by omega
    obtain ⟨ms, hm, hms, hps⟩ := exists_layoutInline_further column counted h ho'
    have hs : separator offset = Ascii.comma :: [Ascii.space] := if_neg ho
    have hc : Delimits (Ascii.comma :: [Ascii.space]) [.comma] :=
      delimits_comma_space (List.forall_mem_singleton.mpr rfl)
    rw [e, hs]
    exact ⟨_, (hc.append_lexes hl).append hm hms, Syntax.stops_comma _, .inr ⟨_, rfl, hp.append hps⟩⟩

theorem exists_layoutInline_items (column : Nat) (counted : Bool) {labels : List Text} {values : List Tree}
    {items : List α} (h : List.Forall₂ (ReadsItem s read stop) (labels.zip values) items) :
    ∃ ls, Lexes (layoutInline s column counted 0 labels values) ls ∧ ParsesItems read stop ls items := by
  cases labels with
  | nil =>
    rw [List.zip_nil_left, List.forall₂_nil_left_iff] at h
    rw [h, layoutInline_nil (.inl rfl)]
    exact ⟨[], Syntax.Delimits.nil.lexes, Syntax.parsesItems_nil⟩
  | cons label labels =>
    cases values with
    | nil =>
      rw [List.zip_nil_right, List.forall₂_nil_left_iff] at h
      rw [h, layoutInline_nil (.inr rfl)]
      exact ⟨[], Syntax.Delimits.nil.lexes, Syntax.parsesItems_nil⟩
    | cons value values =>
      rw [List.zip_cons_cons, List.forall₂_cons_left_iff] at h
      obtain ⟨item, items, hi, h, rfl⟩ := h
      obtain ⟨c, o, e, ho⟩ := exists_layoutInline_cons s column counted 0 label labels value values
      obtain ⟨ls, hl, hp⟩ := hi 0 c
      have hpos : 0 < (label ++ value.layout s 0 c).length := List.length_pos_iff.mpr (ne_nil_of_lexes hl hp.ne_nil)
      rw [List.length_append] at hpos
      have ho' : o ≠ 0 := by omega
      obtain ⟨ms, hm, hms, hps⟩ := exists_layoutInline_further column counted h ho'
      rw [e]
      exact ⟨ls ++ ms, hl.append hm hms, hp.append hps⟩

/-! ## Values -/

variable {heap : Heap} {maxDepth : Nat}

/-- Values that can be expanded and hold nothing but data stand for data. -/
theorem exists_forall₂_denotes {chain : List Ref} {depth : Nat} : ∀ {vs : List Value} {ts : List Tree},
    (∀ v ∈ vs, ∀ w, ReflTransGen heap.Holds v w → heap.IsDatum w) → expandAll heap maxDepth depth chain vs = .ok ts →
      ∃ ds : List Data, List.Forall₂ (Denotes heap) vs ds ∧ (∀ d ∈ ds, d.IsNormal) ∧ ds.map Data.tree = ts
  | [], ts, _, h => by
    rw [expandAll] at h
    cases h
    exact ⟨[], .nil, by simp, rfl⟩
  | v :: vs, ts, hv, h => by
    obtain ⟨t, us, ht, hu, rfl⟩ := expandAll_cons_eq_ok.mp h
    rw [List.forall_mem_cons] at hv
    obtain ⟨d, hd, hn, rfl⟩ := exists_denotes chain depth v hv.1 ht
    obtain ⟨ds, hds, hns, rfl⟩ := exists_forall₂_denotes hv.2 hu
    exact ⟨d :: ds, .cons hd hds, List.forall_mem_cons.mpr ⟨hn, hns⟩, rfl⟩

/-- What belongs to the values of entries belongs to the entries, with their keys. -/
theorem forall₂_zip_keys {κ β γ : Type} {R : β → γ → Prop} : ∀ {entries : List (κ × β)} {cs : List γ},
    List.Forall₂ R (entries.map Prod.snd) cs →
      List.Forall₂ (fun e p => p.1 = e.1 ∧ R e.2 p.2) entries ((entries.map Prod.fst).zip cs)
  | [], cs, h => by
    rw [List.map_nil, List.forall₂_nil_left_iff] at h
    rw [h]
    exact .nil
  | e :: entries, cs, h => by
    rw [List.map_cons, List.forall₂_cons_left_iff] at h
    obtain ⟨c, cs, hc, h, rfl⟩ := h
    exact .cons ⟨rfl, hc⟩ (forall₂_zip_keys h)

/-- Labelled trees of data are read as items if each of them is. -/
theorem forall₂_readsItem {κ : Type} {label : κ → Text} {item : κ × Data → α} {keys : List κ} {ds : List Data}
    (h : ∀ p ∈ keys.zip ds, ReadsItem s read stop (label p.1, p.2.tree) (item p)) :
    List.Forall₂ (ReadsItem s read stop) ((keys.map label).zip (ds.map Data.tree)) ((keys.zip ds).map item) := by
  rw [List.zip_map, List.forall₂_map_left_iff, List.forall₂_map_right_iff, List.forall₂_same]
  exact h

end PhpLiteral
