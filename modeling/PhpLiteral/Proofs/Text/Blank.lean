import Mathlib.Data.List.TakeWhile
import PhpLiteral.Proofs.Text.Utf8
import PhpLiteral.Text.Blank

/-!
# White space around a text

`trim` takes away pieces of white space only, and takes away all that there are at either end (`isTrimmed_trim`). No
piece is the start or the end of another one, nor does it begin inside another one, so that no more can be taken away
than was put around a text (`trim_eq_of_surrounds`). What ends with a byte of ASCII that shows is kept
(`trimEnd_append_of_isGraphic`), and what white space follows in a valid text is valid itself (`isValid_before_flatten`).
-/

namespace PhpLiteral

/-! ## Leading sequences -/

section

variable {sequences : List Text} {t : Text}

theorem not_prefix_of_leadingWidth (hs : [] ∉ sequences) (h : leadingWidth sequences t = 0) :
    ∀ p ∈ sequences, ¬ p <+: t := by
  intro p hp ht
  unfold leadingWidth at h
  split at h
  · rename_i q hq
    exact hs (List.length_eq_zero_iff.mp h ▸ List.mem_of_find?_eq_some hq)
  · rename_i hn
    exact List.find?_eq_none.mp hn p hp (List.isPrefixOf_iff_prefix.mpr ht)

theorem exists_append_of_leadingWidth {n : Nat} (h : leadingWidth sequences t = n + 1) :
    ∃ p ∈ sequences, t = p ++ t.drop (n + 1) := by
  unfold leadingWidth at h
  split at h
  · rename_i p hp
    obtain ⟨rest, rfl⟩ : p <+: t := by simpa using List.find?_some hp
    exact ⟨p, List.mem_of_find?_eq_some hp, by rw [← h, List.drop_left]⟩
  · cases h

/-- What is dropped behind the skipped bytes consists of the given sequences. -/
theorem exists_pieces_dropLeading (sequences : List Text) (skip : Nat) (t : Text) :
    ∃ pieces : List Text, (∀ p ∈ pieces, p ∈ sequences) ∧
      t.drop skip = pieces.flatten ++ dropLeading sequences skip t := by
  fun_induction dropLeading sequences skip t with
  | case1 skip => exact ⟨[], nofun, List.drop_nil⟩
  | case2 skip b rest ih => exact ih
  | case3 b rest hw => exact ⟨[], nofun, rfl⟩
  | case4 b rest width hw ih =>
    obtain ⟨p, hp, ht⟩ := exists_append_of_leadingWidth hw
    obtain ⟨pieces, hm, hd⟩ := ih
    refine ⟨p :: pieces, List.forall_mem_cons.mpr ⟨hp, hm⟩, ?_⟩
    rw [List.flatten_cons, List.append_assoc, ← hd]
    exact ht

theorem not_prefix_dropLeading (hs : [] ∉ sequences) (skip : Nat) (t : Text) :
    ∀ p ∈ sequences, ¬ p <+: dropLeading sequences skip t := by
  fun_induction dropLeading sequences skip t with
  | case1 skip =>
    intro p hp h
    exact hs (List.prefix_nil.mp h ▸ hp)
  | case2 skip b rest ih => exact ih
  | case3 b rest hw => exact not_prefix_of_leadingWidth hs hw
  | case4 b rest width hw ih => exact ih

/-- No sequence is the start of another one. -/
def IsPrefixFree (sequences : List Text) : Prop := ∀ p ∈ sequences, ∀ q ∈ sequences, p <+: q → p = q

instance (sequences : List Text) : Decidable (IsPrefixFree sequences) :=
  inferInstanceAs (Decidable (∀ p ∈ sequences, ∀ q ∈ sequences, _ → _))

theorem leadingWidth_append (hf : IsPrefixFree sequences) {p : Text} (hp : p ∈ sequences) (t : Text) :
    leadingWidth sequences (p ++ t) = p.length := by
  unfold leadingWidth
  split
  · rename_i q hq
    have hpre : q <+: p ++ t := by simpa using List.find?_some hq
    have hqm := List.mem_of_find?_eq_some hq
    -- Both start the text, so that the shorter one starts the longer one.
    rcases List.prefix_or_prefix_of_prefix hpre (List.prefix_append p t) with h | h
    · rw [hf q hqm p hp h]
    · rw [hf p hp q hqm h]
  · rename_i hn
    exact absurd (List.isPrefixOf_iff_prefix.mpr (List.prefix_append p t)) (List.find?_eq_none.mp hn p hp)

theorem dropLeading_drop (skip : Nat) (t : Text) : dropLeading sequences skip t = dropLeading sequences 0 (t.drop skip) := by
  induction t generalizing skip with
  | nil => cases skip <;> rfl
  | cons b t ih =>
    cases skip with
    | zero => rfl
    | succ skip => exact ih skip

/-- Sequences at the start of a text are dropped, and what follows them is dropped as if it stood alone. -/
theorem dropLeading_flatten_append (hs : [] ∉ sequences) (hf : IsPrefixFree sequences) {pieces : List Text}
    (hp : ∀ p ∈ pieces, p ∈ sequences) (t : Text) :
    dropLeading sequences 0 (pieces.flatten ++ t) = dropLeading sequences 0 t := by
  induction pieces with
  | nil => rfl
  | cons p pieces ih =>
    rw [List.forall_mem_cons] at hp
    obtain ⟨b, w, rfl⟩ : ∃ b w, p = b :: w := List.exists_cons_of_ne_nil fun e => hs (e ▸ hp.1)
    have hw := leadingWidth_append hf hp.1 (pieces.flatten ++ t)
    rw [List.cons_append, List.length_cons] at hw
    rw [List.flatten_cons, List.append_assoc, List.cons_append, dropLeading, hw]
    show dropLeading sequences w.length (w ++ (pieces.flatten ++ t)) = _
    rw [dropLeading_drop, List.drop_left, ih hp.2]

theorem dropLeading_eq_self (h : ∀ p ∈ sequences, ¬ p <+: t) : dropLeading sequences 0 t = t := by
  cases t with
  | nil => rfl
  | cons b t =>
    have hw : leadingWidth sequences (b :: t) = 0 := by
      unfold leadingWidth
      split
      · rename_i p hp
        exact absurd (by simpa using List.find?_some hp) (h p (List.mem_of_find?_eq_some hp))
      · rfl
    rw [dropLeading, hw]

end

/-! ## Trimming -/

/-- A text without the white space around it. -/
structure IsTrimmed (t body : Text) : Prop where
  surrounded : ∃ before after : List Text, (∀ p ∈ before ++ after, p ∈ blanks) ∧
    t = before.flatten ++ body ++ after.flatten
  not_prefix : ∀ p ∈ blanks, ¬ p <+: body
  not_suffix : ∀ p ∈ blanks, ¬ p <:+ body

theorem exists_trimStart (t : Text) :
    (∃ before : List Text, (∀ p ∈ before, p ∈ blanks) ∧ t = before.flatten ++ trimStart t) ∧
      ∀ p ∈ blanks, ¬ p <+: trimStart t :=
  ⟨exists_pieces_dropLeading blanks 0 t, not_prefix_dropLeading (by decide) 0 t⟩

theorem exists_trimEnd (t : Text) :
    (∃ after : List Text, (∀ p ∈ after, p ∈ blanks) ∧ t = trimEnd t ++ after.flatten) ∧
      ∀ p ∈ blanks, ¬ p <:+ trimEnd t := by
  constructor
  · obtain ⟨pieces, hp, h⟩ := exists_pieces_dropLeading (blanks.map List.reverse) 0 t.reverse
    refine ⟨(pieces.map List.reverse).reverse, fun p hm => ?_, ?_⟩
    · obtain ⟨q, hq, rfl⟩ := List.mem_map.mp (List.mem_reverse.mp hm)
      obtain ⟨r, hr, rfl⟩ := List.mem_map.mp (hp q hq)
      rwa [List.reverse_reverse]
    · rw [← List.reverse_flatten, trimEnd, ← List.reverse_append, ← h, List.drop_zero, List.reverse_reverse]
  · intro p hp h
    refine not_prefix_dropLeading (by decide) 0 t.reverse p.reverse (List.mem_map_of_mem hp) ?_
    rwa [← List.reverse_suffix, List.reverse_reverse]

theorem isTrimmed_trim (t : Text) : IsTrimmed t (trim t) := by
  obtain ⟨⟨before, hb, ht⟩, hp⟩ := exists_trimStart t
  obtain ⟨⟨after, ha, hu⟩, hs⟩ := exists_trimEnd (trimStart t)
  refine ⟨⟨before, after, fun p hm => ?_, ?_⟩, fun p hm h => hp p hm ?_, hs⟩
  · exact (List.mem_append.mp hm).elim (hb p) (ha p)
  · rw [List.append_assoc, trim, ← hu]
    exact ht
  · -- White space at the front of what trimming the end leaves was there before.
    rw [hu]
    exact h.trans (List.prefix_append _ _)

/-! ## White space that was put around a text -/

/-- A text is a body with white space around it. -/
def Surrounds (t body : Text) : Prop :=
  ∃ before after : List Text, (∀ p ∈ before ++ after, p ∈ blanks) ∧ t = before.flatten ++ body ++ after.flatten

/-- A text neither starts nor ends with white space. -/
def IsTight (t : Text) : Prop := ∀ p ∈ blanks, ¬ p <+: t ∧ ¬ p <:+ t

theorem isTight_trim (t : Text) : IsTight (trim t) :=
  fun p hp => ⟨IsTrimmed.not_prefix (isTrimmed_trim t) p hp, (isTrimmed_trim t).not_suffix p hp⟩

theorem trimStart_flatten_append {pieces : List Text} (hp : ∀ p ∈ pieces, p ∈ blanks) (t : Text) :
    trimStart (pieces.flatten ++ t) = trimStart t :=
  dropLeading_flatten_append (by decide) (by decide +kernel) hp t

theorem trimStart_eq_self {t : Text} (h : ∀ p ∈ blanks, ¬ p <+: t) : trimStart t = t := dropLeading_eq_self h

theorem trimEnd_append_flatten {pieces : List Text} (hp : ∀ p ∈ pieces, p ∈ blanks) (t : Text) :
    trimEnd (t ++ pieces.flatten) = trimEnd t := by
  have hr : ∀ p ∈ (pieces.map List.reverse).reverse, p ∈ blanks.map List.reverse := by
    intro p hm
    obtain ⟨q, hq, rfl⟩ := List.mem_map.mp (List.mem_reverse.mp hm)
    exact List.mem_map_of_mem (hp q hq)
  rw [trimEnd, trimEnd, List.reverse_append, List.reverse_flatten,
    dropLeading_flatten_append (by decide) (by decide +kernel) hr]

theorem trimEnd_eq_self {t : Text} (h : ∀ p ∈ blanks, ¬ p <:+ t) : trimEnd t = t := by
  have hr : ∀ p ∈ blanks.map List.reverse, ¬ p <+: t.reverse := by
    intro p hm hp
    obtain ⟨q, hq, rfl⟩ := List.mem_map.mp hm
    exact h q hq (List.reverse_prefix.mp hp)
  rw [trimEnd, dropLeading_eq_self hr, List.reverse_reverse]

/-- No piece of white space begins inside another one. -/
theorem head_not_mem_tail : ∀ p ∈ blanks, ∀ q ∈ blanks, ∀ b ∈ q.head?, b ∉ p.tail := by decide +kernel

/-- White space behind a body makes no white space at its start. -/
theorem not_prefix_append {body : Text} (hb : body ≠ []) (h : ∀ p ∈ blanks, ¬ p <+: body) {pieces : List Text}
    (hp : ∀ p ∈ pieces, p ∈ blanks) : ∀ p ∈ blanks, ¬ p <+: body ++ pieces.flatten := by
  intro p hm hpre
  obtain ⟨b, w, rfl⟩ := List.exists_cons_of_ne_nil hb
  rcases List.prefix_or_prefix_of_prefix hpre (List.prefix_append (b :: w) _) with hs | ⟨rest, rfl⟩
  · exact h p hm hs
  -- The piece goes on behind the body with the start of another piece.
  obtain ⟨u, hu⟩ := hpre
  rw [List.append_assoc, List.append_cancel_left_eq] at hu
  cases rest with
  | nil => exact h _ hm (by simp)
  | cons c rest =>
    cases pieces with
    | nil => cases hu
    | cons q pieces =>
      rw [List.forall_mem_cons] at hp
      obtain ⟨d, v, rfl⟩ : ∃ d v, q = d :: v := List.exists_cons_of_ne_nil fun e => by simp [e, blanks] at hp
      rw [List.flatten_cons, List.cons_append, List.cons_append, List.cons.injEq] at hu
      refine head_not_mem_tail _ hm _ hp.1 c ?_ ?_
      · rw [hu.1]
        rfl
      · simp

/-- What neither starts nor ends with white space is left of all white space around it. -/
theorem trim_eq_of_surrounds {t body : Text} (hs : Surrounds t body) (h : IsTight body) : trim t = body := by
  obtain ⟨before, after, hp, rfl⟩ := hs
  rw [List.forall_mem_append] at hp
  rw [trim, List.append_assoc, trimStart_flatten_append hp.1]
  by_cases hb : body = []
  · have := trimStart_flatten_append hp.2 []
    rw [List.append_nil] at this
    rw [hb, List.nil_append, this]
    rfl
  · rw [trimStart_eq_self (not_prefix_append hb (fun p hm => (h p hm).1) hp.2), trimEnd_append_flatten hp.2,
      trimEnd_eq_self fun p hm => (h p hm).2]

/-! ## Bytes that show -/

/-- A byte of ASCII that shows. -/
def isGraphic (b : UInt8) : Bool := 0x20 < b && b < 0x7f

theorem not_isGraphic_of_mem_blanks : ∀ p ∈ blanks, p ≠ [] ∧ ∀ b ∈ p, isGraphic b = false := by decide +kernel

theorem isTight_of_isGraphic {t : Text} (h : ∀ b ∈ t, isGraphic b = true) : IsTight t := by
  intro p hp
  obtain ⟨hn, hg⟩ := not_isGraphic_of_mem_blanks p hp
  obtain ⟨b, w, rfl⟩ := List.exists_cons_of_ne_nil hn
  have hb : b ∉ t := fun hm => Bool.noConfusion ((h b hm).symm.trans (hg b List.mem_cons_self))
  exact ⟨fun hpre => hb (hpre.subset List.mem_cons_self), fun hsuf => hb (hsuf.subset List.mem_cons_self)⟩

theorem not_prefix_of_isGraphic {b : UInt8} (hb : isGraphic b = true) (t : Text) : ∀ p ∈ blanks, ¬ p <+: b :: t := by
  intro p hp hpre
  obtain ⟨hn, hg⟩ := not_isGraphic_of_mem_blanks p hp
  obtain ⟨c, w, rfl⟩ := List.exists_cons_of_ne_nil hn
  have hc := (List.cons_prefix_cons.mp hpre).1
  exact Bool.noConfusion (hb.symm.trans (hc ▸ hg c List.mem_cons_self))

theorem trimStart_of_isGraphic {b : UInt8} (hb : isGraphic b = true) (t : Text) : trimStart (b :: t) = b :: t :=
  trimStart_eq_self (not_prefix_of_isGraphic hb t)

/-- What ends with a byte that shows is kept before whatever follows. -/
theorem trimEnd_append_of_isGraphic {b : UInt8} (hb : isGraphic b = true) (t u : Text) :
    trimEnd (t ++ [b] ++ u) = t ++ [b] ++ trimEnd u := by
  obtain ⟨⟨pieces, hp, hu⟩, hs⟩ := exists_trimEnd u
  have e : t ++ [b] ++ u = t ++ [b] ++ trimEnd u ++ pieces.flatten := by
    rw [List.append_assoc _ (trimEnd u), ← hu]
  rw [e, trimEnd_append_flatten hp]
  refine trimEnd_eq_self fun p hm hsuf => ?_
  rcases List.suffix_or_suffix_of_suffix hsuf (List.suffix_append _ _) with h | ⟨q, rfl⟩
  · exact hs p hm h
  obtain ⟨r, hr⟩ := hsuf
  rw [← List.append_assoc, List.append_cancel_right_eq] at hr
  rcases List.eq_nil_or_concat q with rfl | ⟨q, c, rfl⟩
  · exact hs _ hm List.suffix_rfl
  · rw [List.concat_eq_append, ← List.append_assoc] at hr
    cases List.append_inj_right' hr rfl
    exact Bool.noConfusion (hb.symm.trans ((not_isGraphic_of_mem_blanks _ hm).2 b (by simp)))

/-! ## Validity -/

theorem isValid_of_mem_blanks : ∀ p ∈ blanks, Utf8.isValid p = true := by decide +kernel

theorem isStart_of_mem_blanks : ∀ p ∈ blanks, ∀ b ∈ p.head?, b < 0x80 ∨ 0xbf < b := by decide +kernel

section

variable {pieces : List Text} (hp : ∀ p ∈ pieces, p ∈ blanks)

include hp

theorem isValid_flatten : Utf8.isValid pieces.flatten = true := by
  induction pieces with
  | nil => rfl
  | cons p pieces ih =>
    rw [List.forall_mem_cons] at hp
    rw [List.flatten_cons, Utf8.isValid_append (isValid_of_mem_blanks p hp.1)]
    exact ih hp.2

/-- What white space follows is valid alone. -/
theorem isValid_before_flatten {t : Text} (h : Utf8.isValid (t ++ pieces.flatten) = true) : Utf8.isValid t = true := by
  cases pieces with
  | nil => simpa using h
  | cons p pieces =>
    have hm := hp p List.mem_cons_self
    obtain ⟨b, w, rfl⟩ := List.exists_cons_of_ne_nil (not_isGraphic_of_mem_blanks p hm).1
    exact (Utf8.isValid_append_start (isStart_of_mem_blanks _ hm b rfl) h).1

end

end PhpLiteral
