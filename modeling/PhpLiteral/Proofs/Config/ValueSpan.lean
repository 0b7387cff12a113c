import PhpLiteral.Proofs.Config.Rejected
import PhpLiteral.Proofs.Text.Lines

/-!
# Spans of rejected values

The span of an error lies on character boundaries, without white space around it, and only the key and an equals sign
stand before it on its line (`Config.Covers`). If this line does not start inside a string, the span begins where the
rejected value begins, and ends with its line, white space aside. So it covers the value alone exactly if the value ends
on this line and nothing but white space follows it there (`Config.span_of_parse`); a comment belongs to the span
(`Config.span_commented`).
-/

namespace PhpLiteral.Config

/-! ## Lines -/

theorem flatten_lines (t : Text) : (lines t).flatten = t := by
  fun_induction lines t with
  | case1 => rfl
  | case2 rest ih => rw [List.flatten_cons, ih, List.singleton_append]
  | case3 b rest hb he ih =>
    rw [he] at ih
    rw [← ih]
    rfl
  | case4 b rest hb line more he ih =>
    rw [he] at ih
    rw [← ih]
    rfl

/-- Each line but the last one ends with a line feed, and has no other one. -/
theorem exists_of_lines_eq {t line : Text} {before behind : List Text} (h : lines t = before ++ line :: behind) :
    ∃ y, Ascii.lineFeed ∉ y ∧ (line = y ++ [Ascii.lineFeed] ∨ line = y ∧ behind = []) := by
  fun_induction lines t generalizing before line with
  | case1 => simp at h
  | case2 rest ih =>
    rcases List.cons_eq_append_iff.mp h with ⟨rfl, hl⟩ | ⟨before, rfl, hl⟩
    · cases hl
      exact ⟨[], List.not_mem_nil, .inl rfl⟩
    · exact ih hl
  | case3 b rest hb he ih =>
    rcases List.cons_eq_append_iff.mp h with ⟨rfl, hl⟩ | ⟨before, rfl, hl⟩
    · cases hl
      exact ⟨[b], by simpa using Ne.symm hb, .inr ⟨rfl, rfl⟩⟩
    · simp at hl
  | case4 b rest hb first more he ih =>
    rcases List.cons_eq_append_iff.mp h with ⟨rfl, hl⟩ | ⟨before, rfl, hl⟩
    · cases hl
      have he : lines rest = [] ++ first :: _ := he
      obtain ⟨y, hy, hl⟩ := ih he
      refine ⟨b :: y, by simpa using ⟨Ne.symm hb, hy⟩, ?_⟩
      rcases hl with rfl | ⟨rfl, rfl⟩
      · exact .inl rfl
      · exact .inr ⟨rfl, rfl⟩
    · rw [hl, ← List.cons_append] at he
      exact ih he

/-- The span is that of the first line that assigns the key. -/
theorem exists_of_spanIn? {key : Text} {offset : Nat} {ls : List Text} {span : Span}
    (h : spanIn? key offset ls = some span) :
    ∃ before line behind value, ls = before ++ line :: behind ∧ assigned? key line = some value ∧
      span = ⟨offset + before.flatten.length + line.length - value.length, (trimEnd value).length⟩ := by
  induction ls generalizing offset with
  | nil => cases h
  | cons line ls ih =>
    rw [spanIn?] at h
    split at h
    · rename_i value hv
      cases h
      exact ⟨[], line, ls, value, rfl, hv, rfl⟩
    · obtain ⟨before, line', behind, value, rfl, hv, rfl⟩ := ih h
      refine ⟨line :: before, line', behind, value, rfl, hv, ?_⟩
      rw [List.flatten_cons, List.length_append, Nat.add_assoc offset]

/-- A key with white space around it. -/
def IsSpaced (key u : Text) : Prop :=
  ∃ before mid : List Text, (∀ p ∈ before ++ mid, p ∈ blanks) ∧ u = before.flatten ++ (key ++ mid.flatten)

theorem exists_of_assigned? {key line value : Text} (h : assigned? key line = some value) :
    ∃ u r, IsSpaced key u ∧ line = u ++ Ascii.equals :: r ∧ value = trimStart r := by
  obtain ⟨v, hv, h⟩ := Option.bind_eq_some_iff.mp h
  obtain ⟨r, hr, h⟩ := Option.bind_eq_some_iff.mp h
  cases h
  rw [List.isPrefixOf?_eq_some_iff_append_eq] at hv hr
  obtain ⟨⟨before, hb, hline⟩, -⟩ := exists_trimStart line
  obtain ⟨⟨mid, hm, hmid⟩, -⟩ := exists_trimStart v
  refine ⟨_, r, ⟨before, mid, List.forall_mem_append.mpr ⟨hb, hm⟩, rfl⟩, ?_, rfl⟩
  rw [hline, ← hv, hmid, ← hr]
  simp

theorem of_mem_blanks : ∀ p ∈ blanks, ∀ b ∈ p, b ≠ 0xef ∧ Toml.isBareKeyByte b = false ∧
    (b = Ascii.lineFeed ∨ Toml.isBlank b = true ∨ Toml.isWordByte b = true ∨ b = Ascii.carriageReturn) := by
  decide +kernel

namespace IsSpaced

variable {key u : Text}

theorem of_mem (h : IsSpaced key u) {b : UInt8} (hb : b ∈ u) : b ∈ key ∨ ∃ p ∈ blanks, b ∈ p := by
  obtain ⟨before, mid, hp, rfl⟩ := h
  rw [List.forall_mem_append] at hp
  rcases List.mem_append.mp hb with hb | hb
  · obtain ⟨p, hm, hb⟩ := List.mem_flatten.mp hb
    exact .inr ⟨p, hp.1 p hm, hb⟩
  rcases List.mem_append.mp hb with hb | hb
  · exact .inl hb
  · obtain ⟨p, hm, hb⟩ := List.mem_flatten.mp hb
    exact .inr ⟨p, hp.2 p hm, hb⟩

theorem ne_nil (h : IsSpaced key u) (hk : Toml.IsBareKey key) : u ≠ [] := by
  obtain ⟨before, mid, -, rfl⟩ := h
  simp [hk.1]

theorem filter_eq (h : IsSpaced key u) (hk : Toml.IsBareKey key) : u.filter Toml.isBareKeyByte = key := by
  obtain ⟨before, mid, hp, rfl⟩ := h
  refine Toml.filter_isBareKeyByte (fun b hb => ?_) hk.2
  rw [← List.flatten_append] at hb
  obtain ⟨p, hm, hb⟩ := List.mem_flatten.mp hb
  exact (of_mem_blanks p (hp p hm) b hb).2.1

end IsSpaced

/-- The line at whose assignment a span is found: it has `u` before its equals sign and `r` behind it. -/
structure IsFound (t key : Text) (span : Span) (head u r post : Text) : Prop where
  split : t = head ++ (u ++ Ascii.equals :: (r ++ post))
  key : IsSpaced key u
  line : head = [] ∨ ∃ earlier, head = earlier ++ [Ascii.lineFeed]
  ends : ∃ y, Ascii.lineFeed ∉ u ++ Ascii.equals :: y ∧ (r = y ++ [Ascii.lineFeed] ∨ r = y ∧ post = [])
  span : span = ⟨(head ++ (u ++ Ascii.equals :: r)).length - (trimStart r).length, (trim r).length⟩

theorem exists_of_span? {t key : Text} {span : Span} (h : span? t key = some span) :
    ∃ head u r post, IsFound t key span head u r post := by
  obtain ⟨earlier, line, later, value, hls, hv, hspan⟩ := exists_of_spanIn? h
  obtain ⟨u, r, hu, hline, rfl⟩ := exists_of_assigned? hv
  refine ⟨earlier.flatten, u, r, later.flatten, ?_, hu, ?_, ?_, ?_⟩
  · rw [← flatten_lines t, hls, List.flatten_append, List.flatten_cons, hline]
    simp
  · rcases List.eq_nil_or_concat' earlier with rfl | ⟨ls, l, rfl⟩
    · exact .inl rfl
    · rw [List.append_assoc, List.singleton_append] at hls
      obtain ⟨y, -, hl | ⟨-, hl⟩⟩ := exists_of_lines_eq hls
      · exact .inr ⟨ls.flatten ++ y, by simp [hl]⟩
      · cases hl
  · obtain ⟨y, hy, hl⟩ := exists_of_lines_eq hls
    rw [hline] at hl
    rcases hl with hl | ⟨rfl, rfl⟩
    · -- The line feed at the end of the line stands behind the equals sign.
      rcases List.eq_nil_or_concat' r with rfl | ⟨y', c, rfl⟩
      · cases List.append_inj_right' hl rfl
      · rw [← List.cons_append, ← List.append_assoc] at hl
        obtain ⟨rfl, hc⟩ := List.append_inj' hl rfl
        exact ⟨y', hy, .inl (congrArg (y' ++ ·) hc)⟩
    · exact ⟨r, hy, .inr ⟨rfl, rfl⟩⟩
  · rw [hspan, hline, Nat.zero_add, ← List.length_append, trim]

namespace IsFound

variable {t key : Text} {span : Span} {head u r post : Text}

theorem startsLine (h : IsFound t key span head u r post) (hk : Toml.IsBareKey key) :
    Toml.StartsLine t head u (r ++ post) where
  split := h.split
  line := by
    -- Neither white space nor a key begins with a byte order mark.
    refine h.line.imp_left fun hh => ⟨hh, Toml.unmarked_eq_self fun b hb => ?_⟩
    have hu : b ∈ u := by
      rw [h.split, hh, List.nil_append, List.head?_append_of_ne_nil _ (h.key.ne_nil hk)] at hb
      exact List.mem_of_head? hb
    rcases h.key.of_mem hu with hb | ⟨p, hp, hb⟩
    · rintro rfl
      exact absurd (List.all_eq_true.mp hk.2 _ hb) (by decide)
    · exact (of_mem_blanks p hp b hb).1
  plain := by
    intro b hb
    rcases h.key.of_mem hb with hb | ⟨p, hp, hb⟩
    · exact .inr (.inl (Toml.isWordByte_of_isBareKeyByte (List.all_eq_true.mp hk.2 b hb)))
    · refine (of_mem_blanks p hp b hb).2.2.resolve_left ?_
      rintro rfl
      obtain ⟨y, hy, -⟩ := h.ends
      exact hy (List.mem_append_left _ (by assumption))

theorem isValid (h : IsFound t key span head u r post) (ht : Utf8.isValid t = true) :
    Utf8.isValid (head ++ u) = true ∧ Utf8.isValid r = true ∧ Utf8.isValid post = true := by
  rw [h.split, ← List.append_assoc] at ht
  obtain ⟨hu, hr⟩ := Utf8.isValid_append_ascii (w := [Ascii.equals]) (u := r ++ post) (by decide) (by decide) ht
  obtain ⟨y, -, rfl | ⟨rfl, rfl⟩⟩ := h.ends
  · rw [List.append_assoc] at hr
    obtain ⟨hy, hp⟩ := Utf8.isValid_append_ascii (by decide) (by decide) hr
    exact ⟨hu, by rw [Utf8.isValid_append hy]; decide, hp⟩
  · rw [List.append_nil] at hr
    exact ⟨hu, hr, rfl⟩

theorem ends_rest (h : IsFound t key span head u r post) :
    ∃ y, Ascii.lineFeed ∉ y ∧ (r = y ++ [Ascii.lineFeed] ∨ r = y ∧ post = []) := by
  obtain ⟨y, hy, he⟩ := h.ends
  exact ⟨y, fun hm => hy (List.mem_append_right _ (List.mem_cons_of_mem _ hm)), he⟩

end IsFound

/-- A span covers `covered`, on character boundaries and without white space around it. On its line, which starts behind
`head`, only the key and an equals sign stand before it. -/
structure Covers (t key : Text) (span : Span) (head lead covered behind : Text) : Prop where
  split : t = head ++ (lead ++ (covered ++ behind))
  start : span.start = (head ++ lead).length
  length : span.length = covered.length
  line : head = [] ∨ ∃ earlier, head = earlier ++ [Ascii.lineFeed]
  key : ∃ u, IsSpaced key u ∧ ∃ gap : List Text, (∀ p ∈ gap, p ∈ blanks) ∧ lead = u ++ Ascii.equals :: gap.flatten
  valid : Utf8.isValid (head ++ lead) = true ∧ Utf8.isValid covered = true ∧ Utf8.isValid behind = true
  tight : IsTight covered

theorem Covers.take_drop_eq {t key : Text} {span : Span} {head lead covered behind : Text}
    (h : Covers t key span head lead covered behind) : (t.drop span.start).take span.length = covered := by
  rw [h.split, ← List.append_assoc, h.start, List.drop_left, h.length, List.take_left]

theorem IsFound.covers {t key : Text} {span : Span} {head u r post : Text} (h : IsFound t key span head u r post)
    (ht : Utf8.isValid t = true) :
    ∃ lead behind, Covers t key span head lead (trim r) behind ∧
      lead ++ (trim r ++ behind) = u ++ Ascii.equals :: (r ++ post) ∧ trim r ++ behind = trimStart r ++ post := by
  obtain ⟨⟨gap, hg, hr⟩, -⟩ := exists_trimStart r
  obtain ⟨⟨after, ha, hc⟩, -⟩ := exists_trimEnd (trimStart r)
  obtain ⟨hu, hv, hp⟩ := h.isValid ht
  have hc : trimStart r = trim r ++ after.flatten := hc
  have hb : trim r ++ (after.flatten ++ post) = trimStart r ++ post := by rw [hc, List.append_assoc]
  have hl : u ++ Ascii.equals :: gap.flatten ++ (trim r ++ (after.flatten ++ post)) =
      u ++ Ascii.equals :: (r ++ post) := by
    rw [hb, List.append_assoc, List.cons_append, ← List.append_assoc gap.flatten, ← hr]
  refine ⟨u ++ Ascii.equals :: gap.flatten, after.flatten ++ post, ?_, hl, hb⟩
  refine ⟨?_, ?_, ?_, h.line, ⟨u, h.key, gap, hg, rfl⟩, ⟨?_, ?_, ?_⟩, isTight_trim r⟩
  · rw [hl]
    exact h.split
  · have hn := congrArg List.length hr
    rw [h.span]
    simp only [List.length_append, List.length_cons] at hn ⊢
    omega
  · rw [h.span]
  · rw [← List.append_assoc, Utf8.isValid_append hu, ← List.singleton_append, Utf8.isValid_append (by decide)]
    exact isValid_flatten hg
  · rw [hr, hc, Utf8.isValid_append (isValid_flatten hg)] at hv
    exact isValid_before_flatten ha hv
  · rwa [Utf8.isValid_append (isValid_flatten ha)]

/-! ## Values on their lines -/

section

variable {r post gap value after : Text}

theorem trimStart_append_of_isBlank (h : ∀ b ∈ gap, Toml.isBlank b = true) (t : Text) :
    trimStart (gap ++ t) = trimStart t := by
  have hb : ∀ b, Toml.isBlank b = true → [b] ∈ blanks := by
    intro b hb
    simp only [Toml.isBlank, Bool.or_eq_true, decide_eq_true_eq] at hb
    rcases hb with rfl | rfl <;> decide
  induction gap with
  | nil => rfl
  | cons b gap ih =>
    rw [List.forall_mem_cons] at h
    have hp : ∀ p ∈ [[b]], p ∈ blanks := List.forall_mem_singleton.mpr (hb b h.1)
    exact (trimStart_flatten_append hp (gap ++ t)).trans (ih h.2)

/-- What is left of the line that a value begins on. -/
theorem trim_line (he : ∃ y, Ascii.lineFeed ∉ y ∧ (r = y ++ [Ascii.lineFeed] ∨ r = y ∧ post = []))
    (hr : r ++ post = gap ++ (value ++ after)) (hg : ∀ b ∈ gap, Toml.isBlank b = true) (hn : value ≠ [])
    (hb : ∀ b ∈ value.head?, isGraphic b = true) :
    trimStart r ++ post = value ++ after ∧ trim r = trimEnd (lineBehind (value ++ after)) := by
  obtain ⟨y, hy, he⟩ := he
  rw [← hasLineFeed_eq_false] at hy
  have hgl : hasLineFeed gap = false := hasLineFeed_eq_false.mpr fun hm => absurd (hg _ hm) (by decide)
  have hyl : y = gap ++ lineBehind (value ++ after) := by
    rw [← lineBehind_append_of_not_hasLineFeed hgl, ← hr]
    rcases he with rfl | ⟨rfl, rfl⟩
    · rw [List.append_assoc]
      exact (lineBehind_append hy post).symm
    · rw [List.append_nil, lineBehind_eq_self hy]
  obtain ⟨b, v, rfl⟩ := List.exists_cons_of_ne_nil hn
  have hbg : isGraphic b = true := hb b rfl
  have hbl : (b != Ascii.lineFeed) = true := by
    rw [bne_iff_ne]
    rintro rfl
    cases hbg
  have hl : lineBehind (b :: v ++ after) = b :: lineBehind (v ++ after) := List.takeWhile_cons_of_pos hbl
  -- Up to a line feed at its end, the rest of the line is blanks and what is left of it.
  obtain ⟨pieces, hp, he⟩ : ∃ pieces : List Text, (∀ p ∈ pieces, p ∈ blanks) ∧
      r = gap ++ (lineBehind (b :: v ++ after) ++ pieces.flatten) := by
    rcases he with rfl | ⟨rfl, rfl⟩
    · exact ⟨[[Ascii.lineFeed]], by decide, by rw [hyl]; simp⟩
    · exact ⟨[], nofun, by simpa using hyl⟩
  have hs : trimStart r = lineBehind (b :: v ++ after) ++ pieces.flatten := by
    rw [he, trimStart_append_of_isBlank hg, hl, List.cons_append, trimStart_of_isGraphic hbg]
  constructor
  · rw [hs]
    rw [he, List.append_assoc] at hr
    exact List.append_cancel_left hr
  · rw [trim, hs, trimEnd_append_flatten hp]

/-- A value is all that is left of its line if it has no line feed and nothing but white space follows it there. -/
theorem trimEnd_lineBehind_eq_iff (hn : value ≠ []) (hb : ∀ b ∈ value.getLast?, isGraphic b = true) :
    trimEnd (lineBehind (value ++ after)) = value ↔ hasLineFeed value = false ∧ trimEnd (lineBehind after) = [] := by
  rcases List.eq_nil_or_concat' value with rfl | ⟨v, b, rfl⟩
  · exact absurd rfl hn
  cases hl : hasLineFeed (v ++ [b]) with
  | false =>
    rw [lineBehind_append_of_not_hasLineFeed hl, trimEnd_append_of_isGraphic (hb b List.getLast?_concat)]
    simp
  | true =>
    refine ⟨fun h => ?_, fun h => Bool.noConfusion h.1⟩
    rw [← h, ← Bool.not_eq_false, hasLineFeed_eq_false] at hl
    obtain ⟨⟨pieces, -, he⟩, -⟩ := exists_trimEnd (lineBehind (v ++ [b] ++ after))
    refine (hl fun hm => ?_).elim
    have hm : Ascii.lineFeed ∈ lineBehind (v ++ [b] ++ after) := he ▸ List.mem_append_left _ hm
    simpa using List.mem_takeWhile_imp hm

end

/-! ## Rejected values -/

theorem exists_of_parse_invalid {source source' t : Text} {problem : ConfigProblem} {span : Option Span}
    (h : parse source t = .error (.invalid source' problem span)) :
    ∃ members c, Toml.parse? t = some members ∧ ofMembers members = .ok c ∧ c.problem? = some problem ∧
      span? t problem.key = span := by
  unfold parse parseWith at h
  split at h
  · cases h
  rename_i members hm
  split at h
  · cases h
  · cases h
  rename_i c hc
  split at h
  · rename_i hp
    cases h
    exact ⟨members, c, hm, hc, hp, rfl⟩
  · cases h

/-- The span of a rejected value. -/
theorem span_of_parse {source source' t : Text} {problem : ConfigProblem} {span : Span} (ht : Utf8.isValid t = true)
    (h : parse source t = .error (.invalid source' problem (some span))) :
    ∃ head lead covered behind, Covers t problem.key span head lead covered behind ∧
      (Toml.IsInString (Toml.unmarked t) (lead ++ (covered ++ behind)) ∨
        (∃ items, Toml.parse? t = some [(utf8 "dumper", .list items)]) ∨
        ∃ value after, covered ++ behind = value ++ after ∧ IsRejectedAt t problem value after ∧
          covered = trimEnd (lineBehind (value ++ after)) ∧
          (covered = value ↔ hasLineFeed value = false ∧ trimEnd (lineBehind after) = [])) := by
  obtain ⟨members, c, hp, hc, hproblem, hspan⟩ := exists_of_parse_invalid h
  have hk := isBareKey_key problem
  obtain ⟨head, u, r, post, hf⟩ := exists_of_span? hspan
  obtain ⟨lead, behind, hcovers, hl, hb⟩ := hf.covers ht
  refine ⟨head, lead, trim r, behind, hcovers, ?_⟩
  rcases exists_isRejectedAt (hf.startsLine hk) (hf.key.filter_eq hk) hp hc hproblem with
    hi | hlist | ⟨gap, value, after, hr, hg, hv⟩
  · exact .inl (hl ▸ hi)
  · exact .inr (.inl hlist)
  obtain ⟨l, hpiece, hitem⟩ := hv.place.isPiece
  obtain ⟨hfirst, hlast⟩ := hpiece.isGraphic_ends hitem (isAtom_item problem)
  obtain ⟨hstart, hcovered⟩ := trim_line hf.ends_rest hr hg hpiece.ne_nil hfirst
  refine .inr (.inr ⟨value, after, hb.trans hstart, hv, hcovered, ?_⟩)
  rw [hcovered]
  exact trimEnd_lineBehind_eq_iff hpiece.ne_nil hlast

/-- A text that is rejected for its third line. -/
def tabbedText : Text := utf8 "[dumper]\r\n\twrap_length = 100 # columns\r\n\tmax_depth\t= 0 \r\n"

theorem span_of_parse_tabbed : parse (utf8 "phplit.toml") tabbedText =
      .error (.invalid (utf8 "phplit.toml") .zeroDepth (some ⟨53, 1⟩)) ∧
    ∃ head lead behind, Covers tabbedText (utf8 "max_depth") ⟨53, 1⟩ head lead (utf8 "0") behind := by
  have h : parse (utf8 "phplit.toml") tabbedText =
      .error (.invalid (utf8 "phplit.toml") .zeroDepth (some ⟨53, 1⟩)) := by rfl
  obtain ⟨head, lead, covered, behind, hc, -⟩ := span_of_parse (by decide) h
  have e : utf8 "0" = covered := hc.take_drop_eq
  exact ⟨h, head, lead, behind, e ▸ hc⟩

/-- A text with a comment behind the value that it is rejected for. -/
def commentedText : Text := utf8 "[dumper]\nmax_depth = 0 # none\n"

/-- The span need not cover the value: a comment behind it on its line belongs to the span. -/
theorem span_commented : parse (utf8 "phplit.toml") commentedText =
      .error (.invalid (utf8 "phplit.toml") .zeroDepth (some ⟨21, 8⟩)) ∧
    ¬ ∃ head value after, commentedText = head ++ (value ++ after) ∧ head.length = 21 ∧ value.length = 8 ∧
      Toml.IsValueAt commentedText (utf8 "max_depth") (.int 0) value after := by
  refine ⟨by rfl, ?_⟩
  rintro ⟨head, value, after, ht, hh, hv, l, ⟨pieces, m, target, stack, -, -, -, -, hl⟩, -⟩
  have hd : value ++ after = commentedText.drop 21 := by rw [ht, ← hh, List.drop_left]
  rw [hd, hv] at hl
  have hw : Toml.lexeme? (commentedText.drop 21) = some (.word (utf8 "0"), 1) := by decide
  rw [hw] at hl
  cases hl

end PhpLiteral.Config
