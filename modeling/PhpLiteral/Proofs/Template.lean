import Mathlib.Data.List.Chain
import PhpLiteral.Proofs.Text.Utf8
import PhpLiteral.Template

/-!
# How templates are split

The pieces of a template write it out again, and every question mark is in exactly one mark, which is the one that
the text around the question mark says (`Mark.read`), as far as no mark before it has taken this text
(`scan_spec`).

* `Token.scan_rec`: induction along the scanner;
* `Mark.StandsIn`: the mark of a question mark;
* `openText`: the text since the last mark.
-/

namespace PhpLiteral

/-! ## Marks -/

namespace Mark

/-- What a mark has before its question mark. -/
def lead : Mark → Text
  | placeholder .value => []
  | placeholder (.member connective) => connective.text
  | placeholder .spread => utf8 "..."
  | placeholder .starSpread => []
  | placeholder .namedSpread => utf8 "..."
  | escaped => utf8 "\\"

/-- What a mark has behind its question mark. -/
def tail : Mark → Text
  | placeholder .starSpread => utf8 "*"
  | placeholder .namedSpread => utf8 ":"
  | _ => []

/-- The mark of a question mark between two texts, the first of which no mark has taken. -/
def read (before behind : Text) : Mark :=
  if utf8 "\\" <:+ before then escaped
  else if utf8 "..." <:+ before then
    if utf8 ":" <+: behind then placeholder .namedSpread else placeholder .spread
  else if utf8 "$" <:+ before then placeholder (.member .dollar)
  else if utf8 "->" <:+ before then placeholder (.member .arrow)
  else if utf8 "::" <:+ before then placeholder (.member .doubleColon)
  else if utf8 "*" <+: behind then placeholder .starSpread
  else placeholder .value

theorem mem_all (m : Mark) : m ∈ all := by
  cases m with
  | escaped => decide
  | placeholder p =>
    cases p with
    | member connective => cases connective <;> decide
    | _ => decide

theorem spelling_eq (m : Mark) : m.spelling = m.lead ++ Ascii.question :: m.tail := by
  cases m with
  | escaped => rfl
  | placeholder p => cases p <;> rfl

/-- A mark has no question mark but one, and consists of ASCII bytes. -/
theorem spelling_spec (m : Mark) :
    Ascii.question ∉ m.lead ∧ Ascii.question ∉ m.tail ∧ m.spelling.all (· < 0x80) = true :=
  (by decide : ∀ m ∈ all, Ascii.question ∉ m.lead ∧ Ascii.question ∉ m.tail ∧ m.spelling.all (· < 0x80) = true) m
    m.mem_all

theorem spelling_ne_nil (m : Mark) : m.spelling ≠ [] := by
  rw [spelling_eq]
  exact List.append_ne_nil_of_right_ne_nil _ (List.cons_ne_nil _ _)

theorem exists_append_of_start? {t : Text} {m : Mark} (h : start? t = some m) : ∃ rest, t = m.spelling ++ rest := by
  have hp : m.spelling.isPrefixOf t = true := List.find?_some (p := fun m : Mark => m.spelling.isPrefixOf t) h
  obtain ⟨rest, hr⟩ := List.isPrefixOf_iff_prefix.mp hp
  exact ⟨rest, hr.symm⟩

theorem not_prefix_of_start?_eq_none {t : Text} (h : start? t = none) (m : Mark) : ¬ m.spelling <+: t := by
  intro hp
  exact List.find?_eq_none.mp h m m.mem_all (List.isPrefixOf_iff_prefix.mpr hp)

/-- A mark that starts where no other one ends is the one that the text around its question mark says. -/
theorem eq_read_of_start? {m : Mark} {rest : Text} (h : start? (m.spelling ++ rest) = some m) :
    m = read m.lead (m.tail ++ rest) := by
  have hspread : m = placeholder .spread → ¬ utf8 ":" <+: rest := by
    rintro rfl ⟨rest, rfl⟩
    cases h
  have hvalue : m = placeholder .value → ¬ utf8 "*" <+: rest := by
    rintro rfl ⟨rest, rfl⟩
    cases h
  cases m with
  | escaped => rfl
  | placeholder p =>
    cases p with
    | value => exact (if_neg (hvalue rfl)).symm
    | member connective => cases connective <;> rfl
    | spread => exact (if_neg (hspread rfl)).symm
    | starSpread => rfl
    | namedSpread => rfl

/-- A byte at which no mark starts says nothing about the next question mark. -/
theorem read_cons {b : UInt8} {before behind : Text}
    (h : start? (b :: (before ++ Ascii.question :: behind)) = none) : read (b :: before) behind = read before behind := by
  have hs : ∀ m : Mark, m.tail = [] → (m.lead <:+ b :: before ↔ m.lead <:+ before) := by
    intro m hm
    rw [List.suffix_cons_iff, or_iff_right]
    intro e
    refine not_prefix_of_start?_eq_none h m ?_
    rw [spelling_eq, hm, e]
    exact ⟨behind, by simp⟩
  have h₁ := hs escaped rfl
  have h₂ := hs (placeholder .spread) rfl
  have h₃ := hs (placeholder (.member .dollar)) rfl
  have h₄ := hs (placeholder (.member .arrow)) rfl
  have h₅ := hs (placeholder (.member .doubleColon)) rfl
  simp only [lead, Connective.text] at h₁ h₂ h₃ h₄ h₅
  simp only [read, h₁, h₂, h₃, h₄, h₅]

/-- Where no mark starts there is no question mark, and none behind a backslash. -/
theorem ne_question_of_start?_eq_none {b : UInt8} {rest : Text} (h : start? (b :: rest) = none) :
    b ≠ Ascii.question ∧ (b = Ascii.backslash → rest.head? ≠ some Ascii.question) := by
  refine ⟨?_, ?_⟩
  · rintro rfl
    exact not_prefix_of_start?_eq_none h (placeholder .value) ⟨rest, rfl⟩
  · rintro rfl hr
    obtain ⟨rest, rfl⟩ := List.head?_eq_some_iff.mp hr
    exact not_prefix_of_start?_eq_none h escaped ⟨rest, rfl⟩

end Mark

/-! ## The scanner -/

namespace Token

theorem scanFrom_append (w rest : Text) : scanFrom w.length (w ++ rest) = scan rest := by
  induction w with
  | nil => rfl
  | cons b w ih => rwa [List.length_cons, List.cons_append, scanFrom]

theorem scan_mark {m : Mark} {rest : Text} (h : Mark.start? (m.spelling ++ rest) = some m) :
    scan (m.spelling ++ rest) = mark m :: scan rest := by
  obtain ⟨b, w, hw⟩ := List.exists_cons_of_ne_nil m.spelling_ne_nil
  have hl : m.spelling.length - 1 = w.length := by rw [hw, List.length_cons, Nat.add_sub_cancel]
  rw [hw, List.cons_append] at h ⊢
  rw [scan, scanFrom, h, ← scanFrom_append w rest]
  simp only [hl]

theorem scan_byte {b : UInt8} {rest : Text} (h : Mark.start? (b :: rest) = none) :
    scan (b :: rest) = consByte b (scan rest) := by
  rw [scan, scanFrom, h]
  rfl

/-- Induction along the scanner: a template is empty, or starts with a mark, or with a byte of text. -/
@[elab_as_elim]
theorem scan_rec {motive : Text → Prop} (nil : motive [])
    (mark : ∀ (m : Mark) (rest : Text), Mark.start? (m.spelling ++ rest) = some m → motive rest →
      motive (m.spelling ++ rest))
    (byte : ∀ (b : UInt8) (rest : Text), Mark.start? (b :: rest) = none → motive rest → motive (b :: rest)) :
    ∀ t : Text, motive t
  | [] => nil
  | b :: rest => by
    cases h : Mark.start? (b :: rest) with
    | none => exact byte b rest h (scan_rec nil mark byte rest)
    | some m =>
      obtain ⟨rest', hr⟩ := Mark.exists_append_of_start? h
      have hlt : rest'.length < (b :: rest).length := by
        rw [hr, List.length_append]
        have := List.length_pos_iff.mpr m.spelling_ne_nil
        omega
      rw [hr] at h ⊢
      exact mark m rest' h (scan_rec nil mark byte rest')
termination_by t => t.length
decreasing_by
  · exact Nat.lt_succ_self _
  · exact hlt

/-- The piece as it is written in a template. -/
def spelling : Token → Text
  | text t => t
  | mark m => m.spelling

/-- Whether a piece is text. -/
def isText : Token → Bool
  | text _ => true
  | mark _ => false

end Token

/-- Pieces written out. -/
def spell (tokens : List Token) : Text := tokens.flatMap Token.spelling

/-- The text behind the last mark. -/
def openText (tokens : List Token) : Text :=
  match tokens.getLast? with
  | some (.text t) => t
  | _ => []

/-- The question mark between `before` and `behind` is the one of a mark among pieces. -/
structure Mark.StandsIn (tokens : List Token) (before behind : Text) (pre : List Token) (m : Mark)
    (post : List Token) : Prop where
  tokens_eq : tokens = pre ++ .mark m :: post
  before_eq : before = spell pre ++ m.lead
  behind_eq : behind = m.tail ++ spell post

section

variable {b : UInt8} {tokens : List Token}

@[simp] theorem spell_nil : spell [] = [] := rfl

@[simp] theorem spell_append (tokens others : List Token) : spell (tokens ++ others) = spell tokens ++ spell others :=
  List.flatMap_append

@[simp] theorem spell_cons (token : Token) (tokens : List Token) :
    spell (token :: tokens) = token.spelling ++ spell tokens := List.flatMap_cons

theorem spell_consByte (b : UInt8) (tokens : List Token) : spell (Token.consByte b tokens) = b :: spell tokens := by
  cases tokens with
  | nil => rfl
  | cons token rest => cases token <;> rfl

theorem consByte_append_mark (b : UInt8) (pre : List Token) (m : Mark) (post : List Token) :
    Token.consByte b (pre ++ .mark m :: post) = Token.consByte b pre ++ .mark m :: post := by
  cases pre with
  | nil => rfl
  | cons token pre => cases token <;> rfl

theorem openText_mark (m : Mark) (pre : List Token) : openText (.mark m :: pre) = openText pre := by
  cases pre with
  | nil => rfl
  | cons token pre => rw [openText, List.getLast?_cons_cons, openText]

/-- A further byte is part of the text behind the last mark if there is no mark. -/
theorem openText_consByte (b : UInt8) (pre : List Token) :
    openText (Token.consByte b pre) = openText pre ∨
      openText (Token.consByte b pre) = b :: openText pre ∧ spell pre = openText pre := by
  match pre with
  | [] => exact .inr ⟨rfl, rfl⟩
  | [.text t] => exact .inr ⟨rfl, by simp [spell, openText, Token.spelling]⟩
  | .text t :: token :: rest =>
    refine .inl ?_
    rw [Token.consByte, openText, List.getLast?_cons_cons, openText, List.getLast?_cons_cons]
  | .mark m :: rest =>
    refine .inl ?_
    show openText (.text [b] :: .mark m :: rest) = _
    rw [openText, List.getLast?_cons_cons, openText]

theorem mem_consByte {t : Text} (h : .text t ∈ Token.consByte b tokens) :
    .text t ∈ tokens ∨ ∃ u, t = b :: u ∧ (u = [] ∨ .text u ∈ tokens) := by
  cases tokens with
  | nil =>
    cases List.mem_singleton.mp h
    exact .inr ⟨[], rfl, .inl rfl⟩
  | cons token rest =>
    cases token with
    | text u =>
      rcases List.mem_cons.mp h with e | h
      · cases e
        exact .inr ⟨u, rfl, .inr List.mem_cons_self⟩
      · exact .inl (List.mem_cons_of_mem _ h)
    | mark m =>
      rcases List.mem_cons.mp h with e | h
      · cases e
        exact .inr ⟨[], rfl, .inl rfl⟩
      · exact .inl h

end

/-! ## What the scanner gives -/

theorem spell_scan (template : Text) : spell (Token.scan template) = template := by
  induction template using Token.scan_rec with
  | nil => rfl
  | mark m rest h ih => rw [Token.scan_mark h, spell_cons, ih, Token.spelling]
  | byte b rest h ih => rw [Token.scan_byte h, spell_consByte, ih]

theorem text_of_mem_scan {template t : Text} (h : .text t ∈ Token.scan template) : t ≠ [] ∧ Ascii.question ∉ t := by
  induction template using Token.scan_rec generalizing t with
  | nil => cases h
  | mark m rest hm ih =>
    rw [Token.scan_mark hm] at h
    rcases List.mem_cons.mp h with e | h
    · cases e
    · exact ih h
  | byte b rest hb ih =>
    have hq := (Mark.ne_question_of_start?_eq_none hb).1
    rw [Token.scan_byte hb] at h
    obtain h | ⟨u, rfl, hu⟩ := mem_consByte h
    · exact ih h
    · refine ⟨List.cons_ne_nil _ _, List.not_mem_cons_of_ne_of_not_mem hq.symm ?_⟩
      rcases hu with rfl | hu
      · exact List.not_mem_nil
      · exact (ih hu).2

/-- No two texts stand side by side. -/
def AreApart (tokens : List Token) : Prop := tokens.IsChain fun x y => ¬ (x.isText = true ∧ y.isText = true)

theorem areApart_mark (m : Mark) {tokens : List Token} (h : AreApart tokens) : AreApart (.mark m :: tokens) :=
  List.isChain_cons.mpr ⟨fun _ _ hm => Bool.false_ne_true hm.1, h⟩

theorem areApart_consByte (b : UInt8) {tokens : List Token} (h : AreApart tokens) :
    AreApart (Token.consByte b tokens) := by
  cases tokens with
  | nil => exact .singleton _
  | cons token rest =>
    cases token with
    | text t => exact List.isChain_cons.mpr (List.isChain_cons.mp h)
    | mark m => exact List.isChain_cons_cons.mpr ⟨fun hm => Bool.false_ne_true hm.2, h⟩

theorem areApart_scan (template : Text) : AreApart (Token.scan template) := by
  induction template using Token.scan_rec with
  | nil => exact .nil
  | mark m rest h ih =>
    rw [Token.scan_mark h]
    exact areApart_mark m ih
  | byte b rest h ih =>
    rw [Token.scan_byte h]
    exact areApart_consByte b ih

namespace Mark.StandsIn

variable {tokens : List Token} {before behind : Text} {pre : List Token} {m : Mark} {post : List Token}

theorem mark (m' : Mark) (h : Mark.StandsIn tokens before behind pre m post) :
    Mark.StandsIn (.mark m' :: tokens) (m'.spelling ++ before) behind (.mark m' :: pre) m post where
  tokens_eq := congrArg _ h.tokens_eq
  before_eq := by rw [h.before_eq, spell_cons, List.append_assoc, Token.spelling]
  behind_eq := h.behind_eq

theorem byte (b : UInt8) (h : Mark.StandsIn tokens before behind pre m post) :
    Mark.StandsIn (Token.consByte b tokens) (b :: before) behind (Token.consByte b pre) m post where
  tokens_eq := by rw [h.tokens_eq, consByte_append_mark]
  before_eq := by rw [h.before_eq, spell_consByte, List.cons_append]
  behind_eq := h.behind_eq

theorem eq_nil_of_append {further post' : List Token} {m' : Mark}
    (h : Mark.StandsIn tokens before behind pre m post)
    (h' : Mark.StandsIn tokens before behind (pre ++ further) m' post') : further = [] := by
  cases further with
  | nil => rfl
  | cons token further =>
    have he := h.tokens_eq.symm.trans h'.tokens_eq
    rw [List.append_assoc, List.append_cancel_left_eq] at he
    obtain rfl := (List.cons.inj he).1
    -- The whole first mark would stand before the question mark that is in it.
    have hl := congrArg List.length (h.before_eq.symm.trans h'.before_eq)
    simp [Token.spelling, Mark.spelling_eq] at hl

/-- A question mark is in no more than one mark. -/
theorem unique {pre' : List Token} {m' : Mark} {post' : List Token}
    (h : Mark.StandsIn tokens before behind pre m post) (h' : Mark.StandsIn tokens before behind pre' m' post') :
    pre' = pre ∧ m' = m ∧ post' = post := by
  have he := h.tokens_eq.symm.trans h'.tokens_eq
  have hp : pre' = pre := by
    obtain ⟨further, rfl, -⟩ | ⟨further, rfl, -⟩ := List.append_eq_append_iff.mp he
    · rw [h.eq_nil_of_append h', List.append_nil]
    · rw [h'.eq_nil_of_append h, List.append_nil]
  subst hp
  rw [List.append_cancel_left_eq] at he
  cases he
  exact ⟨rfl, rfl, rfl⟩

end Mark.StandsIn

/-- A byte that a text does not have comes behind this text. -/
theorem exists_append_of_not_mem {c : UInt8} {t u before behind : Text} (hc : c ∉ t)
    (h : t ++ u = before ++ c :: behind) : ∃ v, before = t ++ v ∧ u = v ++ c :: behind := by
  obtain ⟨v, hv, hu⟩ | ⟨v, hv, hu⟩ := List.append_eq_append_iff.mp h
  · exact ⟨v, hv, hu⟩
  · cases v with
    | nil => exact ⟨[], by rw [hv]; simp, hu.symm⟩
    | cons d v =>
      cases hu
      exact absurd (by rw [hv]; simp) hc

/-- Every question mark of a template is in the mark that the text before it says that no mark before it has taken. -/
theorem exists_standsIn (template before behind : Text) (h : template = before ++ Ascii.question :: behind) :
    ∃ pre m post, Mark.StandsIn (Token.scan template) before behind pre m post ∧
      m = Mark.read (openText pre ++ m.lead) behind := by
  induction template using Token.scan_rec generalizing before with
  | nil => cases before <;> cases h
  | mark m rest hm ih =>
    obtain ⟨hl, ht, -⟩ := m.spelling_spec
    rw [Mark.spelling_eq, List.append_assoc] at h
    obtain ⟨v, rfl, hv⟩ := exists_append_of_not_mem hl h
    cases v with
    | nil =>
      obtain rfl : m.tail ++ rest = behind := (List.cons.inj hv).2
      refine ⟨[], m, Token.scan rest, ⟨Token.scan_mark hm, ?_, ?_⟩, ?_⟩
      · rw [List.append_nil]
        rfl
      · rw [spell_scan]
      · exact Mark.eq_read_of_start? hm
    | cons q v =>
      obtain ⟨rfl, hv'⟩ := List.cons.inj hv
      obtain ⟨w, rfl, hw⟩ := exists_append_of_not_mem ht hv'
      obtain ⟨pre, m', post, hs, hr⟩ := ih w hw
      refine ⟨.mark m :: pre, m', post, ?_, by rwa [openText_mark]⟩
      have he : m.spelling ++ w = m.lead ++ Ascii.question :: (m.tail ++ w) := by
        rw [Mark.spelling_eq, List.append_assoc, List.cons_append]
      rw [← he, Token.scan_mark hm]
      exact hs.mark m
  | byte b rest hb ih =>
    cases before with
    | nil =>
      cases h
      exact absurd rfl (Mark.ne_question_of_start?_eq_none hb).1
    | cons a before =>
      cases h
      obtain ⟨pre, m, post, hs, hr⟩ := ih before rfl
      refine ⟨Token.consByte b pre, m, post, Token.scan_byte hb ▸ hs.byte b, ?_⟩
      obtain ho | ⟨ho, hp⟩ := openText_consByte b pre
      · rwa [ho]
      · rw [ho, List.cons_append, Mark.read_cons]
        · exact hr
        · rwa [← hp, ← hs.before_eq]

theorem isValid_behind {pre rest : List Token} {t : Text} (hc : AreApart (pre ++ .text t :: rest)) {u : Text}
    (hv : Utf8.isValid (spell pre ++ u) = true) : Utf8.isValid u = true := by
  rcases pre.eq_nil_or_concat' with rfl | ⟨pre, token, rfl⟩
  · exact hv
  · cases token with
    | text t' =>
      rw [AreApart, List.append_assoc, List.singleton_append, List.isChain_append_cons_cons] at hc
      exact absurd ⟨rfl, rfl⟩ hc.2.1
    | mark m =>
      rw [spell_append, spell_cons, spell_nil, List.append_nil, List.append_assoc] at hv
      exact (Utf8.isValid_append_ascii m.spelling_spec.2.2 m.spelling_ne_nil hv).2

theorem isValid_before {post : List Token} {t : Text} (hc : AreApart (.text t :: post))
    (hv : Utf8.isValid (t ++ spell post) = true) : Utf8.isValid t = true := by
  cases post with
  | nil => rwa [spell_nil, List.append_nil] at hv
  | cons token post =>
    cases token with
    | text t' => exact absurd ⟨rfl, rfl⟩ (List.isChain_cons_cons.mp hc).1
    | mark m => exact (Utf8.isValid_append_ascii m.spelling_spec.2.2 m.spelling_ne_nil hv).1

/-- The texts of a valid template start and end where characters do. -/
theorem isValid_of_mem_scan {template t : Text} (h : .text t ∈ Token.scan template)
    (hv : Utf8.isValid template = true) : Utf8.isValid t = true := by
  obtain ⟨pre, post, hp⟩ := List.append_of_mem h
  have hc := areApart_scan template
  rw [hp] at hc
  rw [← spell_scan template, hp, spell_append, spell_cons, Token.spelling] at hv
  exact isValid_before (List.isChain_split.mp hc).2 (isValid_behind hc hv)

/-- The pieces of a template write it out again, no text among them is empty, has a question mark or stands beside
another one, and each question mark is in exactly one mark, the one that the bytes around it say that no mark before it
has taken. A template that is valid is split between characters. -/
theorem scan_spec (template : Text) :
    spell (Token.scan template) = template ∧
      (∀ t, .text t ∈ Token.scan template → t ≠ [] ∧ Ascii.question ∉ t) ∧
      AreApart (Token.scan template) ∧
      (∀ before behind, template = before ++ Ascii.question :: behind →
        ∃ pre m post, Mark.StandsIn (Token.scan template) before behind pre m post ∧
          m = Mark.read (openText pre ++ m.lead) behind ∧
          ∀ pre' m' post', Mark.StandsIn (Token.scan template) before behind pre' m' post' →
            pre' = pre ∧ m' = m ∧ post' = post) ∧
      (Utf8.isValid template = true → ∀ t, .text t ∈ Token.scan template → Utf8.isValid t = true) := by
  refine ⟨spell_scan template, fun t => text_of_mem_scan, areApart_scan template, fun before behind h => ?_,
    fun hv t ht => isValid_of_mem_scan ht hv⟩
  obtain ⟨pre, m, post, hs, hr⟩ := exists_standsIn template before behind h
  exact ⟨pre, m, post, hs, hr, fun _ _ _ => hs.unique⟩

/-- The colon belongs to the list of named arguments before it, so that the star decides about the next mark. -/
theorem scan_spec_overlapping :
    Mark.StandsIn (Token.scan (utf8 "é...?:?*")) (utf8 "é...?:") (utf8 "*")
        [.text (utf8 "é"), .mark (.placeholder .namedSpread)] (.placeholder .starSpread) [] ∧
      .placeholder .starSpread = Mark.read [] (utf8 "*") ∧ Utf8.isValid (utf8 "é") = true := by
  obtain ⟨-, -, -, hq, hv⟩ := scan_spec (utf8 "é...?:?*")
  obtain ⟨pre, m, post, -, hr, hu⟩ := hq (utf8 "é...?:") (utf8 "*") (by decide)
  have hs : Mark.StandsIn (Token.scan (utf8 "é...?:?*")) (utf8 "é...?:") (utf8 "*")
      [.text (utf8 "é"), .mark (.placeholder .namedSpread)] (.placeholder .starSpread) [] :=
    ⟨by decide, by decide, by decide⟩
  obtain ⟨rfl, rfl, rfl⟩ := hu _ _ _ hs
  exact ⟨hs, hr, hv (by decide) _ (by rw [hs.tokens_eq]; exact List.mem_cons_self)⟩

end PhpLiteral
