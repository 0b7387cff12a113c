import PhpLiteral.Proofs.Template
import PhpLiteral.Proofs.Walk

/-!
# How many arguments a template takes

A template has one placeholder for every question mark that no backslash stands right before (`length_slots_parse`),
however the spellings of the placeholders overlap. So arguments that can be written fill it exactly if there are as many
of them, and else the error says whether there are too few or too many (`format_arity`).
-/

namespace PhpLiteral

/-! ## Open question marks -/

/-- The number of question marks in a text that no backslash stands right before; `before` is the byte before the
text, if there is one. -/
def openMarksFrom (before : Option UInt8) : Text → Nat
  | [] => 0
  | b :: rest =>
    (if b = Ascii.question ∧ before ≠ some Ascii.backslash then 1 else 0) + openMarksFrom (some b) rest

/-- The number of question marks in a text that no backslash stands right before. -/
def openMarks (t : Text) : Nat := openMarksFrom none t

example : openMarks (utf8 "\\?a?...?::?\\\\?") = 3 := by decide

theorem openMarksFrom_append (before : Option UInt8) (t u : Text) :
    openMarksFrom before (t ++ u) = openMarksFrom before t + openMarksFrom (t.getLast?.or before) u := by
  induction t generalizing before with
  | nil => simp [openMarksFrom]
  | cons b t ih =>
    rw [List.cons_append, openMarksFrom, openMarksFrom, ih, Nat.add_assoc, List.getLast?_cons]
    cases t.getLast? <;> rfl

/-- The byte before a text matters only if it is a backslash and a question mark comes next. -/
theorem openMarksFrom_eq {before : UInt8} {t : Text} (h : before = Ascii.backslash → t.head? ≠ some Ascii.question) :
    openMarksFrom (some before) t = openMarks t := by
  cases t with
  | nil => rfl
  | cons b t =>
    rw [openMarks, openMarksFrom, openMarksFrom]
    congr 2
    simp only [List.head?_cons, ne_eq, Option.some.injEq] at h
    simp only [ne_eq, Option.some.injEq, reduceCtorEq, not_false_eq_true, and_true, eq_iff_iff, and_iff_left_iff_imp]
    exact fun hb hs => h hs hb

theorem openMarks_cons {b : UInt8} {t : Text} (hb : b ≠ Ascii.question)
    (h : b = Ascii.backslash → t.head? ≠ some Ascii.question) : openMarks (b :: t) = openMarks t := by
  rw [openMarks, openMarksFrom, if_neg fun hq => hb hq.1, Nat.zero_add, openMarksFrom_eq h]

theorem openMarks_append {t : Text} (hn : t ≠ []) (hl : t.getLast? ≠ some Ascii.backslash) (u : Text) :
    openMarks (t ++ u) = openMarks t + openMarks u := by
  have hlast := List.getLast?_eq_some_getLast hn
  rw [hlast, ne_eq, Option.some.injEq] at hl
  rw [openMarks, openMarksFrom_append, hlast, Option.some_or, openMarksFrom_eq fun e => absurd e hl]
  rfl

/-! ## Marks -/

/-- Whether a mark takes an argument. -/
def Mark.isPlaceholder : Mark → Bool
  | placeholder _ => true
  | escaped => false

/-- A placeholder has one open question mark and an escaped one none; and no mark ends with a backslash. -/
theorem openMarks_spelling (m : Mark) : openMarks m.spelling = (if m.isPlaceholder then 1 else 0) ∧
    m.spelling.getLast? ≠ some Ascii.backslash :=
  (by decide : ∀ m ∈ Mark.all, openMarks m.spelling = (if m.isPlaceholder then 1 else 0) ∧
    m.spelling.getLast? ≠ some Ascii.backslash) m m.mem_all

theorem length_slots_mark (m : Mark) (tokens : List Token) :
    (Template.ofTokens (.mark m :: tokens)).slots.length =
      (if m.isPlaceholder then 1 else 0) + (Template.ofTokens tokens).slots.length := by
  cases m with
  | placeholder p => simp [Template.ofTokens, Mark.isPlaceholder, Nat.add_comm]
  | escaped => simp [Template.ofTokens, Mark.isPlaceholder]

/-- A template has one placeholder for every open question mark. -/
theorem length_slots_parse (t : Text) : (Template.parse t).slots.length = openMarks t := by
  induction t using Token.scan_rec with
  | nil => rfl
  | mark m rest h ih =>
    obtain ⟨ho, hl⟩ := openMarks_spelling m
    rw [Template.parse, Token.scan_mark h, length_slots_mark, openMarks_append m.spelling_ne_nil hl, ho]
    exact congrArg _ ih
  | byte b rest h ih =>
    obtain ⟨hb, hr⟩ := Mark.ne_question_of_start?_eq_none h
    rw [Template.parse, Token.scan_byte h, openMarks_cons hb hr]
    simp only [ofTokens_consByte]
    exact ih

/-! ## Arguments -/

variable {heap : Heap} {maxDepth : Nat}

/-- Walking through arguments each of which is fine ends well if there is one for each placeholder. -/
theorem walkArguments_eq {depth : Nat} {chain : List Ref} {placeholders : List Placeholder} {args : List Value}
    (h : ∀ p ∈ placeholders.zip args, walkArgument heap maxDepth depth chain p.1 p.2 = .ok ()) :
    walkArguments heap maxDepth depth chain placeholders args =
      if args.length = placeholders.length then .ok ()
      else if args.length < placeholders.length then .error .insufficientArguments
      else .error (.tooManyArguments (args.length - placeholders.length)) := by
  induction placeholders generalizing args with
  | nil =>
    cases args with
    | nil => simp [walkArguments]
    | cons v rest => simp [walkArguments]
  | cons placeholder placeholders ih =>
    cases args with
    | nil => simp [walkArguments]
    | cons v rest =>
      rw [List.zip_cons_cons, List.forall_mem_cons] at h
      rw [walkArguments, h.1, List.length_cons, List.length_cons]
      simp only [Nat.add_right_cancel_iff, Nat.add_lt_add_iff_right, Nat.add_sub_add_right]
      exact ih h.2

/-- A value that can be written can be an argument of the outermost template, if it is an array where a list of
arguments is asked for. -/
theorem walkArgument_of_walk {placeholder : Placeholder} {v : Value} (hv : v.walk heap maxDepth 0 [] = .ok ())
    (hs : placeholder.isSpread = true → v.kind = .array) : walkArgument heap maxDepth 0 [] placeholder v = .ok () := by
  cases placeholder with
  | value => rwa [walkArgument]
  | member connective => rwa [walkArgument]
  | _ =>
    -- The entries of a list of arguments are walked through as those of the array, which may be empty as well.
    obtain ⟨id, rfl⟩ := exists_of_kind_eq_array (hs rfl)
    have ha : walkAll heap maxDepth 1 [.array id] (heap.array id).values = .ok () := by
      rw [Value.walk, if_pos (⟨Nat.zero_le _, List.not_mem_nil⟩ : 0 ≤ maxDepth ∧ Ref.array id ∉ [])] at hv
      split at hv
      · rename_i he
        rw [List.isEmpty_iff.mp he, walkAll]
      · exact hv
    rw [walkArgument, if_pos ⟨Nat.zero_le _, List.not_mem_nil⟩, ha] <;> simp

theorem walk_of_dump {s : Settings} {v : Value} {column : Nat} {text : Text} (h : dump s heap v column = .ok text) :
    v.walk heap s.maxDepth 0 [] = .ok () := by
  obtain ⟨t, ht, -⟩ := exists_of_dump h
  rw [← expand_outcome, ht]
  rfl

/-- Arguments that can be written, with arrays where lists of arguments are asked for, fill a template exactly if there
is one for each open question mark. With fewer of them there are too few, and with more the rest is counted. -/
theorem format_arity {s : Settings} {template : Text} {args : List Value}
    (hd : ∀ v ∈ args, ∃ column text, dump s heap v column = .ok text)
    (hs : ∀ p ∈ ((Template.parse template).slots.map Prod.fst).zip args, p.1.isSpread = true → p.2.kind = .array) :
    ((∃ text, format s heap template args = .ok text) ↔ args.length = openMarks template) ∧
      (args.length < openMarks template → format s heap template args = .error .insufficientArguments) ∧
      (openMarks template < args.length →
        format s heap template args = .error (.tooManyArguments (args.length - openMarks template))) := by
  have hw : ∀ p ∈ ((Template.parse template).slots.map Prod.fst).zip args,
      walkArgument heap s.maxDepth 0 [] p.1 p.2 = .ok () := by
    intro p hp
    obtain ⟨column, text, h⟩ := hd p.2 (List.of_mem_zip hp).2
    exact walkArgument_of_walk (walk_of_dump h) (hs p hp)
  have ho : (format s heap template args).map (fun _ => ()) = _ := format_outcome s template args
  rw [walkArguments_eq hw, List.length_map, length_slots_parse] at ho
  refine ⟨⟨fun ⟨text, ht⟩ => ?_, fun he => ?_⟩, fun hlt => ?_, fun hlt => ?_⟩
  · refine Decidable.byContradiction fun he => ?_
    rw [ht, if_neg he] at ho
    split at ho <;> cases ho
  · rw [if_pos he] at ho
    obtain ⟨text, ht, -⟩ := map_eq_ok.mp ho
    exact ⟨text, ht⟩
  · rw [if_neg (Nat.ne_of_lt hlt), if_pos hlt] at ho
    exact map_eq_error.mp ho
  · rw [if_neg (Nat.ne_of_gt hlt), if_neg (Nat.not_lt_of_gt hlt)] at ho
    exact map_eq_error.mp ho

/-- An array of one number under a name. -/
def namedNumber : Heap where
  arrays := [.ofEntries [(.str (utf8 "a"), .atom (.int 1))]]
  objects := []

theorem dump_namedNumber : dump {} namedNumber (.array 0) 0 = .ok (utf8 "['a' => 1]") := by
  have hv : (namedNumber.array 0).values = [.atom (.int 1)] := rfl
  have he : (Value.array 0).expand namedNumber 50 0 [] = .ok (.array (namedNumber.array 0).keys [.atom (.int 1)]) := by
    simp [Value.expand, expandAll, hv, Except.map, bind, Except.bind, pure, Except.pure]
  rw [dump_of_expand he, if_pos (by decide)]
  refine congrArg Except.ok ?_
  decide

/-- Behind a list with names a colon is left, behind a member a star, and an escaped question mark takes nothing. -/
theorem format_arity_overlapping :
    (∃ text, format {} namedNumber (utf8 "...?::?\\?$?*") [.array 0, .atom (.int 2), .atom .null] = .ok text) ∧
      format {} namedNumber (utf8 "...?::?\\?$?*") [.array 0, .atom (.int 2)] = .error .insufficientArguments ∧
      format {} namedNumber (utf8 "...?::?\\?$?*") [.array 0, .atom (.int 2), .atom .null, .array 0, .array 0] =
        .error (.tooManyArguments 2) := by
  have hd : ∀ args : List Value, (∀ v ∈ args, v = .array 0 ∨ ∃ a, v = .atom a) →
      ∀ v ∈ args, ∃ column text, dump {} namedNumber v column = .ok text := by
    intro args ha v hv
    obtain rfl | ⟨a, rfl⟩ := ha v hv
    · exact ⟨0, _, dump_namedNumber⟩
    · exact ⟨0, a.code, by rw [dump, Value.render, Value.renderWith]; rfl⟩
  refine ⟨?_, ?_, ?_⟩
  · exact (format_arity (hd _ (by simp)) (by decide)).1.mpr (by decide)
  · exact (format_arity (hd _ (by simp)) (by decide)).2.1 (by decide)
  · exact (format_arity (hd _ (by simp)) (by decide)).2.2 (by decide)

end PhpLiteral
