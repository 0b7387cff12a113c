import PhpLiteral.Proofs.Config.Settings

/-!
# The grammar of names of functions

The name of a function that rebuilds objects is accepted exactly if the grammar of such names has it
(`factoryProblem?_eq_none_iff`): perhaps a backslash, identifiers with one backslash between two of them, and perhaps
two colons and an identifier. The grammar (`IsCallable`) is spelled out down to the bytes of identifiers (`IsWord`).
-/

namespace PhpLiteral

/-! ## The grammar -/

/-- A letter of identifiers: of ASCII, an underscore, or a byte from `0x7f` on. -/
def Identifier.IsLetter (b : UInt8) : Prop :=
  b ∈ utf8 "ABCDEFGHIJKLMNOPQRSTUVWXYZabcdefghijklmnopqrstuvwxyz_" ∨ 0x7f ≤ b

/-- One identifier: a letter, and letters and digits behind it. -/
inductive IsWord : Text → Prop
  | mk {b : UInt8} {rest : Text} : Identifier.IsLetter b →
      (∀ c ∈ rest, Identifier.IsLetter c ∨ c ∈ utf8 "0123456789") → IsWord (b :: rest)

/-- Identifiers with one backslash between two of them. -/
inductive IsPath : Text → Prop
  | word {name : Text} : IsWord name → IsPath name
  | inside {name path : Text} : IsWord name → IsPath path → IsPath (name ++ Ascii.backslash :: path)

/-- A function or a static method, perhaps with a backslash before it. -/
def IsCallable (t : Text) : Prop :=
  ∃ root path method, t = root ++ path ++ method ∧ (root = [] ∨ root = [Ascii.backslash]) ∧ IsPath path ∧
    (method = [] ∨ ∃ name, method = utf8 "::" ++ name ∧ IsWord name)

/-! ## Identifiers -/

/-- The bytes of consecutive numbers. -/
theorem mem_map_range' {first count : Nat} (h : first + count ≤ 256) {b : UInt8} :
    b ∈ (List.range' first count).map Nat.toUInt8 ↔ first ≤ b.toNat ∧ b.toNat < first + count := by
  rw [List.mem_map]
  constructor
  · rintro ⟨n, hn, rfl⟩
    rw [List.mem_range'_1] at hn
    rwa [Nat.toUInt8, UInt8.toNat_ofNat', Nat.mod_eq_of_lt (by omega)]
  · exact fun hb => ⟨b.toNat, List.mem_range'_1.mpr hb, UInt8.ofNat_toNat⟩

theorem Identifier.isStart_iff (b : UInt8) : isStart b = true ↔ IsLetter b := by
  have hl : utf8 "ABCDEFGHIJKLMNOPQRSTUVWXYZabcdefghijklmnopqrstuvwxyz_" =
      (List.range' 0x41 26).map Nat.toUInt8 ++ (List.range' 0x61 26).map Nat.toUInt8 ++ [Ascii.underscore] := by
    decide +kernel
  rw [IsLetter, hl, List.mem_append, List.mem_append, mem_map_range' (by omega), mem_map_range' (by omega),
    List.mem_singleton]
  simp only [isStart, Ascii.isLetter, Bool.or_eq_true, Bool.and_eq_true, decide_eq_true_eq, beq_iff_eq,
    UInt8.le_iff_toNat_le, UInt8.reduceToNat]
  refine or_congr (or_congr ?_ Iff.rfl) Iff.rfl
  omega

theorem Identifier.isDigit_iff (b : UInt8) : Ascii.isDigit b = true ↔ b ∈ utf8 "0123456789" := by
  have hd : utf8 "0123456789" = (List.range' 0x30 10).map Nat.toUInt8 := by decide +kernel
  rw [hd, mem_map_range' (by omega)]
  simp only [Ascii.isDigit, Bool.and_eq_true, decide_eq_true_eq, UInt8.le_iff_toNat_le, UInt8.reduceToNat]
  omega

theorem isIdentifier_iff {t : Text} : isIdentifier t = true ↔ IsWord t := by
  cases t with
  | nil => constructor <;> intro h <;> cases h
  | cons b rest =>
    simp only [isIdentifier, Bool.and_eq_true, List.all_eq_true, Identifier.isPart, Bool.or_eq_true,
      Identifier.isStart_iff, Identifier.isDigit_iff]
    constructor
    · rintro ⟨hb, hr⟩
      exact .mk hb hr
    · intro h
      cases h with
      | mk hb hr => exact ⟨hb, hr⟩

/-- Neither of the bytes between the parts of a name stands in an identifier. -/
theorem IsWord.not_mem {name : Text} (h : IsWord name) : Ascii.backslash ∉ name ∧ Ascii.colon ∉ name := by
  obtain ⟨-, -, -, -, hp⟩ := Syntax.exists_of_isIdentifier (isIdentifier_iff.mpr h)
  exact ⟨fun hm => absurd (hp _ hm) (by decide), fun hm => absurd (hp _ hm) (by decide)⟩

/-! ## The parts of a name -/

theorem splitOn_append_cons {separator : UInt8} {t : Text} (h : separator ∉ t) (u : Text) :
    splitOn separator (t ++ separator :: u) = t :: splitOn separator u := by
  have hs : splitHead separator (t ++ separator :: u) = (t, splitOn separator u) := by
    induction t with
    | nil =>
      rw [List.nil_append, splitHead]
      exact if_pos rfl
    | cons b t ih =>
      rw [List.mem_cons, not_or] at h
      rw [List.cons_append, splitHead, ih h.2]
      exact if_neg (Ne.symm h.1)
  rw [splitOn, hs]

/-- What has no colon stands before the first two of them. -/
theorem splitMethod_append {t : Text} (h : Ascii.colon ∉ t) (u : Text) :
    splitMethod (t ++ u) = (t ++ (splitMethod u).1, (splitMethod u).2) := by
  induction t with
  | nil => rfl
  | cons b t ih =>
    rw [List.mem_cons, not_or] at h
    rw [List.cons_append, splitMethod, ih h.2]
    · rfl
    · exact fun _ e _ => h.1 e.symm

theorem IsPath.isIdentifier_of_mem_splitOn {path : Text} (h : IsPath path) :
    ∀ name ∈ splitOn Ascii.backslash path, isIdentifier name = true := by
  induction h with
  | word hn =>
    rw [splitOn, Syntax.splitHead_of_not_mem hn.not_mem.1]
    exact List.forall_mem_singleton.mpr (isIdentifier_iff.mpr hn)
  | inside hn _ ih =>
    rw [splitOn_append_cons hn.not_mem.1]
    exact List.forall_mem_cons.mpr ⟨isIdentifier_iff.mpr hn, ih⟩

theorem IsPath.colon_not_mem {path : Text} (h : IsPath path) : Ascii.colon ∉ path := by
  induction h with
  | word hn => exact hn.not_mem.2
  | inside hn _ ih =>
    rw [List.mem_append, List.mem_cons]
    rintro (hm | hm | hm)
    · exact hn.not_mem.2 hm
    · cases hm
    · exact ih hm

theorem IsPath.exists_cons {path : Text} (h : IsPath path) : ∃ b rest, path = b :: rest ∧ b ≠ Ascii.backslash := by
  have hw : ∀ {name : Text}, IsWord name → ∃ b rest, name = b :: rest ∧ b ≠ Ascii.backslash := by
    intro name hn
    have hb := hn.not_mem.1
    cases hn with
    | mk => exact ⟨_, _, rfl, fun e => hb (e ▸ List.mem_cons_self)⟩
  cases h with
  | word hn => exact hw hn
  | inside hn _ =>
    obtain ⟨b, rest, rfl, hb⟩ := hw hn
    exact ⟨b, _, rfl, hb⟩

theorem isPath_intercalate {names : List Text} (hn : names ≠ []) (h : ∀ name ∈ names, IsWord name) :
    IsPath ([Ascii.backslash].intercalate names) := by
  induction names with
  | nil => exact absurd rfl hn
  | cons name names ih =>
    rw [List.forall_mem_cons] at h
    cases names with
    | nil => simpa using IsPath.word h.1
    | cons second names =>
      rw [List.intercalate_cons_cons, List.append_assoc]
      exact .inside h.1 (ih (List.cons_ne_nil _ _) h.2)

theorem IsFunctionName.isCallable {t : Text} (h : IsFunctionName t) : IsCallable t := by
  obtain ⟨root, names, method, rfl, hr, ⟨hn, hi⟩, hm⟩ := h
  refine ⟨root, _, method, rfl, hr, isPath_intercalate hn fun name hw => isIdentifier_iff.mp (hi name hw), ?_⟩
  exact hm.imp_right fun ⟨name, e, hw⟩ => ⟨name, e, isIdentifier_iff.mp hw⟩

/-! ## What is accepted -/

/-- A path, and a method if there is one, are found to be without problem. -/
theorem factoryProblem?_path {t path method : Text} (ht : withoutRoot t = path ++ method) (hn : t ≠ [])
    (hp : IsPath path) (hm : method = [] ∨ ∃ name, method = utf8 "::" ++ name ∧ IsWord name) :
    factoryProblem? t = none := by
  have hf : (splitOn Ascii.backslash path).find? (!isIdentifier ·) = none := by
    simpa using hp.isIdentifier_of_mem_splitOn
  have hs := splitMethod_append hp.colon_not_mem method
  rw [factoryProblem?, if_neg (by simpa using hn), ht, hs]
  rcases hm with rfl | ⟨name, rfl, hw⟩
  · simp [splitMethod, hf]
  · have hd : splitMethod (utf8 "::" ++ name) = ([], some name) := rfl
    simp [hd, hf, isIdentifier_iff.mpr hw]

/-- A name is accepted exactly if the grammar has it. -/
theorem factoryProblem?_eq_none_iff {t : Text} : factoryProblem? t = none ↔ IsCallable t := by
  refine ⟨fun h => (isFunctionName_of_factoryProblem? h).isCallable, ?_⟩
  rintro ⟨root, path, method, rfl, hr, hp, hm⟩
  obtain ⟨b, rest, e, hb⟩ := hp.exists_cons
  rcases hr with rfl | rfl
  · have ht : withoutRoot (path ++ method) = path ++ method := by
      rw [e, List.cons_append, withoutRoot]
      exact fun _ h => hb (List.cons.inj h).1
    exact factoryProblem?_path ht (by simp [e]) hp hm
  · exact factoryProblem?_path rfl (List.cons_ne_nil _ _) hp hm

example : factoryProblem? (utf8 "\\App\\Hydrator::make") = none := by decide

end PhpLiteral
