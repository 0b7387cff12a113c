import PhpLiteral.Command
import PhpLiteral.Proofs.Command.Readers
import PhpLiteral.Proofs.Config.Settings

/-!
# Settings of an invocation

Values are only written with settings that can be used (`Settings.IsValid`), and each setting is the one of the
option that is given, else the one of the configuration file, else the default (`AreChosen`). For this, the values
of options are within the same ranges as those of the configuration that they are put over. Of the readers this needs
only that options have values that they take; a text may be read as anything.
-/

namespace PhpLiteral.Command

/-- The options of an invocation that writes values. -/
def Invocation.options? : Invocation → Option Options
  | .dump _ _ _ _ o => some o
  | .format _ _ o => some o
  | .init _ _ => none
  | .version => none
  | .help => none

/-! ## Values of options -/

theorem limit?_eq_some {t : Text} {n : Nat} (h : limit? t = some n) : 1 ≤ n ∧ n < UInt32.size := by
  rw [limit?] at h
  obtain ⟨m, -, h⟩ := Option.bind_eq_some_iff.mp h
  split at h
  · cases h
    assumption
  · cases h

theorem isChoice_of_indent? {t : Text} {i : Indent} (h : indent? t = some i) : i.isChoice = true := by
  rw [indent?] at h
  cases hp : Indent.parse t with
  | error e =>
    rw [hp] at h
    cases h
  | ok j =>
    rw [hp] at h
    cases h
    exact Config.isChoice_of_parse hp

/-- What options put over a configuration is within the ranges of its settings. -/
theorem isValid_overrides (a : Arguments) : (Options.ofArguments a).overrides.IsValid := by
  have hl : ∀ {name : Text} {n : Nat}, (a.value? name).bind limit? = some n → 0 < n ∧ n < UInt64.size := by
    intro name n hn
    obtain ⟨t, -, ht⟩ := Option.bind_eq_some_iff.mp hn
    have hr := limit?_eq_some ht
    exact ⟨hr.1, Nat.lt_trans hr.2 (by decide)⟩
  refine ⟨fun n hn => hl hn, fun n hn => hl hn, fun i hi => ?_, nofun⟩
  obtain ⟨t, -, ht⟩ := Option.bind_eq_some_iff.mp hi
  exact isChoice_of_indent? ht

variable {r : Readers}

theorem isValid_of_readConfigIfPresent {lookup : Text → Lookup} {path : Text} {c : Config}
    (h : readConfigIfPresent r lookup path = .ok c) : c.IsValid := by
  have hp : ∀ {t : Text}, Config.parseWith r.toml? path t = .ok c → c.IsValid := Config.isValid_of_parseWith
  unfold readConfigIfPresent at h
  split at h
  · cases h
    exact ⟨nofun, nofun, nofun, nofun⟩
  all_goals
    rename_i e
    rw [readConfig, e] at h
  · exact hp h
  · cases h

/-! ## Commands that write values -/

theorem options?_of_shortOptions {verbose : Bool} {t : Text} {i : Invocation}
    (h : Invocation.shortOptions verbose t = some (.inr i)) : i.options? = none := by
  induction t generalizing verbose with
  | nil => cases h
  | cons b rest ih =>
    rw [Invocation.shortOptions] at h
    split at h
    · cases h
      rfl
    split at h
    · cases h
      rfl
    split at h
    · exact ih h
    · cases h

theorem exists_of_ofCommand {name : Text} {args : List Text} {i : Invocation} {o : Options}
    (h : Invocation.ofCommand r name args = some i) (ho : i.options? = some o) :
    ∃ signature make a, (name, signature, make) ∈ Invocation.commands ∧ r.arguments signature args = .ok a ∧
      i = make a := by
  rw [Invocation.ofCommand] at h
  split at h
  · rename_i signature make hc
    split at h
    · rename_i a ha
      cases h
      exact ⟨signature, make, a, Association.mem_of_get?_eq_some hc, ha, rfl⟩
    · cases h
      cases ho
    · cases h
  · split at h
    · cases h
      cases ho
    · cases h

/-- An invocation that writes values is what one of the commands makes of the arguments behind its name. -/
theorem exists_of_parseFrom {verbose : Bool} {args : List Text} {i : Invocation} {o : Options}
    (h : Invocation.parseFrom r verbose args = some i) (ho : i.options? = some o) :
    ∃ front name rest signature make a, args = front ++ name :: rest ∧
      (name, signature, make) ∈ Invocation.commands ∧ r.arguments signature rest = .ok a ∧ i = make a := by
  induction args generalizing verbose with
  | nil => cases h
  | cons t rest ih =>
    have next : ∀ {verbose}, Invocation.parseFrom r verbose rest = some i →
        ∃ front name others signature make a, t :: rest = front ++ name :: others ∧
          (name, signature, make) ∈ Invocation.commands ∧ r.arguments signature others = .ok a ∧ i = make a := by
      intro verbose h
      obtain ⟨front, name, others, signature, make, a, rfl, hc⟩ := ih h
      exact ⟨t :: front, name, others, signature, make, a, rfl, hc⟩
    unfold Invocation.parseFrom at h
    split at h
    · cases h
      cases ho
    split at h
    · cases h
      cases ho
    split at h
    · split at h
      · cases h
      · exact next h
    split at h
    · split at h
      · exact next h
      · rename_i hs
        cases h
        rw [options?_of_shortOptions hs] at ho
        cases ho
      · cases h
    · obtain ⟨signature, make, a, hc⟩ := exists_of_ofCommand h ho
      exact ⟨[], _, rest, signature, make, a, rfl, hc⟩

/-- A command that writes values knows the options of the settings, and no two of its options have one name. -/
theorem ofArguments_of_options? {name : Text} {signature : Signature} {make : Arguments → Invocation} {a : Arguments}
    {o : Options} (hc : (name, signature, make) ∈ Invocation.commands) (ho : (make a).options? = some o) :
    o = .ofArguments a ∧ settingsOptions ⊆ signature.options ∧ (signature.options.map (·.long)).Nodup := by
  simp only [Invocation.commands, List.mem_cons, List.not_mem_nil, Prod.mk.injEq, or_false] at hc
  rcases hc with ⟨-, rfl, rfl⟩ | ⟨-, rfl, rfl⟩ | ⟨-, rfl, rfl⟩ | ⟨-, rfl, rfl⟩
  · cases ho
    exact ⟨rfl, List.subset_append_right _ _, by decide⟩
  · cases ho
    exact ⟨rfl, List.Subset.refl _, by decide⟩
  · cases ho
  · cases ho

/-! ## Choice of settings -/

/-- A value is what the text of an option is read as, or what the configuration makes it where there is no option, or
the default where neither is there. -/
def IsChosen {α : Type} (option : Option Text) (read : Text → Option α) (made : Option α) (default value : α) : Prop :=
  match option, made with
  | some t, _ => read t = some value
  | none, some made => value = made
  | none, none => value = default

/-- Settings are those that arguments and a configuration choose. -/
structure AreChosen (a : Arguments) (c : Config) (s : Settings) : Prop where
  maxDepth : IsChosen (a.value? (utf8 "max-depth")) limit? c.maxDepth 50 s.maxDepth
  wrapLength : IsChosen (a.value? (utf8 "wrap-length")) limit? c.wrapLength 120 s.wrapLength
  indent : IsChosen (a.value? (utf8 "indent")) indent? c.indent .tab s.indent
  factory : s.factory = c.factory.getD (utf8 "\\Nette\\PhpGenerator\\Dumper::createObject")

theorem isChosen_getD {α : Type} {option : Option Text} {read : Text → Option α} {made : Option α} {default : α}
    (h : ∀ t, option = some t → (read t).isSome = true) :
    IsChosen option read made default (((option.bind read).or made).getD default) := by
  cases option with
  | none => cases made <;> rfl
  | some t =>
    obtain ⟨value, hv⟩ := Option.isSome_iff_exists.mp (h t rfl)
    simp [IsChosen, hv]

/-- The settings of a configuration under what arguments put over it are those that both choose. -/
theorem areChosen_settings {signature : Signature} {a : Arguments} (c : Config) (ha : signature.Accepts a)
    (hs : settingsOptions ⊆ signature.options) (hn : (signature.options.map (·.long)).Nodup) :
    AreChosen a c (c.merge (Options.ofArguments a).overrides).settings where
  maxDepth := isChosen_getD fun _ ht => ha.accepts_value hn (hs (List.mem_of_getElem? (i := 1) rfl)) rfl ht
  wrapLength := isChosen_getD fun _ ht => ha.accepts_value hn (hs (List.mem_of_getElem? (i := 2) rfl)) rfl ht
  indent := isChosen_getD fun _ ht => ha.accepts_value hn (hs (List.mem_of_getElem? (i := 3) rfl)) rfl ht
  factory := rfl

/-- The program writes values only with settings that can be used, the ones that its arguments and the configuration
file choose, and else it reports that this file cannot be loaded. -/
theorem settings_of_parse (hr : r.AcceptArguments) {args : List Text} {i : Invocation} {o : Options} (w : World)
    (hi : Invocation.parse r args = some i) (ho : i.options? = some o) :
    ∃ front name rest signature make a, args = front ++ name :: rest ∧
      (name, signature, make) ∈ Invocation.commands ∧ r.arguments signature rest = .ok a ∧ i = make a ∧
      o.configPath = (a.value? (utf8 "config")).getD Config.fileName ∧
      ((∃ e, readConfigIfPresent r w.lookup o.configPath = .error e ∧
          ∀ work, withSettings r w o work = .fail (.config e)) ∨
        ∃ c s, readConfigIfPresent r w.lookup o.configPath = .ok c ∧ (∀ work, withSettings r w o work = work s) ∧
          s.IsValid ∧ AreChosen a c s) := by
  obtain ⟨front, name, rest, signature, make, a, rfl, hc, ha, rfl⟩ := exists_of_parseFrom hi ho
  obtain ⟨rfl, hs, hn⟩ := ofArguments_of_options? hc ho
  refine ⟨front, name, rest, signature, make, a, rfl, hc, ha, rfl, rfl, ?_⟩
  cases hl : readConfigIfPresent r w.lookup (Options.ofArguments a).configPath with
  | error e => exact .inl ⟨e, rfl, fun work => by rw [withSettings, Options.settings, hl]; rfl⟩
  | ok c =>
    refine .inr ⟨c, (c.merge (Options.ofArguments a).overrides).settings, rfl, fun work => ?_, ?_, ?_⟩
    · rw [withSettings, Options.settings, hl]
      rfl
    · exact ((isValid_of_readConfigIfPresent hl).merge (isValid_overrides a)).settings
    · exact areChosen_settings c (hr ha) hs hn

/-- A directory with a configuration file. -/
def configured : World := .ofTree [] [(Config.fileName, utf8 "[dumper]\nwrap_length = 80\nmax_depth = 3\n")]

/-- Options that make one setting of that file anew, and one that it leaves out. -/
def given : Options := ⟨Config.fileName, ⟨some 7, none, some (.spaces 2), none⟩⟩

theorem settings_of_parse_given :
    Invocation.parse .standard [utf8 "-v", utf8 "dump", utf8 "--max-depth=7", utf8 "--indent", utf8 "2"] =
        some (.dump none none 0 false given) ∧
      ∃ c s, readConfigIfPresent .standard configured.lookup Config.fileName = .ok c ∧
        (∀ work, withSettings .standard configured given work = work s) ∧ s.IsValid ∧
        (∀ work, withSettings .standard configured given work =
          work ⟨7, 80, .spaces 2, utf8 "\\Nette\\PhpGenerator\\Dumper::createObject"⟩) := by
  have hi : Invocation.parse .standard [utf8 "-v", utf8 "dump", utf8 "--max-depth=7", utf8 "--indent", utf8 "2"] =
      some (.dump none none 0 false given) := by rfl
  have hr : readConfigIfPresent .standard configured.lookup Config.fileName = .ok ⟨some 3, some 80, none, none⟩ := by
    rfl
  obtain ⟨_, _, _, _, _, _, _, _, _, _, _, ⟨e, he, -⟩ | ⟨c, s, hc, hs, hv, -⟩⟩ :=
    settings_of_parse Readers.areSound_standard.arguments configured hi rfl
  · rw [show given.configPath = Config.fileName from rfl, hr] at he
    cases he
  · exact ⟨hi, c, s, hc, hs, hv, fun work => rfl⟩

end PhpLiteral.Command
