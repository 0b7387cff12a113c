import Mathlib.Data.List.Nodup
import PhpLiteral.Command.Arguments
import PhpLiteral.Proofs.Render

/-!
# Arguments that are read

Whatever a list of arguments is read as, every option in it is one of the signature, with a value that the option takes
(`Signature.accepts_of_read`). One argument keeps this, and with it that the option whose value is still to come is one
of the signature (`Signature.Expects`).
-/

namespace PhpLiteral.Command.Signature

/-- An option of the signature takes a value, or it takes none. -/
def Takes (s : Signature) (long value : Text) : Prop :=
  ∃ o ∈ s.options, o.long = long ∧ ∀ accepts, o.accepts = some accepts → accepts value = true

/-- All options that have been read are taken. -/
def Accepts (s : Signature) (a : Arguments) : Prop := ∀ p ∈ a.options, s.Takes p.1 p.2

/-- All options that have been read are taken, and the one whose value is to come is known. -/
def Expects (s : Signature) (a : Arguments) (pending : Option OptionKind) : Prop :=
  s.Accepts a ∧ ∀ o ∈ pending, o ∈ s.options

variable {s : Signature} {a a' : Arguments}

theorem Accepts.expects (h : s.Accepts a) : s.Expects a none := ⟨h, nofun⟩

theorem mem_options_of_long? {name : Text} {o : OptionKind} (h : s.long? name = some o) : o ∈ s.options :=
  List.mem_of_find?_eq_some h

theorem mem_options_of_short? {name : UInt8} {o : OptionKind} (h : s.short? name = some o) : o ∈ s.options :=
  List.mem_of_find?_eq_some h

/-! ## One argument -/

theorem Accepts.addOption (h : s.Accepts a) {o : OptionKind} (ho : o ∈ s.options) {value : Text}
    (hr : Signature.addOption a o value = .ok a') : s.Accepts a' := by
  rw [Signature.addOption] at hr
  split at hr
  · cases hr
  rename_i hn
  cases hr
  rw [Accepts, List.forall_mem_append, List.forall_mem_singleton]
  refine ⟨h, o, ho, rfl, fun accepts he => ?_⟩
  rw [he] at hn
  simp only [Option.any_some, Bool.or_eq_true, Bool.not_eq_true', not_or, Bool.not_eq_false] at hn
  exact hn.2

theorem Accepts.addOther (h : s.Accepts a) {value : Text} (hr : s.addOther a value = .ok a') : s.Accepts a' := by
  rw [Signature.addOther] at hr
  split at hr <;> split at hr <;> cases hr <;> exact h

theorem Accepts.addLong (h : s.Accepts a) {t : Text} {pending : Option OptionKind}
    (hr : s.addLong a t = .ok (a', pending)) : s.Expects a' pending := by
  unfold Signature.addLong at hr
  dsimp only at hr
  generalize t.takeWhile (· != Ascii.equals) = name at hr
  generalize (if name.length < t.length then some (t.drop (name.length + 1)) else none) = value? at hr
  split at hr
  · cases hr
  split at hr
  · rename_i o value ho _
    split at hr
    · cases hr
    · obtain ⟨b, hb, he⟩ := map_eq_ok.mp hr
      cases he
      exact (h.addOption (mem_options_of_long? ho) hb).expects
  · rename_i o ho _
    split at hr
    · obtain ⟨b, hb, he⟩ := map_eq_ok.mp hr
      cases he
      exact (h.addOption (mem_options_of_long? ho) hb).expects
    · cases hr
      exact ⟨h, fun o' he => Option.some.inj he ▸ mem_options_of_long? ho⟩
  · cases hr

theorem Accepts.addShort {t : Text} {pending : Option OptionKind} (h : s.Accepts a)
    (hr : s.addShort a t = .ok (a', pending)) : s.Expects a' pending := by
  induction t generalizing a with
  | nil =>
    cases hr
    exact h.expects
  | cons b rest ih =>
    rw [Signature.addShort] at hr
    split at hr
    · cases hr
    split at hr
    · cases hr
    rename_i o ho
    have hm := mem_options_of_short? ho
    split at hr
    · split at hr
      · rename_i hb
        exact ih (h.addOption hm hb) hr
      · cases hr
    split at hr
    · cases hr
      exact ⟨h, fun o' he => Option.some.inj he ▸ hm⟩
    · obtain ⟨c, hc, he⟩ := map_eq_ok.mp hr
      cases he
      exact (h.addOption hm hc).expects

/-! ## All arguments -/

theorem Expects.readFrom {pending : Option OptionKind} {literal : Bool} {args : List Text} (h : s.Expects a pending)
    (hr : s.readFrom a pending literal args = .ok a') : s.Accepts a' := by
  induction args generalizing a pending literal with
  | nil =>
    rw [Signature.readFrom] at hr
    split at hr
    · cases hr
    · cases hr
      exact h.1
  | cons t rest ih =>
    unfold Signature.readFrom at hr
    split at hr
    · obtain ⟨b, hb, hr⟩ := bind_eq_ok.mp hr
      exact ih (h.1.addOther hb).expects hr
    split at hr
    · split at hr
      · cases hr
      · exact ih h.1.expects hr
    · split at hr
      · cases hr
      · obtain ⟨⟨b, p⟩, hb, hr⟩ := bind_eq_ok.mp hr
        exact ih (h.1.addLong hb) hr
    dsimp only at hr
    split at hr
    · split at hr
      · cases hr
      · obtain ⟨⟨b, p⟩, hb, hr⟩ := bind_eq_ok.mp hr
        exact ih (h.1.addShort hb) hr
    split at hr
    · obtain ⟨b, hb, hr⟩ := bind_eq_ok.mp hr
      exact ih (h.1.addOption (h.2 _ rfl) hb).expects hr
    · obtain ⟨b, hb, hr⟩ := bind_eq_ok.mp hr
      exact ih (h.1.addOther hb).expects hr

/-- Every option that is read is one of the signature, with a value that it takes. -/
theorem accepts_of_read {args : List Text} (h : s.read args = .ok a) : s.Accepts a := by
  rw [read] at h
  obtain ⟨b, hb, h⟩ := bind_eq_ok.mp h
  split at h
  · cases h
  · cases h
    have he : s.Accepts ⟨[], []⟩ := fun _ hm => absurd hm List.not_mem_nil
    exact show s.Accepts b from he.expects.readFrom hb

/-- The value of an option is one that the option takes, as no two options have one name. -/
theorem Accepts.accepts_value {o : OptionKind} {accepts : Text → Bool} {value : Text} (h : s.Accepts a)
    (hn : (s.options.map (·.long)).Nodup) (ho : o ∈ s.options) (ha : o.accepts = some accepts)
    (hv : a.value? o.long = some value) : accepts value = true := by
  obtain ⟨k, hk, hl, hk'⟩ := h _ (Association.mem_of_get?_eq_some hv)
  obtain rfl : k = o := List.inj_on_of_nodup_map hn hk ho hl
  exact hk' accepts ha

end PhpLiteral.Command.Signature
