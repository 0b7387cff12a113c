import PhpLiteral.Proofs.Simulation

/-!
# The sums behind a text

A machine that adds as great numbers as there are, and lists all sums (`Machine.measuring`). What the other machines
make of a value follows from its outcome: the one that counts in 64 bits stops exactly if a sum leaves them, and the
exact one does not look at the sums.

* `render_eq_checked`, `renderWith_exact_eq_result`: the outcomes of the other machines;
* `Value.sums`, `InRange`: the sums that are computed for a value, and whether all of them stay within 64 bits.
-/

namespace PhpLiteral

/-! ## Results -/

section

variable {ε α β γ : Type}

theorem map_eq_ok {f : α → β} {x : Except ε α} {b : β} : x.map f = .ok b ↔ ∃ a, x = .ok a ∧ f a = b := by
  cases x <;> simp [Except.map]

theorem map_eq_error {f : α → β} {x : Except ε α} {e : ε} : x.map f = .error e ↔ x = .error e := by
  cases x <;> simp [Except.map]

theorem mapError_eq_ok {ε' : Type} {f : ε → ε'} {x : Except ε α} {a : α} : x.mapError f = .ok a ↔ x = .ok a := by
  cases x with
  | error e => exact ⟨nofun, nofun⟩
  | ok b => exact ⟨fun h => by cases h; rfl, fun h => by cases h; rfl⟩

theorem map_map (f : α → β) (g : β → γ) (x : Except ε α) : (x.map f).map g = x.map fun a => g (f a) := by
  cases x <;> rfl

theorem bind_eq_ok {x : Except ε α} {f : α → Except ε β} {b : β} : x >>= f = .ok b ↔ ∃ a, x = .ok a ∧ f a = .ok b := by
  cases x <;> simp [bind, Except.bind]

/-- What follows a result gives another one. -/
theorem map_bind {x : Except ε α} {f : α → β} {g : β → Except ε γ} {h : α → γ}
    (hg : ∀ a, x = .ok a → g (f a) = .ok (h a)) : x.map f >>= g = x.map h := by
  cases x with
  | error e => rfl
  | ok a => exact hg a rfl

end

/-! ## Measured results -/

/-- A result, or the error behind it, with the sums that have been computed. -/
structure Measured (α : Type) where
  sums : List Nat
  result : Except DumpError α

namespace Measured

variable {α β : Type}

instance : Monad Measured where
  pure a := ⟨[], .ok a⟩
  bind x f :=
    match x.result with
    | .ok a => ⟨x.sums ++ (f a).sums, (f a).result⟩
    | .error e => ⟨x.sums, .error e⟩

/-- What counting in 64 bits makes of a result. -/
def checked (x : Measured α) : Except Stop α :=
  if ∀ n ∈ x.sums, n < UInt64.size then x.result.mapError .error else .error .overflow

theorem bind_of_ok {x : Measured α} {a : α} (h : x.result = .ok a) (f : α → Measured β) :
    x >>= f = ⟨x.sums ++ (f a).sums, (f a).result⟩ := by
  obtain ⟨sums, result⟩ := x
  subst h
  rfl

theorem bind_of_error {x : Measured α} {e : DumpError} (h : x.result = .error e) (f : α → Measured β) :
    x >>= f = ⟨x.sums, .error e⟩ := by
  obtain ⟨sums, result⟩ := x
  subst h
  rfl

theorem result_bind (x : Measured α) (f : α → Measured β) : (x >>= f).result = x.result >>= fun a => (f a).result := by
  cases h : x.result with
  | error e => rw [bind_of_error h]; rfl
  | ok a => rw [bind_of_ok h]; rfl

theorem checked_bind (x : Measured α) (f : α → Measured β) :
    (x >>= f).checked = x.checked >>= fun a => (f a).checked := by
  cases h : x.result with
  | error e =>
    rw [bind_of_error h, checked, checked, h]
    split <;> rfl
  | ok a =>
    rw [bind_of_ok h]
    simp only [checked, List.forall_mem_append, h]
    by_cases hx : ∀ n ∈ x.sums, n < UInt64.size
    · rw [if_pos hx]
      exact if_congr (and_iff_right hx) rfl rfl
    · rw [if_neg hx, if_neg fun hb => hx hb.1]
      rfl

theorem checked_eq_ok {x : Measured α} {a : α} :
    x.checked = .ok a ↔ (∀ n ∈ x.sums, n < UInt64.size) ∧ x.result = .ok a := by
  rw [checked]
  split
  · rename_i h
    rw [mapError_eq_ok]
    exact (and_iff_right h).symm
  · rename_i h
    exact ⟨nofun, fun hx => absurd hx.1 h⟩

end Measured

/-! ## The machine -/

/-- Sums of any size, which are listed. -/
def Machine.measuring : Machine Measured where
  sum n := ⟨[n], .ok n⟩
  fail e := ⟨[], .error e⟩

theorem relates_checked : Machine.measuring.Relates .checked fun _ x y => x.checked = y where
  pure _ := rfl
  bind {_ _ x _ f _} h hf := by rw [Measured.checked_bind, h, funext hf]
  sum k := by
    simp only [Machine.measuring, Machine.checked, Measured.checked, List.forall_mem_singleton]
    rfl
  fail _ := rfl

theorem relates_exact : Machine.measuring.Relates .exact fun _ x y => x.result = y where
  pure _ := rfl
  bind {_ _ x _ f _} h hf := by rw [Measured.result_bind, h, funext hf]
  sum _ := rfl
  fail _ := rfl

section

variable {m n : Type → Type} [Monad m] [Monad n] {M : Machine m} {N : Machine n} {R : (α : Type) → m α → n α → Prop}

/-- Every value stands beside itself. -/
theorem sideBySide_self (heap : Heap) (maxDepth : Nat) (p : Place) (v : Value) :
    SideBySide (fun q w q' w' => q = q' ∧ w = w') False heap heap maxDepth maxDepth p p v v := by
  have hs : ∀ (q : Place) (ws : List Value), List.Forall₂ (fun w w' => q = q ∧ w = w') ws ws :=
    fun q ws => List.forall₂_same.mpr fun w _ => ⟨rfl, rfl⟩
  cases v with
  | atom a => exact .atom a
  | array id => exact .array rfl ⟨fun ha => ⟨ha, rfl, hs _ _⟩, .inl⟩
  | object id => exact .object rfl ⟨fun ha => ⟨ha, ⟨rfl, rfl⟩, hs _ _⟩, .inl⟩
  | literal code args => exact .literal code (hs _ _)
  | capturing => exact .capturing
  | resource kind => exact .resource kind

/-- A relation of outcomes that holds of what two machines do holds of what they make of a value. -/
theorem Machine.Relates.related (hR : M.Relates N R) (s : Settings) (heap : Heap) (p : Place) (v : Value) :
    Related M N R s s.maxDepth heap heap p v p v :=
  renderWith_related hR (B := fun q w q' w' => q = q' ∧ w = w') False.elim
    (by rintro q w _ _ ⟨rfl, rfl⟩; exact sideBySide_self heap s.maxDepth q w) ⟨rfl, rfl⟩

theorem Machine.Relates.forall₂_related (hR : M.Relates N R) (s : Settings) (heap : Heap) (p : Place)
    (vs : List Value) : List.Forall₂ (fun v v' => Related M N R s s.maxDepth heap heap p v p v') vs vs :=
  List.forall₂_same.mpr fun v _ => hR.related s heap p v

end

/-! ## The other machines -/

variable {s : Settings} {heap : Heap} {chain : List Ref}

theorem render_eq_checked (f : Frame) (v : Value) :
    v.render s heap chain f = (v.renderWith .measuring s heap chain f).checked :=
  ((relates_checked.related s heap ⟨f.depth, chain⟩ v).render f.level f.column).symm

theorem renderWith_exact_eq_result (f : Frame) (v : Value) :
    v.renderWith .exact s heap chain f = (v.renderWith .measuring s heap chain f).result :=
  ((relates_exact.related s heap ⟨f.depth, chain⟩ v).render f.level f.column).symm

theorem renderSlot_eq_checked (depth column : Nat) (placeholder : Placeholder) (v : Value) :
    renderSlot s heap chain depth column placeholder v =
      (renderSlotWith .measuring s heap chain depth column placeholder v).checked :=
  ((relates_checked.related s heap ⟨depth, chain⟩ v).slot column placeholder).symm

theorem exact_of_render {f : Frame} {v : Value} {text : Text} (h : v.render s heap chain f = .ok text) :
    v.renderWith .exact s heap chain f = .ok text := by
  rw [render_eq_checked, Measured.checked_eq_ok] at h
  rw [renderWith_exact_eq_result, h.2]

/-! ## Sums -/

/-- The sums that are computed while a value is written behind a column. -/
def Value.sums (s : Settings) (heap : Heap) (column : Nat) (v : Value) : List Nat :=
  (v.renderWith .measuring s heap [] ⟨0, 0, column⟩).sums

/-- No sum that is computed while a value is written behind a column leaves 64 bits. -/
def InRange (s : Settings) (heap : Heap) (v : Value) (column : Nat) : Prop :=
  ∀ n ∈ v.sums s heap column, n < UInt64.size

instance (s : Settings) (heap : Heap) (v : Value) (column : Nat) : Decidable (InRange s heap v column) :=
  inferInstanceAs (Decidable (∀ n ∈ v.sums s heap column, n < UInt64.size))

/-- A value is written as by the exact machine if all sums stay within 64 bits, and else the program is aborted. -/
theorem dump_eq_if (v : Value) (column : Nat) : dump s heap v column =
    if InRange s heap v column then (v.renderWith .exact s heap [] ⟨0, 0, column⟩).mapError .error
    else .error .overflow := by
  rw [dump, render_eq_checked, renderWith_exact_eq_result, Measured.checked]
  rfl

end PhpLiteral
