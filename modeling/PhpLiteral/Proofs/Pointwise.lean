import Mathlib.Data.List.Forall2

/-!
# Lists side by side

Lists whose elements are related one by one (`List.Forall₂`). The list of all values of a partial function is such a list
beside that of the arguments (`mapM_eq_some_iff`).
-/

namespace PhpLiteral

variable {α β γ : Type} {R Q : α → β → Prop} {as : List α} {bs : List β}

theorem isEmpty_eq_of_forall₂ (h : List.Forall₂ R as bs) : bs.isEmpty = as.isEmpty := by
  cases h <;> rfl

theorem forall₂_imp_of_mem (h : List.Forall₂ R as bs) (hq : ∀ {a b}, a ∈ as → b ∈ bs → R a b → Q a b) :
    List.Forall₂ Q as bs := by
  induction h with
  | nil => exact .nil
  | cons hab _ ih =>
    exact .cons (hq List.mem_cons_self List.mem_cons_self hab)
      (ih fun ha hb => hq (List.mem_cons_of_mem _ ha) (List.mem_cons_of_mem _ hb))

theorem exists_of_mem_right (h : List.Forall₂ R as bs) {b : β} (hb : b ∈ bs) : ∃ a ∈ as, R a b := by
  induction h with
  | nil => cases hb
  | cons hab _ ih =>
    rcases List.mem_cons.mp hb with rfl | hb
    · exact ⟨_, List.mem_cons_self, hab⟩
    · obtain ⟨a, ha, hr⟩ := ih hb
      exact ⟨a, List.mem_cons_of_mem _ ha, hr⟩

/-- What stands beside an element stands beside the one that is related to it. -/
theorem exists_of_mem_zip (h : List.Forall₂ R as bs) {cs : List γ} {p : α × γ} (hp : p ∈ as.zip cs) :
    ∃ b, R p.1 b ∧ (b, p.2) ∈ bs.zip cs := by
  induction h generalizing cs with
  | nil => cases hp
  | cons hab _ ih =>
    cases cs with
    | nil => cases hp
    | cons c cs =>
      rw [List.zip_cons_cons] at hp ⊢
      rcases List.mem_cons.mp hp with rfl | hp
      · exact ⟨_, hab, List.mem_cons_self⟩
      · obtain ⟨b, hb, hm⟩ := ih hp
        exact ⟨b, hb, List.mem_cons_of_mem _ hm⟩

/-! ## Partial functions -/

variable {f : α → Option β}

theorem mapM_eq_some_iff : as.mapM f = some bs ↔ List.Forall₂ (fun a b => f a = some b) as bs := by
  induction as generalizing bs with
  | nil => simp [eq_comm]
  | cons a as ih =>
    simp only [List.mapM_cons, Option.bind_eq_bind, Option.pure_def, Option.bind_eq_some_iff, Option.some.injEq, ih,
      List.forall₂_cons_left_iff]
    constructor
    · rintro ⟨b, hb, more, hm, rfl⟩
      exact ⟨b, more, hb, hm, rfl⟩
    · rintro ⟨b, more, hb, hm, rfl⟩
      exact ⟨b, hb, more, hm, rfl⟩

theorem isSome_mapM_iff : (as.mapM f).isSome = true ↔ ∀ a ∈ as, (f a).isSome = true := by
  induction as with
  | nil => simp
  | cons a as ih =>
    rw [List.forall_mem_cons, ← ih, List.mapM_cons]
    cases f a <;> cases as.mapM f <;> simp

end PhpLiteral
