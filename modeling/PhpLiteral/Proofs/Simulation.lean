import PhpLiteral.Dump
import PhpLiteral.Proofs.Holds
import PhpLiteral.Proofs.Pointwise

/-!
# Rendering two values side by side

Two values, each at a place of its own, are rendered side by side: by two machines, in two heaps, under two greatest
depths. If the values are the same but for the values inside them, which are related again (`SideBySide`), then every
relation of outcomes that holds of what the machines do (`Machine.Relates`) holds of the outcomes (`renderWith_related`).
-/

namespace PhpLiteral

/-! ## Outcomes -/

/-- A relation between the outcomes of two machines that holds of all that they do, and is kept by doing one thing after
another. -/
structure Machine.Relates {m n : Type → Type} [Monad m] [Monad n] (M : Machine m) (N : Machine n)
    (R : (α : Type) → m α → n α → Prop) : Prop where
  pure {α : Type} (a : α) : R α (pure a) (pure a)
  bind {α β : Type} {x : m α} {y : n α} {f : α → m β} {g : α → n β} :
    R α x y → (∀ a, R β (f a) (g a)) → R β (x >>= f) (y >>= g)
  sum (k : Nat) : R Nat (M.sum k) (N.sum k)
  fail {α : Type} (e : DumpError) : R α (M.fail e) (N.fail e)

theorem relates_eq {m : Type → Type} [Monad m] (M : Machine m) : M.Relates M fun _ x y => x = y where
  pure _ := rfl
  bind h hf := by rw [h, funext hf]
  sum _ := rfl
  fail _ := rfl

/-! ## Places -/

/-- How deep a value stands, and the containers that enclose it. -/
structure Place where
  depth : Nat := 0
  chain : List Ref := []

namespace Place

/-- The place of what a container holds that stands at a place. -/
def inside (p : Place) (r : Ref) : Place := ⟨p.depth + 1, r :: p.chain⟩

/-- The place of the arguments of raw code that stands at a place. -/
def below (p : Place) : Place := ⟨p.depth + 1, p.chain⟩

/-- Whether a container may be entered at a place. -/
abbrev Allows (p : Place) (maxDepth : Nat) (r : Ref) : Prop := p.depth ≤ maxDepth ∧ r ∉ p.chain

end Place

/-- What is found in two containers that may be entered or not: if the first one may, then so may the second one, and
they are the `same`; if the second one may, then so may the first one, unless it may be `nested` too deep. -/
structure Entered (nested enter enter' same : Prop) : Prop where
  same : enter → enter' ∧ same
  back : enter' → enter ∨ nested

/-- Two values at places of two heaps are the same but for the values inside them, which are in a relation `B`. -/
inductive SideBySide (B : Place → Value → Place → Value → Prop) (nested : Prop) (heap heap' : Heap)
    (maxDepth maxDepth' : Nat) (p p' : Place) : Value → Value → Prop
  | atom (a : Atom) : SideBySide B nested heap heap' maxDepth maxDepth' p p' (.atom a) (.atom a)
  | array {id id' : Nat} :
    (heap'.array id').values.isEmpty = (heap.array id).values.isEmpty →
    Entered nested (p.Allows maxDepth (.array id)) (p'.Allows maxDepth' (.array id'))
      ((heap'.array id').keys = (heap.array id).keys ∧
        List.Forall₂ (fun w w' => B (p.inside (.array id)) w (p'.inside (.array id')) w') (heap.array id).values
          (heap'.array id').values) →
    SideBySide B nested heap heap' maxDepth maxDepth' p p' (.array id) (.array id')
  | object {id id' : Nat} :
    (heap'.object id').isAnonymous = (heap.object id).isAnonymous →
    Entered nested (p.Allows maxDepth (.object id)) (p'.Allows maxDepth' (.object id'))
      (((heap'.object id').className = (heap.object id).className ∧
          (heap'.object id').keptNames = (heap.object id).keptNames) ∧
        List.Forall₂ (fun w w' => B (p.inside (.object id)) w (p'.inside (.object id')) w') (heap.object id).keptValues
          (heap'.object id').keptValues) →
    SideBySide B nested heap heap' maxDepth maxDepth' p p' (.object id) (.object id')
  | literal (code : Text) {args args' : List Value} :
    List.Forall₂ (fun w w' => B p.below w p'.below w') args args' →
    SideBySide B nested heap heap' maxDepth maxDepth' p p' (.literal code args) (.literal code args')
  | capturing : SideBySide B nested heap heap' maxDepth maxDepth' p p' .capturing .capturing
  | resource (kind : Text) : SideBySide B nested heap heap' maxDepth maxDepth' p p' (.resource kind) (.resource kind)

/-! ## What containers hold -/

theorem mem_refs_of_mem_values {heap : Heap} {id : Nat} {w : Value} (h : w ∈ (heap.array id).values) :
    .array id ∈ heap.refs := by
  refine Decidable.byContradiction fun hr => ?_
  rw [Heap.values_array_of_not_mem hr] at h
  cases h

theorem mem_refs_of_mem_keptValues {heap : Heap} {id : Nat} {w : Value} (h : w ∈ (heap.object id).keptValues) :
    .object id ∈ heap.refs := by
  refine Decidable.byContradiction fun hr => ?_
  rw [Heap.keptValues_object_of_not_mem hr] at h
  cases h

/-! ## Values side by side -/

namespace SideBySide

variable {B : Place → Value → Place → Value → Prop} {nested : Prop} {heap heap' : Heap} {maxDepth maxDepth' : Nat}
  {p p' : Place} {v v' : Value}

theorem kind_eq (h : SideBySide B nested heap heap' maxDepth maxDepth' p p' v v') : v'.kind = v.kind := by
  cases h <;> rfl

theorem memberName?_eq (h : SideBySide B nested heap heap' maxDepth maxDepth' p p' v v') :
    memberName? v' = memberName? v := by
  cases h <;> rfl

/-- The values inside are at places where fewer containers are left, or are smaller. -/
theorem imp_of_lt {C : Place → Value → Place → Value → Prop}
    (h : SideBySide B nested heap heap' maxDepth maxDepth' p p' v v')
    (hC : ∀ {q : Place} {w : Value} {q' : Place} {w' : Value},
      Prod.Lex (· < ·) (· < ·) (heap.remaining q.chain, sizeOf w) (heap.remaining p.chain, sizeOf v) →
        B q w q' w' → C q w q' w') :
    SideBySide C nested heap heap' maxDepth maxDepth' p p' v v' := by
  cases h with
  | atom a => exact .atom a
  | array he hc =>
    refine .array he ⟨fun ha => ?_, hc.back⟩
    obtain ⟨ha', hk, hs⟩ := hc.same ha
    exact ⟨ha', hk, forall₂_imp_of_mem hs fun hm _ hw =>
      hC (.left _ _ (Heap.remaining_cons_lt (mem_refs_of_mem_values hm) ha.2)) hw⟩
  | object he hc =>
    refine .object he ⟨fun ha => ?_, hc.back⟩
    obtain ⟨ha', hk, hs⟩ := hc.same ha
    exact ⟨ha', hk, forall₂_imp_of_mem hs fun hm _ hw =>
      hC (.left _ _ (Heap.remaining_cons_lt (mem_refs_of_mem_keptValues hm) ha.2)) hw⟩
  | literal code hs =>
    exact .literal code (forall₂_imp_of_mem hs fun hm _ hw => hC (.right _ (sizeOf_lt_literal hm)) hw)
  | capturing => exact .capturing
  | resource kind => exact .resource kind

end SideBySide

/-! ## Lists of arguments -/

/-- Whether a placeholder takes the entries of an array as a list of arguments. -/
def Placeholder.isSpread : Placeholder → Bool
  | .spread => true
  | .starSpread => true
  | .namedSpread => true
  | _ => false

section

variable {m : Type → Type} [Monad m] {placeholder : Placeholder} (hp : placeholder.isSpread = true) (M : Machine m)
  (s : Settings) (heap : Heap) (chain : List Ref) (depth column : Nat)

include hp

theorem renderSlotWith_arguments (id : Nat) :
    renderSlotWith M s heap chain depth column placeholder (.array id) =
      if depth ≤ s.maxDepth ∧ .array id ∉ chain then do
        let labels := (heap.array id).keys.map (argumentLabel (placeholder == .namedSpread))
        let inline ← renderInlineWith M s heap (.array id :: chain) ⟨0, depth, column⟩ false 0 labels
          (heap.array id).values
        if ← M.keepsArguments s column (heap.array id).values.length inline then return inline
        else
          let lines ← renderLinesWith M s heap (.array id :: chain) ⟨0, depth, column⟩ (argumentLines s) labels
            (heap.array id).values
          return lines ++ utf8 "\n"
      else M.fail .recursion := by
  cases placeholder with
  | value => cases hp
  | member connective => cases hp
  | spread => rw [renderSlotWith] <;> simp
  | starSpread => rw [renderSlotWith] <;> simp
  | namedSpread => rw [renderSlotWith] <;> simp

theorem renderSlotWith_of_ne_array {v : Value} (hv : v.kind ≠ .array) :
    renderSlotWith M s heap chain depth column placeholder v = M.fail (.invalidArgument placeholder v.kind) := by
  have hn : ∀ id, v ≠ .array id := by
    rintro id rfl
    exact hv rfl
  cases placeholder with
  | value => cases hp
  | member connective => cases hp
  | spread => rw [renderSlotWith] <;> simp [hn]
  | starSpread => rw [renderSlotWith] <;> simp [hn]
  | namedSpread => rw [renderSlotWith] <;> simp [hn]

end

/-! ## Side by side -/

section

variable {m n : Type → Type} [Monad m] [Monad n] {M : Machine m} {N : Machine n}
  {R : (α : Type) → m α → n α → Prop}

omit [Monad m] [Monad n] in
theorem related_ite {α : Type} {p : Prop} [Decidable p] {x x' : m α} {y y' : n α} (h : p → R α x y)
    (h' : ¬ p → R α x' y') : R α (if p then x else x') (if p then y else y') := by
  split
  · rename_i hp
    exact h hp
  · rename_i hp
    exact h' hp

section

variable (hR : M.Relates N R)

include hR

/-- Containers are entered side by side, or the first one is too deep, which is in relation to anything. -/
theorem Machine.Relates.enter {α : Type} {nested enter enter' same : Prop} [Decidable enter] [Decidable enter']
    (hn : nested → ∀ y : n α, R α (M.fail .recursion) y) (he : Entered nested enter enter' same) {x : m α} {y : n α}
    (h : enter → same → R α x y) :
    R α (if enter then x else M.fail .recursion) (if enter' then y else N.fail .recursion) := by
  by_cases hp : enter
  · rw [if_pos hp, if_pos (he.same hp).1]
    exact h hp (he.same hp).2
  · rw [if_neg hp]
    by_cases hq : enter'
    · exact hn ((he.back hq).resolve_left hp) _
    · rw [if_neg hq]
      exact hR.fail _

theorem Machine.Relates.keepsArray (s : Settings) (maxDepth level column : Nat) (inline : Text) :
    R Bool (M.keepsArray s level column inline) (N.keepsArray { s with maxDepth } level column inline) :=
  hR.bind (hR.sum _) fun _ => hR.pure _

theorem Machine.Relates.keepsArguments (s : Settings) (maxDepth column count : Nat) (inline : Text) :
    R Bool (M.keepsArguments s column count inline) (N.keepsArguments { s with maxDepth } column count inline) :=
  related_ite (fun _ => hR.pure _) fun _ => hR.bind (hR.sum _) fun _ => hR.pure _

end

variable (M N R) (s : Settings) (maxDepth : Nat) (heap heap' : Heap)

/-- Two values at places are rendered with related outcomes, on any level and at any column, and so are the places of a
template that they fill. -/
structure Related (p : Place) (v : Value) (p' : Place) (v' : Value) : Prop where
  render (level column : Nat) : R Text (v.renderWith M s heap p.chain ⟨level, p.depth, column⟩)
    (v'.renderWith N { s with maxDepth } heap' p'.chain ⟨level, p'.depth, column⟩)
  slot (column : Nat) (placeholder : Placeholder) :
    R Text (renderSlotWith M s heap p.chain p.depth column placeholder v)
      (renderSlotWith N { s with maxDepth } heap' p'.chain p'.depth column placeholder v')

variable {M N R s maxDepth heap heap'} (hR : M.Relates N R)

include hR

/-! ### Values in order -/

section

variable {p p' : Place} {r r' : Ref} {vs vs' : List Value}
  (h : List.Forall₂ (fun v v' => Related M N R s maxDepth heap heap' (p.inside r) v (p'.inside r') v') vs vs')

include h

theorem renderInlineWith_related (level column : Nat) (counted : Bool) (offset : Nat) (labels : List Text) :
    R Text (renderInlineWith M s heap (r :: p.chain) ⟨level, p.depth, column⟩ counted offset labels vs)
      (renderInlineWith N { s with maxDepth } heap' (r' :: p'.chain) ⟨level, p'.depth, column⟩ counted offset labels
        vs') := by
  induction h generalizing offset labels with
  | nil =>
    rw [renderInlineWith, renderInlineWith]
    · exact hR.pure _
    all_goals simp
  | cons hv _ ih =>
    cases labels with
    | nil =>
      rw [renderInlineWith, renderInlineWith]
      · exact hR.pure _
      all_goals simp
    | cons label labels =>
      rw [renderInlineWith, renderInlineWith]
      exact hR.bind (hR.sum _) fun _ => hR.bind (hv.render 0 _) fun _ => hR.bind (ih _ labels) fun _ => hR.pure _

theorem renderLinesWith_related (level column : Nat) (style : LineStyle) (labels : List Text) :
    R Text (renderLinesWith M s heap (r :: p.chain) ⟨level, p.depth, column⟩ style labels vs)
      (renderLinesWith N { s with maxDepth } heap' (r' :: p'.chain) ⟨level, p'.depth, column⟩ style labels vs') := by
  induction h generalizing labels with
  | nil =>
    rw [renderLinesWith, renderLinesWith]
    · exact hR.pure _
    all_goals simp
  | cons hv _ ih =>
    cases labels with
    | nil =>
      rw [renderLinesWith, renderLinesWith]
      · exact hR.pure _
      all_goals simp
    | cons label labels =>
      rw [renderLinesWith, renderLinesWith]
      exact hR.bind (hv.render _ _) fun _ => hR.bind (ih labels) fun _ => hR.pure _

end

theorem renderSlotsWith_related {p p' : Place} {vs vs' : List Value}
    (h : List.Forall₂ (fun v v' => Related M N R s maxDepth heap heap' p v p' v') vs vs') (column : Nat)
    (slots : List (Placeholder × Text)) :
    R Text (renderSlotsWith M s heap p.chain p.depth column slots vs)
      (renderSlotsWith N { s with maxDepth } heap' p'.chain p'.depth column slots vs') := by
  induction h generalizing slots column with
  | nil =>
    cases slots with
    | nil =>
      rw [renderSlotsWith, renderSlotsWith]
      exact hR.pure _
    | cons place slots =>
      rw [renderSlotsWith, renderSlotsWith]
      exact hR.fail _
  | @cons v v' vs vs' hv hs ih =>
    cases slots with
    | nil =>
      have hl : (v' :: vs').length = (v :: vs).length := by
        rw [List.length_cons, List.length_cons, hs.length_eq]
      rw [renderSlotsWith, renderSlotsWith, hl]
      · exact hR.fail _
      all_goals simp
    | cons place slots =>
      obtain ⟨placeholder, after⟩ := place
      rw [renderSlotsWith, renderSlotsWith]
      exact hR.bind (hv.slot _ _) fun _ => hR.bind (ih _ _) fun _ => hR.pure _

/-! ### Values -/

theorem renderWith_related_of_sideBySide {nested : Prop}
    (hn : nested → ∀ (α : Type) (y : n α), R α (M.fail .recursion) y) {p p' : Place} {v v' : Value}
    (h : SideBySide (Related M N R s maxDepth heap heap') nested heap heap' s.maxDepth maxDepth p p' v v')
    (level column : Nat) :
    R Text (v.renderWith M s heap p.chain ⟨level, p.depth, column⟩)
      (v'.renderWith N { s with maxDepth } heap' p'.chain ⟨level, p'.depth, column⟩) := by
  cases h with
  | atom a =>
    rw [Value.renderWith, Value.renderWith]
    exact hR.pure _
  | @array id id' he hc =>
    rw [Value.renderWith, Value.renderWith, he]
    refine related_ite (fun _ => hR.pure _) fun _ => hR.enter (fun hs => hn hs Text) hc fun _ hs => ?_
    rw [hs.1]
    refine hR.bind (renderInlineWith_related hR hs.2 ..) fun inline => ?_
    refine hR.bind (hR.keepsArray ..) fun keeps => related_ite (fun _ => hR.pure _) fun _ => ?_
    exact hR.bind (renderLinesWith_related hR hs.2 ..) fun lines => hR.pure _
  | @object id id' ha hc =>
    rw [Value.renderWith, Value.renderWith, ha]
    refine related_ite (fun _ => hR.fail _) fun _ => hR.enter (fun hs => hn hs Text) hc fun _ hs => ?_
    rw [hs.1.1, hs.1.2]
    exact hR.bind (renderLinesWith_related hR hs.2 ..) fun lines => hR.pure _
  | literal code hs =>
    rw [Value.renderWith, Value.renderWith, isEmpty_eq_of_forall₂ hs]
    refine related_ite (fun _ => hR.pure _) fun _ => ?_
    have hf := renderSlotsWith_related hR hs (columnAfter 0 (Template.parse code).lead) (Template.parse code).slots
    exact hR.bind hf fun filled => hR.pure _
  | capturing =>
    rw [Value.renderWith, Value.renderWith]
    exact hR.fail _
  | resource kind =>
    rw [Value.renderWith, Value.renderWith]
    exact hR.fail _

theorem renderSlotWith_related_of_sideBySide {nested : Prop}
    (hn : nested → ∀ (α : Type) (y : n α), R α (M.fail .recursion) y) {p p' : Place} {v v' : Value}
    (h : SideBySide (Related M N R s maxDepth heap heap') nested heap heap' s.maxDepth maxDepth p p' v v')
    (column : Nat) (placeholder : Placeholder) :
    R Text (renderSlotWith M s heap p.chain p.depth column placeholder v)
      (renderSlotWith N { s with maxDepth } heap' p'.chain p'.depth column placeholder v') := by
  have hr := renderWith_related_of_sideBySide hR hn h
  by_cases hp : placeholder.isSpread = true
  · by_cases hk : v.kind = .array
    · cases h with
      | @array id id' he hc =>
        rw [renderSlotWith_arguments hp, renderSlotWith_arguments hp]
        refine hR.enter (fun hs => hn hs Text) hc fun _ hs => ?_
        rw [hs.1, hs.2.length_eq]
        refine hR.bind (renderInlineWith_related hR hs.2 ..) fun inline => ?_
        refine hR.bind (hR.keepsArguments ..) fun keeps => related_ite (fun _ => hR.pure _) fun _ => ?_
        exact hR.bind (renderLinesWith_related hR hs.2 ..) fun lines => hR.pure _
      | atom a => cases a <;> cases hk
      | _ => cases hk
    · rw [renderSlotWith_of_ne_array hp _ _ _ _ _ _ hk, renderSlotWith_of_ne_array hp _ _ _ _ _ _ (h.kind_eq ▸ hk),
        h.kind_eq]
      exact hR.fail _
  · cases placeholder with
    | value =>
      rw [renderSlotWith, renderSlotWith]
      exact hr 0 column
    | member connective =>
      rw [renderSlotWith, renderSlotWith, h.memberName?_eq]
      split
      · exact hR.pure _
      · exact hR.bind (hr 0 0) fun text => hR.pure _
    | _ => exact absurd rfl hp

/-- Values that stay side by side whatever values inside them are looked at are rendered with related outcomes. -/
theorem renderWith_related {B : Place → Value → Place → Value → Prop} {nested : Prop}
    (hn : nested → ∀ (α : Type) (y : n α), R α (M.fail .recursion) y)
    (hB : ∀ {p : Place} {v : Value} {p' : Place} {v' : Value}, B p v p' v' →
      SideBySide B nested heap heap' s.maxDepth maxDepth p p' v v') {p : Place} {v : Value} {p' : Place} {v' : Value}
    (h : B p v p' v') : Related M N R s maxDepth heap heap' p v p' v' := by
  have hs : SideBySide (Related M N R s maxDepth heap heap') nested heap heap' s.maxDepth maxDepth p p' v v' :=
    (hB h).imp_of_lt fun {q w q' w'} hlt hw => renderWith_related hn hB hw
  exact ⟨renderWith_related_of_sideBySide hR hn hs, renderSlotWith_related_of_sideBySide hR hn hs⟩
termination_by (heap.remaining p.chain, sizeOf v)
decreasing_by exact hlt

end

end PhpLiteral
