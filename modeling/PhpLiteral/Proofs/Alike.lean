import PhpLiteral.Proofs.Simulation

/-!
# Values alike

Two values, in two heaps, are alike if they are of the same kind, with the same keys, names and codes, and the values
inside them are alike one by one (`Alike`). Which containers they share, and whether they share any, plays no part in
it. Being alike is well-founded, so that neither value holds a cycle (`Alike.not_transGen`), and on a way through one of
them no container is entered twice. Hence they stay side by side (`StandAlike.sideBySide`), and are written alike
(`Alike.dump_eq`, `format_eq_of_alike`).
-/

namespace PhpLiteral

open Relation (ReflTransGen TransGen)

/-! ## Alike values -/

/-- Two values are the same but for the values inside them. -/
inductive SameNode (h h' : Heap) : Value → Value → Prop
  | atom (a : Atom) : SameNode h h' (.atom a) (.atom a)
  | array {id id' : Nat} :
    (h'.array id').keys = (h.array id).keys →
    (h'.array id').nextIndex = (h.array id).nextIndex →
    SameNode h h' (.array id) (.array id')
  | object {id id' : Nat} :
    (h'.object id').isAnonymous = (h.object id).isAnonymous →
    (h'.object id').className = (h.object id).className →
    (h'.object id').properties.map Prod.fst = (h.object id).properties.map Prod.fst →
    (h'.object id').persisted = (h.object id).persisted →
    SameNode h h' (.object id) (.object id')
  | literal (code : Text) (args args' : List Value) : SameNode h h' (.literal code args) (.literal code args')
  | capturing : SameNode h h' .capturing .capturing
  | resource (kind : Text) : SameNode h h' (.resource kind) (.resource kind)

/-- Two values are the same, and so are the values inside them, whatever containers they are in. -/
inductive Alike (h h' : Heap) : Value → Value → Prop
  | intro {v v' : Value} : SameNode h h' v v' → (h'.children v').length = (h.children v).length →
    (∀ i (hi : i < (h.children v).length) (hi' : i < (h'.children v').length),
      Alike h h' (h.children v)[i] (h'.children v')[i]) → Alike h h' v v'

variable {heap heap' : Heap} {maxDepth : Nat}

theorem SameNode.symm {v v' : Value} (h : SameNode heap heap' v v') : SameNode heap' heap v' v := by
  cases h with
  | atom a => exact .atom a
  | array hk hi => exact .array hk.symm hi.symm
  | object ha hc hn hp => exact .object ha.symm hc.symm hn.symm hp.symm
  | literal code args args' => exact .literal code args' args
  | capturing => exact .capturing
  | resource kind => exact .resource kind

namespace Alike

variable {v v' : Value}

theorem symm (h : Alike heap heap' v v') : Alike heap' heap v' v := by
  induction h with
  | intro hn hl _ ih => exact .intro hn.symm hl.symm fun i hi' hi => ih i hi hi'

/-- Everything inside a value that another one is like is well-founded. -/
theorem acc (h : Alike heap heap' v v') : Acc (fun w u => heap.Links u w) v := by
  induction h with
  | @intro v v' _ hl _ ih =>
    refine ⟨_, fun w hw => ?_⟩
    obtain ⟨i, hi, rfl⟩ := List.getElem_of_mem hw
    exact ih i hi (hl ▸ hi)

theorem not_transGen (h : Alike heap heap' v v') : ¬ TransGen heap.Links v v := not_transGen_self h.acc .refl

end Alike

/-! ## Chains -/

/-- No container of a chain is inside a value, nor the value itself. -/
def Heap.Avoids (heap : Heap) (chain : List Ref) (v : Value) : Prop :=
  ∀ r ∈ chain, ¬ ReflTransGen heap.Links v r.value

namespace Heap.Avoids

variable {chain : List Ref}

theorem nil (v : Value) : heap.Avoids [] v := fun _ hr => absurd hr List.not_mem_nil

theorem not_mem {r : Ref} (h : heap.Avoids chain r.value) : r ∉ chain := fun hr => h r hr .refl

theorem child {v w : Value} (h : heap.Avoids chain v) (hw : heap.Links v w) : heap.Avoids chain w :=
  fun r hr hwr => h r hr (.head hw hwr)

/-- Inside a container that is not inside itself, it is never met again. -/
theorem enter {r : Ref} {w : Value} (h : heap.Avoids chain r.value) (ha : ¬ TransGen heap.Links r.value r.value)
    (hw : heap.Links r.value w) : heap.Avoids (r :: chain) w :=
  List.forall_mem_cons.mpr ⟨fun hr => ha (TransGen.head'_iff.mpr ⟨w, hw, hr⟩), h.child hw⟩

end Heap.Avoids

/-! ## Side by side -/

/-- Entries with the same names, of which the values are related one by one. -/
theorem forall₂_entries_iff {κ α β : Type} {r : α → β → Prop} {es : List (κ × α)} {es' : List (κ × β)} :
    List.Forall₂ (fun e e' => e'.1 = e.1 ∧ r e.2 e'.2) es es' ↔
      es'.map Prod.fst = es.map Prod.fst ∧ List.Forall₂ r (es.map Prod.snd) (es'.map Prod.snd) := by
  induction es generalizing es' with
  | nil => cases es' <;> simp
  | cons e es ih => cases es' with
    | nil => simp
    | cons e' es' =>
      simp only [List.forall₂_cons, List.map_cons, List.cons.injEq, ih]
      tauto

/-- Which properties are written depends on their names, and not on their values. -/
theorem keptNames_eq_and_keptValues {α β : Type} {r : α → β → Prop} {o : ObjectStore α} {o' : ObjectStore β}
    (hc : o'.className = o.className) (hn : o'.properties.map Prod.fst = o.properties.map Prod.fst)
    (hp : o'.persisted = o.persisted) (hv : List.Forall₂ r o.values o'.values) :
    o'.keptNames = o.keptNames ∧ List.Forall₂ r o.keptValues o'.keptValues := by
  have hk : ∀ stored, o'.keeps stored = o.keeps stored := fun stored => by
    rw [ObjectStore.keeps, ObjectStore.keeps, hp, hc]
  have hs : List.Forall₂ (fun e e' => e'.1 = e.1 ∧ r e.2 e'.2) o.kept o'.kept := by
    rw [ObjectStore.kept, ObjectStore.kept]
    refine List.rel_filter (fun e e' h => by simp only [hk, h.1]) ?_
    rw [List.forall₂_map_left_iff, List.forall₂_map_right_iff]
    exact (forall₂_entries_iff.mpr ⟨hn, hv⟩).imp fun e e' h => ⟨by simp only [h.1, hc], h.2⟩
  exact forall₂_entries_iff.mp hs

theorem links_of_mem_keptValues {id : Nat} {w : Value} (h : w ∈ (heap.object id).keptValues) :
    heap.Links (.object id) w := by
  simp only [ObjectStore.keptValues, ObjectStore.kept, List.mem_map, List.mem_filter] at h
  obtain ⟨_, ⟨⟨e, he, rfl⟩, -⟩, rfl⟩ := h
  exact List.mem_map.mpr ⟨e, he, rfl⟩

/-- Two values alike stand equally deep, and none of the containers that enclose one of them is inside it. -/
structure StandAlike (heap heap' : Heap) (p : Place) (v : Value) (p' : Place) (v' : Value) : Prop where
  depth_eq : p'.depth = p.depth
  alike : Alike heap heap' v v'
  avoids : heap.Avoids p.chain v
  avoids' : heap'.Avoids p'.chain v'

namespace StandAlike

variable {p p' : Place} {v v' : Value}

theorem outermost (h : Alike heap heap' v v') : StandAlike heap heap' {} v {} v' := ⟨rfl, h, .nil v, .nil v'⟩

theorem inside {r r' : Ref} {w w' : Value} (h : StandAlike heap heap' p r.value p' r'.value)
    (ha : Alike heap heap' w w') (hw : heap.Links r.value w) (hw' : heap'.Links r'.value w') :
    StandAlike heap heap' (p.inside r) w (p'.inside r') w' where
  depth_eq := congrArg (· + 1) h.depth_eq
  alike := ha
  avoids := h.avoids.enter h.alike.not_transGen hw
  avoids' := h.avoids'.enter h.alike.symm.not_transGen hw'

theorem below {w w' : Value} (h : StandAlike heap heap' p v p' v') (ha : Alike heap heap' w w')
    (hw : heap.Links v w) (hw' : heap'.Links v' w') : StandAlike heap heap' p.below w p'.below w' where
  depth_eq := congrArg (· + 1) h.depth_eq
  alike := ha
  avoids := h.avoids.child hw
  avoids' := h.avoids'.child hw'

/-- Two containers alike may be entered or not, both of them: neither is in its chain. -/
theorem entered {r r' : Ref} {same : Prop} (h : StandAlike heap heap' p r.value p' r'.value) (hs : same) :
    Entered False (p.Allows maxDepth r) (p'.Allows maxDepth r') same where
  same ha := ⟨⟨h.depth_eq ▸ ha.1, h.avoids'.not_mem⟩, hs⟩
  back ha := .inl ⟨h.depth_eq ▸ ha.1, h.avoids.not_mem⟩

theorem forall₂_children (h : Alike heap heap' v v') :
    List.Forall₂ (Alike heap heap') (heap.children v) (heap'.children v') := by
  obtain ⟨-, hl, hi⟩ := h
  exact List.forall₂_iff_get.mpr ⟨hl.symm, fun i hi₁ hi₂ => hi i hi₁ hi₂⟩

/-- Values alike stay side by side. -/
theorem sideBySide (h : StandAlike heap heap' p v p' v') :
    SideBySide (StandAlike heap heap') False heap heap' maxDepth maxDepth p p' v v' := by
  have hs := forall₂_children h.alike
  obtain ⟨hn, -, -⟩ := h.alike
  cases hn with
  | atom a => exact .atom a
  | @array id id' hk _ =>
    rw [Heap.children_array, Heap.children_array] at hs
    exact .array (isEmpty_eq_of_forall₂ hs) (h.entered ⟨hk,
      forall₂_imp_of_mem hs fun hw hw' ha => h.inside ha hw hw'⟩)
  | @object id id' hanon hclass hnames hpersisted =>
    obtain ⟨hk, hv⟩ := keptNames_eq_and_keptValues hclass hnames hpersisted hs
    exact .object hanon (h.entered ⟨⟨hclass, hk⟩,
      forall₂_imp_of_mem hv fun hw hw' ha => h.inside ha
        (links_of_mem_keptValues hw) (links_of_mem_keptValues hw')⟩)
  | literal code args args' =>
    rw [Heap.children_literal, Heap.children_literal] at hs
    exact .literal code (forall₂_imp_of_mem hs fun hw hw' ha => h.below ha hw hw')
  | capturing => exact .capturing
  | resource kind => exact .resource kind

end StandAlike

/-! ## The operations of the library -/

variable {m : Type → Type} [Monad m] {s : Settings}

theorem Alike.related (M : Machine m) (s : Settings) {v v' : Value} (h : Alike heap heap' v v') :
    Related M M (fun _ x y => x = y) s s.maxDepth heap heap' {} v {} v' :=
  renderWith_related (relates_eq M) False.elim (fun h => h.sideBySide) (StandAlike.outermost h)

theorem Alike.dump_eq {v v' : Value} (h : Alike heap heap' v v') (column : Nat) :
    dump s heap' v' column = dump s heap v column :=
  ((h.related .checked s).render 0 column).symm

theorem format_eq_of_alike {args args' : List Value} (h : List.Forall₂ (Alike heap heap') args args') (template : Text) :
    format s heap' template args' = format s heap template args :=
  congrArg (Except.map _)
    (renderSlotsWith_related (relates_eq .exact) (h.imp fun _ _ hv => hv.related .exact s) _ _).symm

end PhpLiteral
