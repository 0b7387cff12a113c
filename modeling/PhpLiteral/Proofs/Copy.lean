import PhpLiteral.Proofs.Alike
import PhpLiteral.Proofs.Render
import PhpLiteral.Proofs.Store.Growth

/-!
# Deep copies

A deep copy of a value is made of new containers, one for every time that a container is met in the value
(`Value.copyTo`, `copyAll`). It is alike to the value, and nothing in it is shared (`IsCopy`). So whatever a heap
shares, a value is written like its deep copy, as long as nothing is inside itself (`rendering_copyTo`).
-/

namespace PhpLiteral

open Relation (ReflTransGen TransGen)

/-! ## Copying -/

theorem map_fst_zip_eq_take {κ α : Type} (ks : List κ) (vs : List α) :
    (ks.zip vs).map Prod.fst = ks.take vs.length := by
  induction ks generalizing vs with
  | nil => simp
  | cons k ks ih => cases vs <;> simp [ih]

/-- The array with other values under its keys. -/
def ArrayStore.withValues {α β : Type} (a : ArrayStore α) (values : List β) : ArrayStore β where
  entries := a.keys.zip values
  nextIndex := a.nextIndex
  nodup_keys := map_fst_zip_eq_take a.keys values ▸ a.nodup_keys.sublist (List.take_sublist ..)

/-- The object with other values of its properties. -/
def ObjectStore.withValues {α β : Type} (o : ObjectStore α) (values : List β) : ObjectStore β where
  className := o.className
  isAnonymous := o.isAnonymous
  properties := (o.properties.map Prod.fst).zip values
  persisted := o.persisted
  nodup_properties := map_fst_zip_eq_take _ values ▸ o.nodup_properties.sublist (List.take_sublist ..)

theorem Heap.values_object_of_not_mem {heap : Heap} {id : Nat} (hr : .object id ∉ heap.refs) :
    (heap.object id).values = [] := by
  rw [mem_refs_object, Nat.not_lt] at hr
  rw [object, List.getD, List.getElem?_eq_none hr]
  rfl

mutual

/-- A value of a heap rebuilt behind another heap, of new containers only. `chain` lists the containers that enclose
it; none of them is entered again, so that a value with a cycle is not copied in full. -/
def Value.copyTo (heap : Heap) (chain : List Ref) (into : Heap) : Value → Value × Heap
  | .array id =>
    if .array id ∈ chain then (.array id, into)
    else
      let copies := copyAll heap (.array id :: chain) into (heap.array id).values
      copies.2.newArray ((heap.array id).withValues copies.1)
  | .object id =>
    if .object id ∈ chain then (.object id, into)
    else
      let copies := copyAll heap (.object id :: chain) into (heap.object id).values
      copies.2.newObject ((heap.object id).withValues copies.1)
  | .literal code args =>
    let copies := copyAll heap chain into args
    (.literal code copies.1, copies.2)
  | .atom a => (.atom a, into)
  | .capturing => (.capturing, into)
  | .resource kind => (.resource kind, into)
termination_by v => (heap.remaining chain, sizeOf v, 1)
decreasing_by
  · exact Heap.enter_lt ‹_› Heap.values_array_of_not_mem
  · exact Heap.enter_lt ‹_› Heap.values_object_of_not_mem
  · decreasing_tactic

/-- Values rebuilt in order, each behind the heap that the ones before it leave. -/
def copyAll (heap : Heap) (chain : List Ref) (into : Heap) : List Value → List Value × Heap
  | [] => ([], into)
  | v :: rest =>
    let first := v.copyTo heap chain into
    let others := copyAll heap chain first.2 rest
    (first.1 :: others.1, others.2)
termination_by values => (heap.remaining chain, sizeOf values, 0)

end

/-! ## Nothing shared -/

/-- No container is inside both of two values. -/
def Heap.Apart (h : Heap) (v w : Value) : Prop :=
  ∀ r : Ref, ReflTransGen h.Links v r.value → ¬ ReflTransGen h.Links w r.value

/-- Nothing inside a value is shared: whatever is inside it, no container is in two of the values in that. -/
def Heap.Unshared (h : Heap) (v : Value) : Prop :=
  ∀ u, ReflTransGen h.Links v u → (h.children u).Pairwise h.Apart

/-- In a heap `h`, a copy of a value. Its containers are all new, in `after` but not in `before`, and none of them is
shared. -/
structure IsCopy (heap before after h : Heap) (v v' : Value) : Prop where
  alike : Alike heap h v v'
  isNew : ∀ r : Ref, ReflTransGen h.Links v' r.value → r ∈ after.refs ∧ r ∉ before.refs
  unshared : h.Unshared v'

/-- Copies of values, one by one, that do not share anything with one another either. -/
structure AreCopies (heap before after h : Heap) (vs vs' : List Value) : Prop where
  each : List.Forall₂ (IsCopy heap before after h) vs vs'
  apart : vs'.Pairwise h.Apart

section

variable {heap before mid after h : Heap} {v v' : Value} {vs vs' : List Value}

theorem IsCopy.widen {before' after' : Heap} (hc : IsCopy heap before' after' h v v') (hb : before.Grows before')
    (ha : after'.Grows after) : IsCopy heap before after h v v' where
  alike := hc.alike
  isNew r hr := ⟨ha.refs (hc.isNew r hr).1, fun hm => (hc.isNew r hr).2 (hb.refs hm)⟩
  unshared := hc.unshared

theorem AreCopies.exists_isCopy {w : Value} (hs : AreCopies heap before after h vs vs') (hw : w ∈ vs') :
    ∃ v, IsCopy heap before after h v w := by
  obtain ⟨i, hi, rfl⟩ := List.getElem_of_mem hw
  exact ⟨_, (List.forall₂_iff_get.mp hs.each).2 i (hs.each.length_eq ▸ hi) hi⟩

theorem AreCopies.nil : AreCopies heap before after h [] [] := ⟨.nil, .nil⟩

theorem AreCopies.cons (hv : IsCopy heap before mid h v v') (hs : AreCopies heap mid after h vs vs')
    (hb : before.Grows mid) (ha : mid.Grows after) : AreCopies heap before after h (v :: vs) (v' :: vs') where
  each := .cons (hv.widen (.refl _) ha) (hs.each.imp fun _ _ hw => hw.widen hb (.refl _))
  apart := by
    refine .cons (fun w hw r hr hr' => ?_) hs.apart
    -- What is in the first copy was there before the others were made.
    obtain ⟨u, hu⟩ := hs.exists_isCopy hw
    exact (hu.isNew r hr').2 (hv.isNew r hr).1

/-- A value that is the same but for copies inside it is a copy, if it is a new container. -/
theorem IsCopy.of_children (hn : SameNode heap h v v') (hs : AreCopies heap before mid h (heap.children v) (h.children v'))
    (ha : mid.Grows after) (hr : ∀ r : Ref, v' = r.value → r ∈ after.refs ∧ r ∉ before.refs) :
    IsCopy heap before after h v v' where
  alike := .intro hn hs.each.length_eq.symm fun i hi hi' => ((List.forall₂_iff_get.mp hs.each).2 i hi hi').alike
  isNew r hr' := by
    rcases hr'.cases_head with e | ⟨w, hw, hr'⟩
    · exact hr r e
    · obtain ⟨u, hu⟩ := hs.exists_isCopy hw
      exact ⟨ha.refs (hu.isNew r hr').1, (hu.isNew r hr').2⟩
  unshared u hu := by
    rcases hu.cases_head with rfl | ⟨w, hw, hu⟩
    · exact hs.apart
    · obtain ⟨u₀, hc⟩ := hs.exists_isCopy hw
      exact hc.unshared u hu

end

/-! ## Copies -/

/-- New values take the places of as many others. -/
theorem ArrayStore.withValues_spec {α β : Type} {a : ArrayStore α} {values : List β}
    (h : values.length = a.values.length) :
    (a.withValues values).keys = a.keys ∧ (a.withValues values).values = values := by
  have hl : a.keys.length = values.length := by rw [length_keys, h]
  exact ⟨List.map_fst_zip (Nat.le_of_eq hl), List.map_snd_zip (Nat.le_of_eq hl.symm)⟩

theorem ObjectStore.withValues_spec {α β : Type} {o : ObjectStore α} {values : List β}
    (h : values.length = o.values.length) :
    (o.withValues values).properties.map Prod.fst = o.properties.map Prod.fst ∧
      (o.withValues values).values = values := by
  have hl : (o.properties.map Prod.fst).length = values.length := by
    rw [h, ObjectStore.values, List.length_map, List.length_map]
  exact ⟨List.map_fst_zip (Nat.le_of_eq hl), List.map_snd_zip (Nat.le_of_eq hl.symm)⟩

section

variable {heap into mid : Heap} {vs' : List Value}

theorem isCopy_newArray {id : Nat} (hg : into.Grows mid)
    (hs : ∀ h, mid.Grows h → AreCopies heap into mid h (heap.array id).values vs') {v' : Value} {after : Heap}
    (he : mid.newArray ((heap.array id).withValues vs') = (v', after)) :
    into.Grows after ∧ ∀ h, after.Grows h → IsCopy heap into after h (.array id) v' := by
  cases he
  have hn := Heap.Grows.newArray mid ((heap.array id).withValues vs')
  have hr : .array mid.arrays.length ∈ (mid.newArray ((heap.array id).withValues vs')).2.refs := by
    simp [Heap.mem_refs_array, Heap.newArray]
  refine ⟨hg.trans hn, fun h hh => ?_⟩
  have hc := hs h (hn.trans hh)
  have ha := (hh.array_eq hr).trans (Heap.array_newArray mid _)
  obtain ⟨hk, hv⟩ := ArrayStore.withValues_spec hc.each.length_eq.symm
  refine .of_children (.array (by rw [ha, hk]) (by rw [ha]; rfl)) (by rwa [Heap.children_array, Heap.children_array, ha, hv]) hn ?_
  -- The place behind all arrays is new.
  rintro (_ | _) e <;> cases e
  exact ⟨hr, fun hm => Nat.lt_irrefl _ (Heap.mem_refs_array.mp (hg.refs hm))⟩

theorem isCopy_newObject {id : Nat} (hg : into.Grows mid)
    (hs : ∀ h, mid.Grows h → AreCopies heap into mid h (heap.object id).values vs') {v' : Value} {after : Heap}
    (he : mid.newObject ((heap.object id).withValues vs') = (v', after)) :
    into.Grows after ∧ ∀ h, after.Grows h → IsCopy heap into after h (.object id) v' := by
  cases he
  have hn := Heap.Grows.newObject mid ((heap.object id).withValues vs')
  have hr : .object mid.objects.length ∈ (mid.newObject ((heap.object id).withValues vs')).2.refs := by
    simp [Heap.mem_refs_object, Heap.newObject]
  refine ⟨hg.trans hn, fun h hh => ?_⟩
  have hc := hs h (hn.trans hh)
  have ho := (hh.object_eq hr).trans (Heap.object_newObject mid _)
  obtain ⟨hk, hv⟩ := ObjectStore.withValues_spec hc.each.length_eq.symm
  refine .of_children (.object (by rw [ho]; rfl) (by rw [ho]; rfl) (by rw [ho, hk]) (by rw [ho]; rfl))
    (by rwa [Heap.children_object, Heap.children_object, ho, hv]) hn ?_
  rintro (_ | _) e <;> cases e
  exact ⟨hr, fun hm => Nat.lt_irrefl _ (Heap.mem_refs_object.mp (hg.refs hm))⟩

/-- A value without containers in it is its own copy. -/
theorem isCopy_leaf {h : Heap} {v : Value} (hn : SameNode heap h v v) (hc : heap.children v = [])
    (hc' : h.children v = []) (hr : ∀ r : Ref, v ≠ r.value) : IsCopy heap into into h v v :=
  .of_children hn (by rw [hc, hc']; exact .nil) (.refl into) fun r e => absurd e (hr r)

end

section

variable {heap : Heap}

mutual

/-- The containers that a copy needs are put behind the others, and whatever comes behind these leaves it a copy. -/
theorem copyTo_spec (hc : heap.IsAcyclic) (chain : List Ref) (into : Heap) : ∀ v : Value, heap.Avoids chain v →
    into.Grows (v.copyTo heap chain into).2 ∧ ∀ h, (v.copyTo heap chain into).2.Grows h →
      IsCopy heap into (v.copyTo heap chain into).2 h v (v.copyTo heap chain into).1
  | .array id, ha => by
    have hr : .array id ∉ chain := Heap.Avoids.not_mem (r := .array id) ha
    obtain ⟨hg, hs⟩ := copyAll_spec hc (.array id :: chain) into (heap.array id).values fun w hw =>
      Heap.Avoids.enter (r := .array id) ha (hc _) hw
    rw [Value.copyTo, if_neg hr]
    exact isCopy_newArray hg hs rfl
  | .object id, ha => by
    have hr : .object id ∉ chain := Heap.Avoids.not_mem (r := .object id) ha
    obtain ⟨hg, hs⟩ := copyAll_spec hc (.object id :: chain) into (heap.object id).values fun w hw =>
      Heap.Avoids.enter (r := .object id) ha (hc _) hw
    rw [Value.copyTo, if_neg hr]
    exact isCopy_newObject hg hs rfl
  | .literal code args, ha => by
    obtain ⟨hg, hs⟩ := copyAll_spec hc chain into args fun w hw => ha.child hw
    rw [Value.copyTo]
    exact ⟨hg, fun h hh => .of_children (.literal code args _) (hs h hh) (.refl _) fun r e => by cases r <;> cases e⟩
  | .atom a, _ => by
    rw [Value.copyTo]
    exact ⟨.refl into, fun h _ => isCopy_leaf (.atom a) rfl rfl fun r e => by cases r <;> cases e⟩
  | .capturing, _ => by
    rw [Value.copyTo]
    exact ⟨.refl into, fun h _ => isCopy_leaf .capturing rfl rfl fun r e => by cases r <;> cases e⟩
  | .resource kind, _ => by
    rw [Value.copyTo]
    exact ⟨.refl into, fun h _ => isCopy_leaf (.resource kind) rfl rfl fun r e => by cases r <;> cases e⟩
termination_by v => (heap.remaining chain, sizeOf v, 1)
decreasing_by
  · exact Heap.enter_lt hr Heap.values_array_of_not_mem
  · exact Heap.enter_lt hr Heap.values_object_of_not_mem
  · decreasing_tactic

theorem copyAll_spec (hc : heap.IsAcyclic) (chain : List Ref) (into : Heap) : ∀ vs : List Value,
    (∀ v ∈ vs, heap.Avoids chain v) → into.Grows (copyAll heap chain into vs).2 ∧
      ∀ h, (copyAll heap chain into vs).2.Grows h →
        AreCopies heap into (copyAll heap chain into vs).2 h vs (copyAll heap chain into vs).1
  | [], _ => by
    rw [copyAll]
    exact ⟨.refl into, fun _ _ => .nil⟩
  | v :: rest, ha => by
    rw [List.forall_mem_cons] at ha
    obtain ⟨hg, hv⟩ := copyTo_spec hc chain into v ha.1
    obtain ⟨hg', hs⟩ := copyAll_spec hc chain (v.copyTo heap chain into).2 rest ha.2
    rw [copyAll]
    exact ⟨hg.trans hg', fun h hh => .cons (hv h (hg'.trans hh)) (hs h hh) hg hg'⟩
termination_by vs => (heap.remaining chain, sizeOf vs, 0)

end

/-- Sharing cannot be seen. Where nothing is inside itself, a value has a deep copy behind any heap, made of new
containers that share nothing; it is written like the value, or refused with the same error. So are the values that
fill a template. Hence what is used several times is written in full each time, and is not taken for a cycle. -/
theorem rendering_copyTo (hc : heap.IsAcyclic) (s : Settings) (into : Heap) :
    (∀ (v : Value) (column : Nat),
      let copy := v.copyTo heap [] into
      IsCopy heap into copy.2 copy.2 v copy.1 ∧ dump s copy.2 copy.1 column = dump s heap v column) ∧
    ∀ (template : Text) (args : List Value),
      let copies := copyAll heap [] into args
      AreCopies heap into copies.2 copies.2 args copies.1 ∧
        format s copies.2 template copies.1 = format s heap template args := by
  refine ⟨fun v column => ?_, fun template args => ?_⟩
  · have h := (copyTo_spec hc [] into v (.nil v)).2 _ (.refl _)
    exact ⟨h, h.alike.dump_eq column⟩
  · have h := (copyAll_spec hc [] into args fun v _ => .nil v).2 _ (.refl _)
    exact ⟨h, format_eq_of_alike (h.each.imp fun _ _ hv => hv.alike) template⟩

end

/-- An array that holds another one twice, and a call with it as the list of its arguments. -/
def thriceShared : Heap where
  arrays := [.ofList [.atom .null], .ofList [.array 0, .array 0, .literal (utf8 "f(...?)") [.array 0]]]
  objects := []

/-- The same with an array of its own in each place. -/
def thriceWritten : Heap where
  arrays := [.ofList [.atom .null], .ofList [.atom .null], .ofList [.atom .null],
    .ofList [.array 0, .array 1, .literal (utf8 "f(...?)") [.array 2]]]
  objects := []

theorem values_thriceShared_zero : (thriceShared.array 0).values = [.atom .null] := rfl

theorem values_thriceShared_one :
    (thriceShared.array 1).values = [.array 0, .array 0, .literal (utf8 "f(...?)") [.array 0]] := rfl

theorem isAcyclic_thriceShared : thriceShared.IsAcyclic := by
  have hz : Acc (fun w u => thriceShared.Links u w) (.array 0) := by
    refine ⟨_, fun w hw => ?_⟩
    rw [Heap.Links, Heap.children_array, values_thriceShared_zero, List.mem_singleton] at hw
    subst hw
    exact ⟨_, fun w hw => nomatch hw⟩
  refine Heap.isAcyclic_of_acc fun
    | .array 0 => hz
    | .array 1 => ⟨_, fun w hw => ?_⟩
    | .array (id + 2) => ⟨_, fun w hw => nomatch hw⟩
    | .object id => ⟨_, fun w hw => nomatch hw⟩
  change w ∈ (thriceShared.array 1).values at hw
  simp only [values_thriceShared_one, List.mem_cons, List.not_mem_nil, or_false] at hw
  rcases hw with rfl | rfl | rfl
  · exact hz
  · exact hz
  · refine ⟨_, fun w hw => ?_⟩
    rw [Heap.Links, Heap.children_literal, List.mem_singleton] at hw
    exact hw ▸ hz

theorem copyTo_thriceShared : (Value.array 1).copyTo thriceShared [] .empty = (.array 3, thriceWritten) := by
  simp [Value.copyTo, copyAll, values_thriceShared_zero, values_thriceShared_one]
  rfl

theorem rendering_copyTo_thriceShared : IsCopy thriceShared .empty thriceWritten thriceWritten (.array 1) (.array 3) ∧
    dump {} thriceWritten (.array 3) 0 = dump {} thriceShared (.array 1) 0 := by
  have h := (rendering_copyTo isAcyclic_thriceShared {} .empty).1 (.array 1) 0
  rwa [copyTo_thriceShared] at h

end PhpLiteral
