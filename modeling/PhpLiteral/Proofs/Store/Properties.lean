import Mathlib.Data.List.Forall2
import Mathlib.Data.List.Induction
import Mathlib.Data.List.Nodup
import PhpLiteral.Heap
import PhpLiteral.Proofs.Store.Log

/-!
# Properties of objects

Operations on an object assign values to properties and restrict what is written to a list of names. In the end the
object holds each property that was assigned to, in order of the first assignment and with the value of the last one;
of these it writes the ones whose plain name is in the list that was given last, if any was (`ObjectStore.kept_run`).
The list is compared in stored form, in which no two properties are alike (`mangledName_inj`).
-/

namespace PhpLiteral

/-- Properties with different names or visibilities are stored under different names. A class that is called like the
mark of protected properties would confuse its private properties with these. -/
theorem mangledName_inj {className name name' : Text} {visibility visibility' : Visibility}
    (hc : className ≠ [Ascii.star]) (hn : Ascii.nul ∉ name) (hn' : Ascii.nul ∉ name') :
    mangledName className name visibility = mangledName className name' visibility' ↔
      name = name' ∧ visibility = visibility' := by
  refine ⟨fun h => ?_, fun h => h.1 ▸ h.2 ▸ rfl⟩
  have hs : Ascii.nul ∉ [Ascii.star] := by decide
  cases visibility <;> cases visibility' <;> simp only [mangledName] at h
  case everywhere.everywhere => exact ⟨h, rfl⟩
  case subclasses.subclasses => simpa using h
  case sameClass.sameClass => simpa using h
  -- A name alone does not start with a zero byte.
  case everywhere.subclasses => exact absurd (h ▸ List.mem_cons_self) hn
  case everywhere.sameClass => exact absurd (h ▸ List.mem_cons_self) hn
  case subclasses.everywhere => exact absurd (h.symm ▸ List.mem_cons_self) hn'
  case sameClass.everywhere => exact absurd (h.symm ▸ List.mem_cons_self) hn'
  -- The last zero byte stands right before the name, and the class before it.
  case subclasses.sameClass =>
    exact absurd ((List.append_cons_inj_of_notMem hs hn).mp (List.cons.inj h).2).1.symm hc
  case sameClass.subclasses =>
    exact absurd ((List.append_cons_inj_of_notMem hs hn').mp (List.cons.inj h.symm).2).1.symm hc

namespace ObjectStore

variable {α : Type}

/-! ## Operations -/

/-- An operation on an object. -/
inductive Operation (α : Type)
  | set (name : Text) (visibility : Visibility) (value : α)
  | persistOnly (names : List Text)

/-- The object after an operation. -/
def step (o : ObjectStore α) : Operation α → ObjectStore α
  | .set name visibility value => o.set name visibility value
  | .persistOnly names => o.persistOnly names

/-- The object that operations make, one after the other, of one without properties. -/
def run (className : Text) (operations : List (Operation α)) : ObjectStore α :=
  operations.foldl step (ofClass className)

/-- The property that an operation assigns to, and the value. -/
def Operation.assignment? : Operation α → Option ((Text × Visibility) × α)
  | .set name visibility value => some ((name, visibility), value)
  | .persistOnly _ => none

/-- The list of names that an operation gives. -/
def Operation.names? : Operation α → Option (List Text)
  | .set _ _ _ => none
  | .persistOnly names => some names

/-- All names that an operation is given. -/
def Operation.givenNames : Operation α → List Text
  | .set name _ _ => [name]
  | .persistOnly names => names

/-- What operations assign, in order. -/
def assignments (operations : List (Operation α)) : List ((Text × Visibility) × α) :=
  operations.filterMap Operation.assignment?

/-- The value that operations assign to a property last. -/
def lastAssigned? (operations : List (Operation α)) (property : Text × Visibility) : Option α :=
  Association.get? property (assignments operations).reverse

/-- The list of names that operations give last. -/
def lastNames? (operations : List (Operation α)) : Option (List Text) :=
  (operations.filterMap Operation.names?).getLast?

/-- Properties of a name are to be written: no list of names is given, or the name is in the last one. -/
def Persists (operations : List (Operation α)) (name : Text) : Prop :=
  ∀ names, lastNames? operations = some names → name ∈ names

instance (operations : List (Operation α)) (name : Text) : Decidable (Persists operations name) :=
  match h : lastNames? operations with
  | none => isTrue fun names e => by rw [h] at e; cases e
  | some names =>
    decidable_of_iff (name ∈ names) ⟨fun hm names' e => Option.some.inj (h.symm.trans e) ▸ hm, fun hp => hp names h⟩

/-- The properties to be written: those that are assigned to, in order of the first assignment, and whose names are to
be written. -/
def written (operations : List (Operation α)) : List (Text × Visibility) :=
  ((assignments operations).map Prod.fst).eraseDups.filter fun property => Persists operations property.1

/-! ## What operations leave -/

/-- What an object holds after operations on one without properties. -/
structure Records (className : Text) (operations : List (Operation α)) (o : ObjectStore α) : Prop where
  className_eq : o.className = bareClass className
  isAnonymous_eq : o.isAnonymous = false
  persisted_eq : o.persisted = lastNames? operations
  keys_eq : o.properties.map Prod.fst = ((assignments operations).map Prod.fst).eraseDups
  get?_eq : ∀ property, Association.get? property o.properties = lastAssigned? operations property

theorem records_ofClass (className : Text) : Records className [] (ofClass className : ObjectStore α) :=
  ⟨rfl, rfl, rfl, rfl, fun _ => rfl⟩

theorem Records.step {className : Text} {operations : List (Operation α)} {o : ObjectStore α}
    (h : Records className operations o) (operation : Operation α) :
    Records className (operations ++ [operation]) (o.step operation) := by
  cases operation with
  | persistOnly names =>
    have ha : assignments (operations ++ [.persistOnly names]) = assignments operations := by
      simp [assignments, Operation.assignment?]
    refine ⟨h.className_eq, h.isAnonymous_eq, ?_, ?_, fun property => ?_⟩
    · simp [lastNames?, Operation.names?, ObjectStore.step, persistOnly]
    · rw [ha]
      exact h.keys_eq
    · rw [lastAssigned?, ha]
      exact h.get?_eq property
  | set name visibility value =>
    have ha : assignments (operations ++ [.set name visibility value]) =
        assignments operations ++ [((name, visibility), value)] := by
      simp [assignments, Operation.assignment?]
    have hk : Association.Keeps (assignments operations) o.properties := ⟨h.keys_eq, h.get?_eq⟩
    have hp := hk.put (name, visibility) value
    refine ⟨h.className_eq, h.isAnonymous_eq, ?_, ?_, fun property => ?_⟩
    · simpa [lastNames?, Operation.names?, ObjectStore.step, set] using h.persisted_eq
    · rw [ha]
      exact hp.keys_eq
    · rw [lastAssigned?, ha]
      exact hp.get?_eq property

theorem records_run (className : Text) (operations : List (Operation α)) :
    Records className operations (run className operations) := by
  induction operations using List.reverseRecOn with
  | nil => exact records_ofClass className
  | append_singleton operations operation ih =>
    rw [run, List.foldl_append]
    exact ih.step operation

/-! ## What is written -/

variable {className : Text} {operations : List (Operation α)}

theorem nodup_written (operations : List (Operation α)) : (written operations).Nodup := by
  have h := records_run [] operations
  rw [written, ← h.keys_eq]
  exact (run [] operations).nodup_properties.filter _

theorem mem_written {property : Text × Visibility} :
    property ∈ written operations ↔
      property ∈ (assignments operations).map Prod.fst ∧ Persists operations property.1 := by
  rw [written, List.mem_filter, List.mem_eraseDups, decide_eq_true_iff]

/-- No name that is assigned to or listed has a zero byte in it. -/
def HasPlainNames (operations : List (Operation α)) : Prop :=
  ∀ operation ∈ operations, ∀ name ∈ operation.givenNames, Ascii.nul ∉ name

instance (operations : List (Operation α)) : Decidable (HasPlainNames operations) :=
  inferInstanceAs (Decidable (∀ operation ∈ operations, ∀ name ∈ operation.givenNames, Ascii.nul ∉ name))

theorem HasPlainNames.assigned (h : HasPlainNames operations) {property : Text × Visibility}
    (hp : property ∈ (assignments operations).map Prod.fst) : Ascii.nul ∉ property.1 := by
  obtain ⟨assignment, ha, rfl⟩ := List.mem_map.mp hp
  obtain ⟨operation, ho, ha⟩ := List.mem_filterMap.mp ha
  cases operation with
  | persistOnly names => cases ha
  | set name visibility value =>
    cases ha
    exact h _ ho name List.mem_cons_self

theorem HasPlainNames.listed (h : HasPlainNames operations) {names : List Text}
    (hl : lastNames? operations = some names) {name : Text} (hm : name ∈ names) : Ascii.nul ∉ name := by
  obtain ⟨operation, ho, hn⟩ := List.mem_filterMap.mp (List.mem_of_getLast? hl)
  cases operation with
  | set name visibility value => cases hn
  | persistOnly names =>
    cases hn
    exact h _ ho name hm

/-- Whether a property is kept depends on its plain name alone. -/
theorem keeps_run (hc : bareClass className ≠ [Ascii.star]) (h : HasPlainNames operations)
    {property : Text × Visibility} (hp : property ∈ (assignments operations).map Prod.fst) :
    (run className operations).keeps (mangledName (bareClass className) property.1 property.2) = true ↔
      Persists operations property.1 := by
  have hr := records_run className operations
  rw [keeps, hr.persisted_eq, hr.className_eq, Persists]
  split
  · rename_i hl
    simp [hl]
  · rename_i names hl
    simp only [hl, Option.some.injEq, forall_eq', List.contains_iff_mem, allowedNames, List.mem_flatMap, List.mem_map]
    refine ⟨?_, fun hm => ⟨property.1, hm, property.2, ?_, rfl⟩⟩
    · rintro ⟨name, hm, visibility, -, e⟩
      exact ((mangledName_inj hc (h.listed hl hm) (h.assigned hp)).mp e).1 ▸ hm
    · cases property.2 <;> simp

/-- A property and what is kept for it: its stored name and the value that was assigned to it last. -/
def IsKeptFor (className : Text) (operations : List (Operation α)) (property : Text × Visibility)
    (entry : Text × α) : Prop :=
  entry.1 = mangledName (bareClass className) property.1 property.2 ∧ lastAssigned? operations property = some entry.2

/-- An object keeps exactly the properties to be written, in order. -/
theorem kept_run (hc : bareClass className ≠ [Ascii.star]) (h : HasPlainNames operations) :
    List.Forall₂ (IsKeptFor className operations) (written operations) (run className operations).kept := by
  have hr := records_run className operations
  have hk : ∀ p ∈ (run className operations).properties,
      (run className operations).keeps (mangledName (bareClass className) p.1.1 p.1.2) =
        decide (Persists operations p.1.1) := by
    intro p hp
    have hm : p.1 ∈ (assignments operations).map Prod.fst := by
      rw [← List.mem_eraseDups, ← hr.keys_eq]
      exact List.mem_map_of_mem hp
    rw [Bool.eq_iff_iff, decide_eq_true_iff, keeps_run hc h hm]
  rw [kept, hr.className_eq, written, ← hr.keys_eq, List.filter_map, List.filter_map, List.forall₂_map_left_iff,
    List.forall₂_map_right_iff]
  simp only [Function.comp_def]
  rw [List.filter_congr hk, List.forall₂_same]
  intro p hp
  refine ⟨rfl, ?_⟩
  rw [← hr.get?_eq]
  exact Association.get?_eq_some_of_mem (run className operations).nodup_properties (List.mem_of_mem_filter hp)

/-- No two of the properties that an object keeps are stored under the same name. -/
theorem nodup_keptNames_run (hc : bareClass className ≠ [Ascii.star]) (h : HasPlainNames operations) :
    (run className operations).keptNames.Nodup := by
  have he : (run className operations).keptNames =
      (written operations).map fun property => mangledName (bareClass className) property.1 property.2 := by
    rw [keptNames, ← List.forall₂_eq_eq_eq, List.forall₂_map_left_iff, List.forall₂_map_right_iff]
    exact (kept_run hc h).flip.imp fun _ _ hk => hk.1
  rw [he]
  refine List.Nodup.map_on (fun p hp q hq e => ?_) (nodup_written operations)
  obtain ⟨hn, hv⟩ := (mangledName_inj hc (h.assigned (mem_written.mp hp).1) (h.assigned (mem_written.mp hq).1)).mp e
  exact Prod.ext hn hv

end ObjectStore

end PhpLiteral
