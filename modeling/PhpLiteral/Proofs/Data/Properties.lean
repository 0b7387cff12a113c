import PhpLiteral.Proofs.Data.Items
import PhpLiteral.Proofs.Layout.ClassName
import PhpLiteral.Proofs.Store.Properties

/-!
# Properties are read back

An object that operations have made can be written if the values that it keeps can be written inside of it, and then
the array that stands in its text is read as one entry for each property to be written: the stored name, and the
value that was assigned last (`readProperties_render`).
-/

namespace PhpLiteral

open Relation (ReflTransGen)
open ObjectStore (Operation HasPlainNames assignments lastAssigned? written IsKeptFor kept_run records_run)
open Syntax (Data Indexing Lexeme Delimits ParsesItems)

variable {s : Settings} {heap : Heap}

/-! ## What can be written -/

/-- Values can be written on lines of their own if each of them can be written behind its label. -/
theorem exists_renderLines_iff {chain : List Ref} {f : Frame} {style : LineStyle} {labels : List Text}
    {values : List Value} (h : labels.length = values.length) :
    (∃ text, renderLinesWith .checked s heap chain f style labels values = .ok text) ↔
      ∀ entry ∈ labels.zip values,
        ∃ text, entry.2.render s heap chain (f.lineChild (labelRoom style.counted entry.1)) = .ok text := by
  induction labels generalizing values with
  | nil =>
    cases values with
    | nil =>
      rw [renderLinesWith]
      · simp [pure, Except.pure]
      · simp
    | cons v values => cases h
  | cons label labels ih =>
    cases values with
    | nil => cases h
    | cons v values =>
      rw [List.zip_cons_cons, List.forall_mem_cons, ← ih (Nat.succ.inj h), renderLinesWith]
      simp only [bind_eq_ok]
      constructor
      · rintro ⟨_, text, ht, more, hm, -⟩
        exact ⟨⟨text, ht⟩, more, hm⟩
      · rintro ⟨⟨text, ht⟩, more, hm⟩
        exact ⟨_, text, ht, more, hm, rfl⟩

theorem exists_render_object_iff {chain : List Ref} {f : Frame} {id : Nat} (ha : (heap.object id).isAnonymous = false) :
    (∃ text, (Value.object id).render s heap chain f = .ok text) ↔
      (f.depth ≤ s.maxDepth ∧ .object id ∉ chain) ∧ ∀ entry ∈ (heap.object id).kept,
        ∃ text, entry.2.render s heap (.object id :: chain) (f.lineChild (propertyLabel entry.1).length) =
          .ok text := by
  have hl : ((heap.object id).keptNames.map propertyLabel).length = (heap.object id).keptValues.length := by
    rw [List.length_map, length_keptNames]
  have hz : ((heap.object id).keptNames.map propertyLabel).zip (heap.object id).keptValues =
      (heap.object id).kept.map fun entry => (propertyLabel entry.1, entry.2) := by
    rw [ObjectStore.keptNames, ObjectStore.keptValues, List.map_map, List.zip_map']
    rfl
  have hr := @exists_renderLines_iff s heap (.object id :: chain) f (objectLines s f.level) _ _ hl
  rw [hz, List.forall_mem_map] at hr
  rw [Value.render, Value.renderWith, if_neg (by rw [ha]; exact Bool.false_ne_true)]
  split
  · rename_i hc
    refine Iff.trans ?_ (hr.trans (and_iff_right hc).symm)
    simp only [bind_eq_ok]
    constructor
    · rintro ⟨_, lines, hl, -⟩
      exact ⟨lines, hl⟩
    · rintro ⟨lines, hl⟩
      exact ⟨_, lines, hl, rfl⟩
  · rename_i hc
    refine iff_of_false ?_ fun h => hc h.1
    rintro ⟨_, h⟩
    cases h

/-! ## Reading the array -/

/-- Data behind the literal of a stored name is read as one property. -/
theorem readsItem_property {r : Indexing} {name : Text} {d : Data} (hd : d.IsNormal) :
    ReadsItem s (Syntax.readProperty r) [.closeBracket] (propertyLabel name, d.tree) (name, d) := by
  intro level column
  obtain ⟨ls, hl, hp⟩ := reads_layout (r := r) s d hd level column
  have ha := (Syntax.delimits_stringLiteral name).append Syntax.delimits_arrow
  exact ⟨_, ha.append_lexes hl, hp.property name⟩

/-- The array of properties is read as these properties. -/
theorem readProperties_propertyArray {names : List Text} {ds : List Data} (hn : ∀ d ∈ ds, d.IsNormal) (level : Nat)
    (rule : Indexing) :
    Syntax.readProperties rule (propertyArray s level
      (layoutLines s level (objectLines s level) (names.map propertyLabel) (ds.map Data.tree))) =
        some (names.zip ds) := by
  have hi : List.Forall₂ (ReadsItem s (Syntax.readProperty rule) [.closeBracket])
      ((names.map propertyLabel).zip (ds.map Data.tree)) ((names.zip ds).map fun p => (p.1, p.2)) :=
    forall₂_readsItem fun p hp => readsItem_property (hn p.2 (List.of_mem_zip hp).2)
  have hb : ∀ b ∈ (objectLines s level).before, Syntax.isSpace b = true := by
    intro b hb
    rcases List.mem_append.mp hb with hb | hb
    · exact isSpace_of_mem_levels hb
    · exact isSpace_of_mem_unit hb
  obtain ⟨ls, hl, hp⟩ := exists_layoutLines_items hb (delimits_comma_space (List.forall_mem_singleton.mpr rfl))
    (Syntax.stops_comma _) (List.cons_ne_nil _ _) level hi
  rw [List.map_id'] at hp
  refine Syntax.readProperties_eq ?_ hp
  have hf : Delimits (utf8 "\n") [] :=
    Syntax.delimits_of_isSpace (w := [Ascii.lineFeed]) (List.forall_mem_singleton.mpr rfl)
  have hs : Delimits (s.indent.levels level) [] := Syntax.delimits_of_isSpace fun b hb => isSpace_of_mem_levels hb
  have := (((Syntax.delimits_open.append hf).append hl).append hs).append Syntax.delimits_close
  have e : utf8 "[\n" = [Ascii.openBracket] ++ utf8 "\n" := rfl
  rw [propertyArray, e, show utf8 "]" = [Ascii.closeBracket] from rfl]
  simpa using this

theorem objectText_eq_propertyArray (s : Settings) (level : Nat) (className lines : Text) :
    objectText s level className lines =
      if className = stdClass then utf8 "(object) " ++ propertyArray s level lines
      else s.factory ++ utf8 "('" ++ className ++ utf8 "', " ++ propertyArray s level lines ++ utf8 ")" := by
  split
  · rename_i h
    have e₁ : utf8 "(object) [" = utf8 "(object) " ++ utf8 "[" := rfl
    have e₂ : utf8 "[\n" = utf8 "[" ++ utf8 "\n" := rfl
    rw [objectText, objectHead, objectTail, if_pos h, if_pos h, propertyArray, e₁, e₂]
    simp only [List.append_assoc]
  · rename_i h
    rw [objectText_of_ne_stdClass h]
    have e₁ : utf8 "('" = utf8 "(" ++ [Ascii.quote] := rfl
    have e₂ : utf8 "', " = Ascii.quote :: utf8 ", " := rfl
    rw [e₁, e₂]
    simp only [List.append_assoc, List.cons_append, List.nil_append]

/-! ## Objects that operations have made -/

/-- An entry is that of a property: it has the stored name of the property and the value that was assigned to it
last. -/
def IsEntryOf (heap : Heap) (className : Text) (operations : List (Operation Value)) (property : Text × Visibility)
    (entry : Text × Data) : Prop :=
  entry.1 = mangledName (bareClass className) property.1 property.2 ∧
    ∃ v, lastAssigned? operations property = some v ∧ Denotes heap v entry.2

variable {className : Text} {operations : List (Operation Value)}

theorem forall_kept_run (hc : bareClass className ≠ [Ascii.star]) (hn : HasPlainNames operations)
    {P : Text → Value → Prop} : (∀ entry ∈ (ObjectStore.run className operations).kept, P entry.1 entry.2) ↔
      ∀ property ∈ written operations, ∀ v, lastAssigned? operations property = some v →
        P (mangledName (bareClass className) property.1 property.2) v := by
  have h := kept_run hc hn
  generalize written operations = properties at h
  generalize (ObjectStore.run className operations).kept = entries at h
  induction h with
  | nil => simp
  | cons hk _ ih =>
    rw [List.forall_mem_cons, List.forall_mem_cons]
    exact and_congr (by simp only [hk.1, hk.2, Option.some.injEq, forall_eq']) ih

/-- The entries with the values that an object keeps are those of the properties to be written. -/
theorem forall₂_isEntryOf (hc : bareClass className ≠ [Ascii.star]) (hn : HasPlainNames operations) {ds : List Data}
    (hds : List.Forall₂ (Denotes heap) (ObjectStore.run className operations).keptValues ds) :
    List.Forall₂ (IsEntryOf heap className operations) (written operations)
      ((ObjectStore.run className operations).keptNames.zip ds) := by
  have hk := kept_run hc hn
  have hz := forall₂_zip_keys hds
  rw [← ObjectStore.keptNames] at hz
  generalize written operations = properties at hk
  generalize (ObjectStore.run className operations).kept = entries at hk hz
  generalize (ObjectStore.run className operations).keptNames.zip ds = items at hz
  induction hk generalizing items with
  | nil => rw [List.forall₂_nil_left_iff.mp hz]; exact .nil
  | cons hk _ ih =>
    obtain ⟨item, rest, hi, hr, rfl⟩ := List.forall₂_cons_left_iff.mp hz
    exact .cons ⟨hi.1.trans hk.1, _, hk.2, hi.2⟩ (ih _ hr)

/-- An object that operations have made of one without properties can be written at a place exactly if it may be
entered there and the values of the properties to be written can be written inside of it, behind their names. Its text
then holds an array literal that is read, with the keys taken as strings, as one entry for each of these properties, in
order: the stored name, and the value that was assigned last. No key is there twice. -/
theorem readProperties_render {chain : List Ref} {f : Frame} {id : Nat}
    (hid : heap.object id = ObjectStore.run className operations) (hc : bareClass className ≠ utf8 "*")
    (hn : HasPlainNames operations)
    (hv : ∀ a ∈ assignments operations, ∀ w, ReflTransGen heap.Holds a.2 w → heap.IsDatum w) :
    ((∃ text, (Value.object id).render s heap chain f = .ok text) ↔
      (f.depth ≤ s.maxDepth ∧ .object id ∉ chain) ∧
        ∀ property ∈ written operations, ∀ v, lastAssigned? operations property = some v →
          ∃ text, v.render s heap (.object id :: chain) (f.lineChild (propertyLabel
            (mangledName (bareClass className) property.1 property.2)).length) = .ok text) ∧
    ∀ text, (Value.object id).render s heap chain f = .ok text →
      ∃ body entries,
        text = (if bareClass className = stdClass then utf8 "(object) " ++ body
          else s.factory ++ utf8 "('" ++ bareClass className ++ utf8 "', " ++ body ++ utf8 ")") ∧
        (∀ rule, Syntax.readProperties rule body = some entries) ∧
        List.Forall₂ (IsEntryOf heap className operations) (written operations) entries ∧
        (entries.map Prod.fst).Nodup := by
  have hr := records_run className operations
  have ha : (heap.object id).isAnonymous = false := hid ▸ hr.isAnonymous_eq
  refine ⟨?_, fun text h => ?_⟩
  · rw [exists_render_object_iff ha, hid, forall_kept_run hc hn
      (P := fun stored v => ∃ text, v.render s heap _ (f.lineChild (propertyLabel stored).length) = .ok text)]
  · obtain ⟨t, ht, rfl⟩ := exists_of_render h
    obtain ⟨-, ts, hts, rfl⟩ := exists_of_expand_object ht
    have hk : ∀ v ∈ (heap.object id).keptValues, ∀ w, ReflTransGen heap.Holds v w → heap.IsDatum w := by
      rw [ObjectStore.keptValues, List.forall_mem_map, hid,
        forall_kept_run hc hn (P := fun _ v => ∀ w, ReflTransGen heap.Holds v w → heap.IsDatum w)]
      intro property _ v hl
      exact hv (property, v) (List.mem_reverse.mp (Association.mem_of_get?_eq_some hl))
    obtain ⟨ds, hds, hnd, rfl⟩ := exists_forall₂_denotes hk hts
    rw [hid] at hds
    have hlen : (ObjectStore.run className operations).keptNames.length ≤ ds.length := by
      rw [length_keptNames, hds.length_eq]
    refine ⟨_, (heap.object id).keptNames.zip ds, ?_,
      fun rule => readProperties_propertyArray (s := s) hnd f.level rule, ?_, ?_⟩
    · rw [Tree.layout, objectText_eq_propertyArray, hid, hr.className_eq]
    · rw [hid]
      exact forall₂_isEntryOf hc hn hds
    · rw [hid, List.map_fst_zip hlen]
      exact ObjectStore.nodup_keptNames_run hc hn

/-- Operations that assign to one name with two visibilities, to one property twice, and give two lists of names. -/
def pointOperations : List (Operation Value) :=
  [.set (utf8 "x") .everywhere (.atom (.int 1)), .set (utf8 "y") .subclasses (.array 0), .persistOnly [utf8 "y"],
    .set (utf8 "cached") .everywhere (.atom (.bool true)), .set (utf8 "x") .sameClass (.atom .null),
    .set (utf8 "x") .everywhere (.atom (.int 3)), .persistOnly [utf8 "y", utf8 "x"]]

/-- A heap with the object that these operations make. -/
def points : Heap where
  arrays := [.ofList [.atom (.int 1), .atom (.int 2)]]
  objects := [.run (utf8 "\\App\\Point") pointOperations]

theorem written_pointOperations : written pointOperations =
    [(utf8 "x", .everywhere), (utf8 "y", .subclasses), (utf8 "x", .sameClass)] := by decide

theorem values_points : (points.array 0).values = [.atom (.int 1), .atom (.int 2)] ∧
    (points.object 0).isAnonymous = false ∧ (points.object 0).keptValues = [.atom (.int 3), .array 0, .atom .null] :=
  ⟨rfl, rfl, rfl⟩

theorem render_points : (Value.object 0).render {} points [] ⟨0, 0, 0⟩ =
    .ok (utf8 "\\Nette\\PhpGenerator\\Dumper::createObject('App\\Point', [\n\t'x' => 3,\n\t\"\\x00*\\x00y\" => [1, 2],
\t\"\\x00App\\\\Point\\x00x\" => null,\n])") := by
  obtain ⟨h₀, ha, h₁⟩ := values_points
  have he : (Value.object 0).expand points 50 0 [] = .ok (.object (points.object 0).className
      (points.object 0).keptNames
      [.atom (.int 3), .array (points.array 0).keys [.atom (.int 1), .atom (.int 2)], .atom .null]) := by
    simp [Value.expand, expandAll, h₀, h₁, ha, Except.map, bind, Except.bind, pure, Except.pure]
  rw [render_of_expand he, if_pos (by decide)]
  refine congrArg Except.ok ?_
  decide

theorem readProperties_render_points : ∃ body entries,
    utf8 "\\Nette\\PhpGenerator\\Dumper::createObject('App\\Point', [\n\t'x' => 3,\n\t\"\\x00*\\x00y\" => [1, 2],
\t\"\\x00App\\\\Point\\x00x\" => null,\n])" =
      ({} : Settings).factory ++ utf8 "('" ++ utf8 "App\\Point" ++ utf8 "', " ++ body ++ utf8 ")" ∧
    (∀ rule, Syntax.readProperties rule body = some entries) ∧
    List.Forall₂ (IsEntryOf points (utf8 "\\App\\Point") pointOperations)
      [(utf8 "x", .everywhere), (utf8 "y", .subclasses), (utf8 "x", .sameClass)] entries ∧
    (entries.map Prod.fst).Nodup := by
  have hn : HasPlainNames pointOperations := by decide
  have hp : ∀ a ∈ assignments pointOperations, a.2.isPlain = true := List.all_eq_true.mp (by decide)
  have hv : ∀ a ∈ assignments pointOperations, ∀ w, ReflTransGen points.Holds a.2 w → points.IsDatum w :=
    fun a ha w hw => Heap.isDatum_of_isPlain (by decide) (hp a ha) hw
  have h := (readProperties_render rfl (by decide) hn hv).2 _ render_points
  have hb : bareClass (utf8 "\\App\\Point") = utf8 "App\\Point" := rfl
  simp only [written_pointOperations, hb, if_neg (show utf8 "App\\Point" ≠ stdClass by decide)] at h
  exact h

end PhpLiteral
