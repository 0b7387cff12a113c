import PhpLiteral.Proofs.Data.Items

/-!
# Arguments are read back

The text that fills a place for a list of arguments is read as one argument for each entry of the array: its value,
with a label exactly where a text key is to be a name (`readArguments_renderSlot`). This holds on one line as well as
on lines of their own, and also for a single argument that has line feeds in it.
-/

namespace PhpLiteral

open Relation (ReflTransGen)
open Syntax (Data Indexing Argument Delimits Lexes ParsesItems)

/-- The name that the argument under a key is labelled with. -/
def argumentName? (named : Bool) : Key → Option Text
  | .str name => if named then some name else none
  | .int _ => none

/-- An argument is that of an entry: it has the value of the entry, labelled with its text key if `named`. -/
def IsArgumentOf (heap : Heap) (named : Bool) (entry : Key × Value) (a : Argument) : Prop :=
  a.label = argumentName? named entry.1 ∧ Denotes heap entry.2 a.value

variable {r : Indexing} {s : Settings} {heap : Heap}

/-- Data behind the label of its key is read as one argument. -/
theorem readsItem_argument {named : Bool} {key : Key} {d : Data} (hd : d.IsNormal)
    (hk : ∀ name ∈ argumentName? named key, isIdentifier name = true) :
    ReadsItem s (Syntax.readArgument r) [] (argumentLabel named key, d.tree) ⟨argumentName? named key, d⟩ := by
  intro level column
  obtain ⟨ls, hl, hp⟩ := reads_layout (r := r) s d hd level column
  have hnone : argumentLabel named key = [] → argumentName? named key = none →
      ∃ ls, Lexes (argumentLabel named key ++ d.tree.layout s level column) ls ∧
        Syntax.ParsesItem (Syntax.readArgument r) [] ls ⟨argumentName? named key, d⟩ := by
    intro h h'
    rw [h, h']
    exact ⟨ls, hl, hp.argument⟩
  cases key with
  | int i => exact hnone rfl rfl
  | str name =>
    cases named with
    | false => exact hnone rfl rfl
    | true =>
      have ht := hk name rfl
      have hc := (Syntax.lexes_identifier ht).append_delimits Syntax.delimits_colon
        (Syntax.stops_cons.mpr (by decide)) (by decide)
      exact ⟨_, hc.append_lexes hl, hp.labelled ht⟩

/-- The layout of a list of arguments is read as these arguments. -/
theorem exists_layout_arguments {named : Bool} {keys : List Key} {ds : List Data} (hn : ∀ d ∈ ds, d.IsNormal)
    (hk : ∀ key ∈ keys, ∀ name ∈ argumentName? named key, isIdentifier name = true) (column : Nat) :
    ∃ ls, Lexes ((Slot.arguments named keys (ds.map Data.tree)).layout s column) ls ∧
      ParsesItems (Syntax.readArgument r) [] ls ((keys.zip ds).map fun p => ⟨argumentName? named p.1, p.2⟩) := by
  have hi : List.Forall₂ (ReadsItem s (Syntax.readArgument r) [])
      ((keys.map (argumentLabel named)).zip (ds.map Data.tree))
      ((keys.zip ds).map fun p => ⟨argumentName? named p.1, p.2⟩) := by
    refine forall₂_readsItem fun p hp => ?_
    obtain ⟨hkey, hd⟩ := List.of_mem_zip hp
    exact readsItem_argument (hn p.2 hd) (hk p.1 hkey)
  rw [Slot.layout]
  split
  · exact exists_layoutInline_items column false hi
  · have hb : ∀ b ∈ (argumentLines s).before, Syntax.isSpace b = true := by
      intro b hb
      rcases List.mem_cons.mp hb with rfl | hb
      · rfl
      · exact isSpace_of_mem_unit hb
    obtain ⟨ls, hl, hp⟩ := exists_layoutLines_items hb Syntax.delimits_comma (Syntax.stops_comma [])
      (List.cons_ne_nil _ _) 0 hi
    have hw : Delimits (utf8 "\n") [] :=
      Syntax.delimits_of_isSpace (w := [Ascii.lineFeed]) (List.forall_mem_singleton.mpr rfl)
    have ht := (hl.append hw).lexes
    rw [List.append_nil] at ht
    exact ⟨ls, ht, hp⟩

/-- The list of arguments that is written for an array of data is read as one argument for each of its entries, in
order: the value, labelled with the text key where text keys are names. Such keys are identifiers. -/
theorem readArguments_renderSlot {chain : List Ref} {depth column id : Nat} {placeholder : Placeholder} {text : Text}
    (hp : placeholder.isSpread = true)
    (hv : ∀ v ∈ (heap.array id).values, ∀ w, ReflTransGen heap.Holds v w → heap.IsDatum w)
    (hk : placeholder = .namedSpread → ∀ name, .str name ∈ (heap.array id).keys → isIdentifier name = true)
    (h : renderSlot s heap chain depth column placeholder (.array id) = .ok text) :
    ∃ arguments, (∀ rule, Syntax.readArguments rule text = some arguments) ∧
      List.Forall₂ (IsArgumentOf heap (placeholder == .namedSpread)) (heap.array id).entries arguments := by
  obtain ⟨slot, hs, rfl⟩ := exists_of_renderSlot h
  rw [expandSlot_arguments hp] at hs
  split at hs
  · obtain ⟨trees, ht, rfl⟩ := map_eq_ok.mp hs
    obtain ⟨ds, hds, hn, rfl⟩ := exists_forall₂_denotes hv ht
    have hl : ∀ key ∈ (heap.array id).keys, ∀ name ∈ argumentName? (placeholder == .namedSpread) key,
        isIdentifier name = true := by
      intro key hm name hname
      cases key with
      | int i => cases hname
      | str stored =>
        rw [argumentName?] at hname
        split at hname
        · rename_i hb
          cases hname
          exact hk (eq_of_beq hb) name hm
        · cases hname
    refine ⟨((heap.array id).keys.zip ds).map fun p => ⟨argumentName? (placeholder == .namedSpread) p.1, p.2⟩,
      fun rule => ?_, ?_⟩
    · obtain ⟨ls, hls, hps⟩ := exists_layout_arguments (r := rule) (s := s) hn hl column
      exact Syntax.readArguments_eq hls hps
    · rw [List.forall₂_map_right_iff]
      refine (forall₂_zip_keys hds).imp fun e p hp => ?_
      exact ⟨congrArg (argumentName? _) hp.1, hp.2⟩
  · cases hs

/-- An array with entries under names and one under a number. -/
def mixedCall : Heap where
  arrays := [.ofList [.atom .null, .atom (.bool true)],
    .ofEntries [(.str (utf8 "flags"), .array 0), (.int 7, .atom (.string (utf8 "a\nb"))),
      (.str (utf8 "limit"), .atom (.int (-1)))]]
  objects := []

theorem entries_mixedCall : (mixedCall.array 0).values = [.atom .null, .atom (.bool true)] ∧
    (mixedCall.array 1).keys = [.str (utf8 "flags"), .int 7, .str (utf8 "limit")] ∧
    (mixedCall.array 1).values = [.array 0, .atom (.string (utf8 "a\nb")), .atom (.int (-1))] :=
  ⟨rfl, rfl, rfl⟩

theorem renderSlot_mixedCall : renderSlot { wrapLength := 20 } mixedCall [] 0 0 .namedSpread (.array 1) =
    .ok (utf8 "\n\tflags: [null, true],\n\t\"a\\nb\",\n\tlimit: -1,\n") := by
  obtain ⟨h₀, -, h₁⟩ := entries_mixedCall
  have he : expandAll mixedCall 50 1 [.array 1] (mixedCall.array 1).values =
      .ok [.array (mixedCall.array 0).keys [.atom .null, .atom (.bool true)], .atom (.string (utf8 "a\nb")),
        .atom (.int (-1))] := by
    simp [Value.expand, expandAll, h₀, h₁, Except.map, bind, Except.bind, pure, Except.pure]
  have hs : expandSlot mixedCall 50 0 [] .namedSpread (.array 1) = .ok (.arguments true (mixedCall.array 1).keys
      [.array (mixedCall.array 0).keys [.atom .null, .atom (.bool true)], .atom (.string (utf8 "a\nb")),
        .atom (.int (-1))]) := by
    rw [expandSlot_arguments rfl, if_pos (by simp), he]
    rfl
  rw [renderSlot_of_expandSlot hs, if_pos (by decide)]
  refine congrArg Except.ok ?_
  decide

theorem readArguments_renderSlot_mixedCall : ∃ arguments, (∀ rule, Syntax.readArguments rule
      (utf8 "\n\tflags: [null, true],\n\t\"a\\nb\",\n\tlimit: -1,\n") = some arguments) ∧
    List.Forall₂ (IsArgumentOf mixedCall true) (mixedCall.array 1).entries arguments := by
  have hp : ∀ v ∈ (mixedCall.array 1).values, v.isPlain = true := List.all_eq_true.mp (by decide)
  refine readArguments_renderSlot rfl (fun v hv w hw => Heap.isDatum_of_isPlain (by decide) (hp v hv) hw)
    (fun _ name hn => ?_) renderSlot_mixedCall
  rw [entries_mixedCall.2.1] at hn
  simp only [List.mem_cons, Key.str.injEq, reduceCtorEq, List.not_mem_nil, or_false, false_or] at hn
  rcases hn with rfl | rfl <;> decide

end PhpLiteral
