import PhpLiteral.Proofs.Termination

/-!
# How deep rendering goes

An array or an object deeper than the settings allow is never gone into. So what it holds does not matter
(`SameDown.dump_eq`), and nothing is written if there is such a container with anything in it
(`depth_le_of_holdsAt`). Raw code with arguments is gone into at any depth.
-/

namespace PhpLiteral

/-! ## Depths -/

/-- A value stands inside another one at a depth: each entry, property and argument on the way is one level deeper. -/
inductive Heap.HoldsAt (heap : Heap) : Nat → Value → Value → Prop
  | self (v : Value) : heap.HoldsAt 0 v v
  | inside {d : Nat} {v u w : Value} : heap.Holds v u → heap.HoldsAt d u w → heap.HoldsAt (d + 1) v w

mutual

/-- Two values at a depth, in two heaps, are the same down to a limit: they differ at most in the contents of arrays
and objects that stand deeper, and an array there is empty in both heaps or in none. -/
inductive SameDown (h h' : Heap) (limit : Nat) : Nat → Value → Value → Prop
  | atom {depth : Nat} (a : Atom) : SameDown h h' limit depth (.atom a) (.atom a)
  | array {depth id : Nat} :
    (h.array id).values.isEmpty = (h'.array id).values.isEmpty →
    (depth ≤ limit → (h.array id).keys = (h'.array id).keys) →
    (depth ≤ limit → AllSameDown h h' limit (depth + 1) (h.array id).values (h'.array id).values) →
    SameDown h h' limit depth (.array id) (.array id)
  | object {depth id : Nat} :
    (h.object id).isAnonymous = (h'.object id).isAnonymous →
    (depth ≤ limit → (h.object id).className = (h'.object id).className) →
    (depth ≤ limit → (h.object id).keptNames = (h'.object id).keptNames) →
    (depth ≤ limit → AllSameDown h h' limit (depth + 1) (h.object id).keptValues (h'.object id).keptValues) →
    SameDown h h' limit depth (.object id) (.object id)
  | literal {depth : Nat} (code : Text) {args args' : List Value} :
    AllSameDown h h' limit (depth + 1) args args' →
    SameDown h h' limit depth (.literal code args) (.literal code args')
  | capturing {depth : Nat} : SameDown h h' limit depth .capturing .capturing
  | resource {depth : Nat} (kind : Text) : SameDown h h' limit depth (.resource kind) (.resource kind)

/-- The same of values in order. -/
inductive AllSameDown (h h' : Heap) (limit : Nat) : Nat → List Value → List Value → Prop
  | nil {depth : Nat} : AllSameDown h h' limit depth [] []
  | cons {depth : Nat} {v v' : Value} {rest rest' : List Value} :
    SameDown h h' limit depth v v' → AllSameDown h h' limit depth rest rest' →
    AllSameDown h h' limit depth (v :: rest) (v' :: rest')

end

variable {heap heap' : Heap} {maxDepth : Nat}

/-! ## What stands too deep does not matter -/

theorem AllSameDown.forall₂ {limit depth : Nat} : ∀ {vs vs' : List Value},
    AllSameDown heap heap' limit depth vs vs' → List.Forall₂ (SameDown heap heap' limit depth) vs vs'
  | [], _, .nil => .nil
  | _ :: _, _, .cons hv hs => .cons hv hs.forall₂

/-- Values that are the same down to a limit stay side by side down to it. -/
theorem SameDown.sideBySide {limit : Nat} {p : Place} {v v' : Value} (h : SameDown heap heap' limit p.depth v v') :
    SideBySide (fun q w q' w' => q' = q ∧ SameDown heap heap' limit q.depth w w') False heap heap' limit limit p p
      v v' := by
  cases h with
  | atom a => exact .atom a
  | array he hk hs =>
    exact .array he.symm ⟨fun ha => ⟨ha, (hk ha.1).symm, (hs ha.1).forall₂.imp fun _ _ hw => ⟨rfl, hw⟩⟩, .inl⟩
  | object ha hc hk hs =>
    exact .object ha.symm ⟨fun he => ⟨he, ⟨(hc he.1).symm, (hk he.1).symm⟩,
      (hs he.1).forall₂.imp fun _ _ hw => ⟨rfl, hw⟩⟩, .inl⟩
  | literal code hs => exact .literal code (hs.forall₂.imp fun _ _ hw => ⟨rfl, hw⟩)
  | capturing => exact .capturing
  | resource kind => exact .resource kind

theorem SameDown.dump_eq {s : Settings} {v v' : Value} (h : SameDown heap heap' s.maxDepth 0 v v') (column : Nat) :
    dump s heap' v' column = dump s heap v column := by
  have hr : Related .checked .checked (fun _ x y => x = y) s s.maxDepth heap heap' {} v {} v' :=
    renderWith_related (relates_eq .checked) False.elim
      (B := fun q w q' w' => q' = q ∧ SameDown heap heap' s.maxDepth q.depth w w')
      (by rintro q w _ w' ⟨rfl, hw⟩; exact hw.sideBySide) ⟨rfl, h⟩
  exact (hr.render 0 column).symm

/-! ## What can be written is not too deep -/

/-- In a value that can be expanded, arrays and objects that hold anything are not too deep. -/
theorem depth_le_of_holdsAt {d : Nat} {v u w : Value} (hd : heap.HoldsAt d v u) (hw : heap.Holds u w)
    (hu : u.kind ≠ .literal) : ∀ {depth : Nat} {chain : List Ref} {t : Tree},
      v.expand heap maxDepth depth chain = .ok t → depth + d ≤ maxDepth := by
  induction hd with
  | self v => exact fun h => (exists_expand_of_holds h hw).2 hu
  | inside hv _ ih =>
    intro depth chain t h
    obtain ⟨⟨chain', t', h', -⟩, -⟩ := exists_expand_of_holds h hv
    have := ih hw hu h'
    omega

/-! ## The operation of the library -/

/-- What arrays and objects deeper than the settings allow hold is never looked at: the outcome is the same whatever it
is. The value is refused if an array or an object holds something deeper than one level below the greatest depth, unless
a sum leaves 64 bits before. -/
theorem dump_depth (s : Settings) (heap : Heap) (v : Value) (column : Nat) :
    (∀ (heap' : Heap) (v' : Value), SameDown heap heap' s.maxDepth 0 v v' →
      dump s heap' v' column = dump s heap v column) ∧
    ∀ (d : Nat) (u w : Value), heap.HoldsAt d v u → heap.Holds u w → s.maxDepth + 1 < d + 1 →
      (∃ e, dump s heap v column = .error (if InRange s heap v column then .error e else .overflow)) ∨
        u.kind = .literal := by
  refine ⟨fun heap' v' h => ?_, fun d u w hd hw hlt => ?_⟩
  · exact h.dump_eq column
  · by_cases hu : u.kind = .literal
    · exact .inr hu
    · left
      cases ht : v.expand heap s.maxDepth 0 [] with
      | error e => exact ⟨e, dump_of_expand_error ht column⟩
      | ok t =>
        have := depth_le_of_holdsAt hd hw hu ht
        omega

/-- An array that holds an array with a value. -/
def twoDeep (a : Atom) : Heap where
  arrays := [.ofList [.array 1], .ofList [.atom a]]
  objects := []

theorem inRange_twoDeep : InRange { maxDepth := 0 } (twoDeep .null) (.array 0) 0 := by
  have h₀ : ((twoDeep .null).array 0).values = [.array 1] := rfl
  have h₁ : ((twoDeep .null).array 1).values = [.atom .null] := rfl
  have hl : entryLabels ((twoDeep .null).array 0).keys = [[]] := by decide
  simp [InRange, Value.sums, Value.renderWith, renderInlineWith, h₀, h₁, hl, Machine.measuring, bind]
  decide

/-- The inner array is too deep, and what it holds does not matter. -/
theorem dump_depth_twoDeep :
    dump { maxDepth := 0 } (twoDeep (.bool true)) (.array 0) 0 = dump { maxDepth := 0 } (twoDeep .null) (.array 0) 0 ∧
      ∃ e, dump { maxDepth := 0 } (twoDeep .null) (.array 0) 0 = .error (.error e) := by
  have hi : SameDown (twoDeep .null) (twoDeep (.bool true)) 0 1 (.array 1) (.array 1) :=
    .array rfl (fun h => absurd h (by decide)) fun h => absurd h (by decide)
  have hs : SameDown (twoDeep .null) (twoDeep (.bool true)) 0 0 (.array 0) (.array 0) :=
    .array rfl (fun _ => rfl) fun _ => .cons hi .nil
  have hh : (twoDeep .null).Holds (.array 0) (.array 1) := .entry (List.mem_singleton_self _)
  obtain ⟨h, hn⟩ := dump_depth { maxDepth := 0 } (twoDeep .null) (.array 0) 0
  refine ⟨h _ _ hs, ?_⟩
  obtain ⟨e, he⟩ | hk := hn 1 (.array 1) (.atom .null) (.inside hh (.self _)) (.entry (List.mem_singleton_self _))
    (by decide)
  · exact ⟨e, by rw [he, if_pos inRange_twoDeep]⟩
  · cases hk

/-- Calls with calls as their arguments, and a number innermost. -/
def nestedCalls : Value :=
  .literal (utf8 "f(?)") [.literal (utf8 "g(?)") [.literal (utf8 "h(?)") [.atom (.int 1)]]]

/-- Arguments of code are written at any depth, here a number at depth 3 although values may stand at depth 2. -/
theorem dump_nestedCalls :
    dump { maxDepth := 1 } .empty nestedCalls 0 = .ok (utf8 "f(g(h(1)))") ∧
      Heap.empty.HoldsAt 3 nestedCalls (.atom (.int 1)) ∧ ¬ 3 ≤ ({ maxDepth := 1 } : Settings).maxDepth + 1 := by
  have hf : Template.parse (utf8 "f(?)") = ⟨utf8 "f(", [(.value, utf8 ")")]⟩ := by decide
  have hg : Template.parse (utf8 "g(?)") = ⟨utf8 "g(", [(.value, utf8 ")")]⟩ := by decide
  have hh : Template.parse (utf8 "h(?)") = ⟨utf8 "h(", [(.value, utf8 ")")]⟩ := by decide
  have he : nestedCalls.expand .empty 1 0 [] = .ok (.template (utf8 "f(") [(.value (.template (utf8 "g(")
      [(.value (.template (utf8 "h(") [(.value (.atom (.int 1)), utf8 ")")]), utf8 ")")]), utf8 ")")]) := by
    simp [nestedCalls, Value.expand, expandSlots, expandSlot, hf, hg, hh, Except.map, bind, Except.bind, pure,
      Except.pure]
  have hm : ∀ {code : Text} {w : Value}, Heap.empty.Holds (.literal code [w]) w :=
    .argument (List.mem_singleton_self _)
  refine ⟨?_, .inside hm (.inside hm (.inside hm (.self _))), by decide⟩
  rw [dump_of_expand he, if_pos (by decide)]
  refine congrArg Except.ok ?_
  decide

end PhpLiteral
