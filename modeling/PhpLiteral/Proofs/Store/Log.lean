import PhpLiteral.Association

/-!
# What puts leave

A log lists what was put into an association list, in order. The list holds each key of the log once, in order of the
first put, with the value of the last one (`Association.Keeps`), and each put keeps this.
-/

namespace PhpLiteral

theorem eraseDups_concat {β : Type} [BEq β] [LawfulBEq β] (l : List β) (b : β) :
    (l ++ [b]).eraseDups = if b ∈ l then l.eraseDups else l.eraseDups ++ [b] := by
  rw [List.eraseDups_append]
  split <;> simp_all [List.removeAll, List.eraseDups_cons]

namespace Association

variable {κ α : Type} [DecidableEq κ]

/-- The value that a log gives a key last. -/
def last? (log : List (κ × α)) (key : κ) : Option α := get? key log.reverse

theorem last?_concat (log : List (κ × α)) (key k : κ) (value : α) :
    last? (log ++ [(key, value)]) k = if key = k then some value else last? log k := by
  rw [last?, List.reverse_append, List.reverse_singleton, List.singleton_append, get?]
  rfl

/-- A list holds what the puts of a log leave. -/
structure Keeps [BEq κ] (log l : List (κ × α)) : Prop where
  keys_eq : l.map Prod.fst = (log.map Prod.fst).eraseDups
  get?_eq : ∀ key, get? key l = last? log key

variable [BEq κ]

theorem Keeps.put [LawfulBEq κ] {log l : List (κ × α)} (h : Keeps log l) (key : κ) (value : α) :
    Keeps (log ++ [(key, value)]) (put key value l) where
  keys_eq := by
    rw [keys_put, h.keys_eq, List.map_append, List.map_singleton, eraseDups_concat]
    simp only [List.mem_eraseDups]
  get?_eq k := by rw [get?_put, last?_concat, h.get?_eq]

end Association

end PhpLiteral
