import PhpLiteral.Layout
import PhpLiteral.Proofs.Syntax.Expression

/-!
# Keys that are left out

A key is left out only where PHP gives the entry this key itself. The invariant (`Numbering.Follows`) relates the
numbering to the keys before and behind a place in an array; it holds before the first entry
(`Numbering.follows_ofKeys`) and is kept by each one (`Numbering.Follows.after`).
-/

namespace PhpLiteral

open Syntax (Indexing greatest?)

theorem greatest?_concat_int (keys : List Key) (i : Int64) :
    greatest? (keys ++ [.int i]) = some (match greatest? keys with | none => i.toInt | some m => max m i.toInt) := by
  rw [greatest?, greatest?, List.filterMap_append]
  cases keys.filterMap fun k => k.int?.map Int64.toInt with
  | nil => rfl
  | cons x l =>
    show some ((l ++ [i.toInt]).foldl max x) = some (max (l.foldl max x) i.toInt)
    rw [List.foldl_append]
    rfl

namespace Numbering

/-- Keys are left out only in a run. Then the next index is 0 at first, and later on it is behind the greatest key
and not negative. -/
def Follows (n : Numbering) (before rest : List Key) : Prop :=
  n.implied = true →
    (before = [] ∧ n.next = 0 ∧ isConsecutive rest = true) ∨
      ∃ last : Int64, greatest? before = some last.toInt ∧
        n.next = (if 0 ≤ nextInt64 last then nextInt64 last else 0) ∧ isRun (last.toInt + 1) rest = true

theorem follows_ofKeys (keys : List Key) : (ofKeys keys).Follows [] keys := fun h => .inl ⟨rfl, rfl, h⟩

theorem eq_int_of_isRun {i : Int} {key : Key} {rest : List Key} (h : isRun i (key :: rest) = true) :
    ∃ k : Int64, key = .int k ∧ k.toInt = i ∧ isRun (i + 1) rest = true := by
  cases key with
  | int k => simpa [isRun] using h
  | str name => simp [isRun] at h

theorem eq_int_of_isConsecutive {key : Key} {rest : List Key} (h : isConsecutive (key :: rest) = true) :
    ∃ k : Int64, key = .int k ∧ isRun (k.toInt + 1) rest = true := by
  cases key with
  | int k => exact ⟨k, rfl, h⟩
  | str name => simp [isConsecutive] at h

theorem nextInt64_of_toInt_succ {last k : Int64} (h : k.toInt = last.toInt + 1) : nextInt64 last = k := by
  have hk := k.toInt_le
  rw [← Int64.toInt_inj, toInt_nextInt64]
  omega

theorem Follows.after {n : Numbering} {before rest : List Key} {key : Key} (h : n.Follows before (key :: rest)) :
    (n.after key).Follows (before ++ [key]) rest := by
  intro hi
  have hi' : n.implied = true := by cases key <;> exact hi
  rcases h hi' with ⟨rfl, hn, hr⟩ | ⟨last, hg, hn, hr⟩
  · obtain ⟨k, rfl, hr⟩ := eq_int_of_isConsecutive hr
    exact .inr ⟨k, rfl, by rw [Numbering.after, hn], hr⟩
  · obtain ⟨k, rfl, hk, hr⟩ := eq_int_of_isRun hr
    refine .inr ⟨k, ?_, ?_, hk ▸ hr⟩
    · rw [greatest?_concat_int, hg]
      simp only [Option.some.injEq]
      omega
    · rw [Numbering.after, hn, nextInt64_of_toInt_succ hk]
      by_cases h0 : 0 ≤ k
      · have hs := toInt_nextInt64 k
        have hm := k.toInt_le
        have hle : k ≤ nextInt64 k := Int64.le_iff_toInt_le.mpr (by omega)
        simp only [if_pos h0, if_pos hle, if_pos (Int64.le_trans h0 hle)]
      · simp only [if_neg h0]

/-- A key that is left out is the one that PHP gives the entry, by either rule. -/
theorem Follows.next? {n : Numbering} {before rest : List Key} (h : n.Follows before (.int n.next :: rest))
    (hi : n.implied = true) (r : Indexing) : r.next? before = some n.next := by
  rcases h hi with ⟨rfl, hn, -⟩ | ⟨last, hg, hn, hr⟩
  · rw [hn]; rfl
  · obtain ⟨k, hk, hl, -⟩ := eq_int_of_isRun hr
    cases hk
    rw [nextInt64_of_toInt_succ hl] at hn
    have h0 : 0 ≤ n.next.toInt := by
      split at hn
      · rename_i h0
        exact Int64.le_iff_toInt_le.mp h0
      · rw [hn]; decide
    rw [Indexing.next?, hg]
    have hb : r.behind last.toInt = n.next.toInt := by
      cases r <;> simp only [Indexing.behind] <;> omega
    simp only [hb, int64?_toInt]

end Numbering

end PhpLiteral
