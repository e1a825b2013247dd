/-
Removing from a vector by moving its last element into the gap.

The order is lost, the elements are not: `perm_cons_swapRemove`. Where each
one is afterwards is `getElem?_swapRemove`.
-/
import Mathlib.Data.List.Perm.Basic
import Mathlib.Tactic.Common

namespace Miscreant.Lib

variable {α : Type} {xs : List α} {i j : Nat}

/-- The last element takes the place of the `i`-th. -/
def swapRemove (xs : List α) (i : Nat) : List α :=
  match xs.getLast? with
  | none => []
  | some last => (xs.set i last).dropLast

/-- Only place `i` has changed, and the last one is gone. -/
theorem getElem?_swapRemove (hi : i < xs.length) (j : Nat) :
    (swapRemove xs i)[j]? =
      if xs.length ≤ j + 1 then none else if j = i then xs[xs.length - 1]? else xs[j]? := by
  unfold swapRemove
  split
  · rename_i h
    rw [List.getLast?_eq_none_iff.1 h] at hi
    cases hi
  · rename_i last h
    rw [List.getLast?_eq_getElem?] at h
    rw [List.getElem?_dropLast, List.length_set]
    by_cases hj : j < xs.length - 1
    · rw [if_pos hj, if_neg (by omega), List.getElem?_set]
      by_cases hij : i = j
      · subst hij
        rw [if_pos rfl, if_pos rfl, if_pos hi, h]
      · rw [if_neg hij, if_neg (Ne.symm hij)]
    · rw [if_neg hj, if_pos (by omega)]

/-- What was removed, and the rest. -/
theorem perm_cons_swapRemove (hi : i < xs.length) : List.Perm xs (xs[i] :: swapRemove xs i) := by
  obtain ⟨init, last, rfl⟩ : ∃ init last, xs = init ++ [last] := by
    rcases List.eq_nil_or_concat xs with rfl | ⟨init, last, rfl⟩
    · cases hi
    · exact ⟨init, last, List.concat_eq_append⟩
  rw [swapRemove, List.getLast?_append_of_ne_nil _ (by simp), List.getLast?_singleton]
  rw [List.length_append, List.length_singleton] at hi
  dsimp only
  by_cases h : i < init.length
  · rw [List.set_append_left _ _ h, List.dropLast_concat, List.getElem_append_left h]
    have hset := (List.set_perm_cons_eraseIdx h last)
    have hold := (List.getElem_cons_eraseIdx_perm h)
    refine (List.perm_append_singleton last init).trans ?_
    refine ((hold.symm.cons last).trans (List.Perm.swap ..)).trans ?_
    exact (hset.symm).cons _
  · obtain rfl : i = init.length := by omega
    simp

end Miscreant.Lib
