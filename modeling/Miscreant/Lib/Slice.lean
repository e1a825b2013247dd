/-
Slices of a list by offsets, and a list cut into parts of one size.

A slice is given as `Range` is in most languages: from `a` up to, not
including, `b`, clipped to the list. Adjoining slices join (`slice_append`), a
slice of a slice is a slice (`slice_slice`), and what the parts of a list have
of a slice, joined, is the slice (`flatMap_pieces`).
-/
import Mathlib.Data.List.Basic
import Mathlib.Data.Nat.Basic
import Mathlib.Tactic.Common

namespace Miscreant.Lib

variable {α : Type} {xs : List α} {a b c d n i k : Nat}

/-- The elements of `xs` from offset `a` up to offset `b`. -/
def slice (xs : List α) (a b : Nat) : List α := (xs.drop a).take (b - a)

theorem length_slice (xs : List α) (a b : Nat) : (slice xs a b).length = min b xs.length - a := by
  rw [slice, List.length_take, List.length_drop]
  omega

theorem slice_of_le (h : b ≤ a) : slice xs a b = [] := by
  rw [slice, Nat.sub_eq_zero_of_le h, List.take_zero]

/-- What is past the end does not count. -/
theorem slice_min (xs : List α) (a b : Nat) : slice xs a (min b xs.length) = slice xs a b := by
  by_cases h : b ≤ xs.length
  · rw [Nat.min_eq_left h]
  · rw [slice, slice, List.take_of_length_le, List.take_of_length_le]
    all_goals rw [List.length_drop]; omega

theorem slice_of_le_length (h : xs.length ≤ b) : slice xs a b = xs.drop a := by
  rw [slice, List.take_of_length_le]
  rw [List.length_drop]
  omega

/-- Adjoining slices join. -/
theorem slice_append (hab : a ≤ b) (hbc : b ≤ c) : slice xs a b ++ slice xs b c = slice xs a c := by
  have hb : xs.drop b = (xs.drop a).drop (b - a) := by
    rw [List.drop_drop]
    congr 1
    omega
  have hc : c - a = (b - a) + (c - b) := by omega
  rw [slice, slice, slice, hb, hc, List.take_add]

/-- A slice of a slice. -/
theorem slice_slice (xs : List α) (h : a + d ≤ b) : slice (slice xs a b) c d = slice xs (a + c) (a + d) := by
  simp only [slice, List.drop_take, List.take_take, List.drop_drop]
  congr 1
  omega

/-! ## Parts -/

/-- The `i`-th part of `n` elements; the last one may be shorter. -/
def partOf (n i : Nat) (xs : List α) : List α := slice xs (n * i) (n * (i + 1))

/-- What the parts in a row have of `[a, b)` is what the slice of them all
has. -/
theorem flatMap_pieces (xs : List α) (b : Nat) :
    ∀ (k i a : Nat), a ≤ n * (i + 1) →
      ((List.range' i k).flatMap fun j => slice xs (max a (n * j)) (min b (n * (j + 1)))) =
        slice xs (max a (n * i)) (min b (n * (i + k)))
  | 0, i, a, _ => by rw [Nat.add_zero, slice_of_le (by omega)]; rfl
  | k + 1, i, a, ha => by
    have hnext : n * (i + 1) ≤ n * (i + 1 + 1) := Nat.mul_le_mul_left n (by omega)
    have hend : n * (i + 1) ≤ n * (i + 1 + k) := Nat.mul_le_mul_left n (by omega)
    have hpart : n * i ≤ n * (i + 1) := Nat.mul_le_mul_left n (by omega)
    have hk : n * (i + (k + 1)) = n * (i + 1 + k) := by congr 1; omega
    rw [List.range'_succ, List.flatMap_cons, flatMap_pieces xs b k (i + 1) a (by omega), Nat.max_eq_right ha, hk]
    by_cases hb : b ≤ n * (i + 1)
    · rw [slice_of_le (a := n * (i + 1)) (by omega), List.append_nil]
      congr 1
      omega
    · rw [Nat.min_eq_right (by omega), slice_append (by omega) (by omega)]

/-- A slice within a part. -/
theorem slice_partOf (xs : List α) (h : b ≤ n) : slice (partOf n i xs) a b = slice xs (n * i + a) (n * i + b) := by
  rw [partOf, slice_slice]
  rw [Nat.mul_add, Nat.mul_one]
  omega

end Miscreant.Lib
