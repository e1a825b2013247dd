/-
Hashes of a window in Horner form, over a commutative ring: a window slides by
one element in one step, whatever its length (`horner_roll`).
-/
import Mathlib.Algebra.Ring.Defs
import Mathlib.Tactic.Ring

namespace Miscreant.Lib

variable {R : Type} [CommRing R]

/-- The hash of a window to a base. -/
def horner (b : R) (w : List R) : R := w.foldl (fun h x => h * b + x) 0

theorem foldl_horner (b h : R) (w : List R) : w.foldl (fun h x => h * b + x) h = h * b ^ w.length + horner b w := by
  unfold horner
  induction w generalizing h with
  | nil => simp
  | cons x w ih =>
    rw [List.foldl_cons, List.foldl_cons, ih, ih (0 * b + x), List.length_cons]
    ring

theorem horner_cons (b x : R) (w : List R) : horner b (x :: w) = x * b ^ w.length + horner b w := by
  rw [horner, List.foldl_cons, foldl_horner, zero_mul, zero_add]

theorem horner_concat (b y : R) (w : List R) : horner b (w ++ [y]) = horner b w * b + y := by
  rw [horner, List.foldl_append, List.foldl_cons, List.foldl_nil, horner]

/-- The first element leaves with its coefficient, and the next one comes in. -/
theorem horner_roll (b x y : R) (w : List R) :
    (horner b (x :: w) - x * b ^ w.length) * b + y = horner b (w ++ [y]) := by
  rw [horner_cons, horner_concat, add_sub_cancel_left]

end Miscreant.Lib
