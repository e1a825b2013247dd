/-
The longest common prefix of two lists, by where it stops: at the end of one
of them or at elements that differ.
-/
import Mathlib.Data.List.Basic
import Mathlib.Tactic.Common

namespace Miscreant.Lib

variable {α : Type}

/-- `n` is the length of the longest common prefix of `a` and `b`. -/
structure IsCommonPrefix (a b : List α) (n : Nat) : Prop where
  le_left : n ≤ a.length
  le_right : n ≤ b.length
  take_eq : a.take n = b.take n
  stop : n = min a.length b.length ∨ ∃ x y, a[n]? = some x ∧ b[n]? = some y ∧ x ≠ y

namespace IsCommonPrefix

variable {a b u v : List α} {n m : Nat} {x y : α}

theorem nil_left (b : List α) : IsCommonPrefix [] b 0 := ⟨Nat.le_refl _, Nat.zero_le _, rfl, .inl (Nat.zero_min _).symm⟩

theorem nil_right (a : List α) : IsCommonPrefix a [] 0 := ⟨Nat.zero_le _, Nat.le_refl _, rfl, .inl (Nat.min_zero _).symm⟩

theorem cons_ne (a b : List α) (hne : x ≠ y) : IsCommonPrefix (x :: a) (y :: b) 0 :=
  ⟨Nat.zero_le _, Nat.zero_le _, rfl, .inr ⟨x, y, rfl, rfl, hne⟩⟩

theorem cons (x : α) (h : IsCommonPrefix a b n) : IsCommonPrefix (x :: a) (x :: b) (n + 1) where
  le_left := Nat.succ_le_succ h.le_left
  le_right := Nat.succ_le_succ h.le_right
  take_eq := by rw [List.take_succ_cons, List.take_succ_cons, h.take_eq]
  stop := by
    rcases h.stop with hend | hdiffer
    · refine .inl ?_
      rw [List.length_cons, List.length_cons]
      omega
    · exact .inr hdiffer

theorem append : ∀ (w : List α), IsCommonPrefix a b n → IsCommonPrefix (w ++ a) (w ++ b) (w.length + n)
  | [], h => by simpa using h
  | x :: w, h => by
    rw [List.length_cons, Nat.add_right_comm]
    exact (append w h).cons x

/-- What comes after a difference does not matter. -/
theorem extend (h : IsCommonPrefix u v n) (hu : n < u.length) (hv : n < v.length) (a b : List α) :
    IsCommonPrefix (u ++ a) (v ++ b) n where
  le_left := by
    rw [List.length_append]
    omega
  le_right := by
    rw [List.length_append]
    omega
  take_eq := by rw [List.take_append_of_le_length h.le_left, List.take_append_of_le_length h.le_right, h.take_eq]
  stop := by
    obtain ⟨x, y, hx, hy, hne⟩ := h.stop.resolve_left (by omega)
    exact .inr ⟨x, y, by rw [List.getElem?_append_left hu, hx], by rw [List.getElem?_append_left hv, hy], hne⟩

theorem longest (h : IsCommonPrefix a b n) (ha : m ≤ a.length) (hb : m ≤ b.length) (heq : a.take m = b.take m) :
    m ≤ n := by
  rcases h.stop with hend | ⟨x, y, hx, hy, hne⟩
  · omega
  · by_contra hlt
    have hn : n < m := by omega
    have hget : (a.take m)[n]? = (b.take m)[n]? := by rw [heq]
    rw [List.getElem?_take_of_lt hn, List.getElem?_take_of_lt hn, hx, hy] at hget
    exact hne (Option.some.inj hget)

end IsCommonPrefix

end Miscreant.Lib
