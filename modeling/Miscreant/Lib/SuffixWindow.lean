/-
The longest suffix of a history that has a property, which is what a bounded
window of its last elements holds: the rules for dropping the oldest element
and for a new one.
-/
import Mathlib.Data.List.Basic
import Mathlib.Tactic.Common

namespace Miscreant.Lib

variable {α : Type}

/-- `window` is the longest suffix of `history` with the property `P`. -/
structure SuffixWindow (P : List α → Prop) (history window : List α) : Prop where
  suffix : window <:+ history
  holds : P window
  longest : ∀ w, w <:+ history → P w → w.length ≤ window.length

namespace SuffixWindow

variable {P : List α → Prop} {history window kept : List α} {x : α}

theorem whole (h : P history) : SuffixWindow P history history :=
  ⟨List.suffix_refl _, h, fun _ hw _ => hw.length_le⟩

/-- While the whole is too much, the oldest element goes. -/
theorem drop (hx : ¬ P (x :: history)) (h : SuffixWindow P history window) : SuffixWindow P (x :: history) window where
  suffix := h.suffix.trans (List.suffix_cons ..)
  holds := h.holds
  longest := by
    intro w hw hP
    rcases List.suffix_cons_iff.1 hw with rfl | hw
    · exact absurd hP hx
    · exact h.longest w hw hP

/-- What is kept for a new element is the longest suffix of the window that
leaves room for it, since what was dropped before never fits again. -/
theorem push (hP : ∀ w, P (w ++ [x]) → P w) (h : SuffixWindow P history window)
    (hkept : SuffixWindow (fun w => P (w ++ [x])) window kept) : SuffixWindow P (history ++ [x]) (kept ++ [x]) where
  suffix := by
    obtain ⟨dropped, rfl⟩ := hkept.suffix.trans h.suffix
    exact ⟨dropped, (List.append_assoc ..).symm⟩
  holds := hkept.holds
  longest := by
    intro w hw hfits
    rcases List.suffix_concat_iff.1 hw with rfl | ⟨w, rfl, hsub⟩
    · exact Nat.zero_le _
    · have hle := h.longest w hsub (hP w hfits)
      have hsuffix := List.suffix_of_suffix_length_le hsub h.suffix hle
      rw [List.length_append, List.length_append]
      exact Nat.add_le_add_right (hkept.longest w hsuffix hfits) _

end SuffixWindow

end Miscreant.Lib
