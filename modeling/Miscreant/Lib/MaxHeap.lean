/-
A max-heap, by what it answers: the entries in descending order, so that
`peek` is the greatest and `pop` removes it. Entries that compare equal are
equal, which makes the order of the list the only freedom a heap has.
-/
import Mathlib.Data.List.Sort
import Mathlib.Data.List.TakeWhile
import Mathlib.Tactic.Common

namespace Miscreant.Lib

/-- Entries, duplicates included, in descending order. -/
structure MaxHeap (α : Type) [LinearOrder α] where
  entries : List α
  sorted : entries.Pairwise (· ≥ ·)

namespace MaxHeap

variable {α : Type} [LinearOrder α]

/-- No entries. -/
def empty : MaxHeap α := ⟨[], .nil⟩

/-- One more entry. -/
def push (h : MaxHeap α) (a : α) : MaxHeap α :=
  ⟨h.entries.orderedInsert (· ≥ ·) a, h.sorted.orderedInsert a _⟩

/-- The greatest entry. -/
def peek (h : MaxHeap α) : Option α := h.entries.head?

/-- Without the greatest entry. -/
def pop (h : MaxHeap α) : MaxHeap α := ⟨h.entries.tail, h.sorted.tail⟩

/-- Pop for as long as the greatest entry satisfies `p`: the entries popped,
in order, and the heap left. -/
def popWhile (h : MaxHeap α) (p : α → Bool) : List α × MaxHeap α :=
  (h.entries.takeWhile p, ⟨h.entries.dropWhile p, h.sorted.sublist (List.dropWhile_sublist p)⟩)

instance : Membership α (MaxHeap α) := ⟨fun h a => a ∈ h.entries⟩

theorem mem_iff {h : MaxHeap α} {a : α} : a ∈ h ↔ a ∈ h.entries := Iff.rfl

@[simp] theorem not_mem_empty (a : α) : a ∉ (empty : MaxHeap α) := by simp [mem_iff, empty]

@[simp] theorem mem_push {h : MaxHeap α} {a b : α} : b ∈ h.push a ↔ b = a ∨ b ∈ h := by
  simp [mem_iff, push, List.mem_orderedInsert]

@[simp] theorem length_push (h : MaxHeap α) (a : α) :
    (h.push a).entries.length = h.entries.length + 1 := List.orderedInsert_length _ _ _

theorem le_peek {h : MaxHeap α} {a b : α} (hp : h.peek = some a) (hb : b ∈ h) : b ≤ a := by
  obtain ⟨l, hl⟩ := h
  simp only [peek, mem_iff] at hp hb
  cases l with
  | nil => simp at hb
  | cons c l =>
    cases hp
    rcases List.mem_cons.1 hb with rfl | hb
    · exact le_rfl
    · exact (List.pairwise_cons.1 hl).1 b hb

theorem mem_popWhile {h : MaxHeap α} {p : α → Bool} {a : α} :
    a ∈ h ↔ a ∈ (h.popWhile p).1 ∨ a ∈ (h.popWhile p).2 := by
  simp only [mem_iff, popWhile, ← List.mem_append, List.takeWhile_append_dropWhile]

theorem popWhile_fst {h : MaxHeap α} {p : α → Bool} {a : α} (ha : a ∈ (h.popWhile p).1) : p a = true :=
  List.mem_takeWhile_imp ha

theorem sorted_popWhile_fst (h : MaxHeap α) (p : α → Bool) : (h.popWhile p).1.Pairwise (· ≥ ·) :=
  h.sorted.sublist (List.takeWhile_sublist p)

/-- What is left after popping entries down to one that fails `p`, when `p`
holds of a top segment: nothing left satisfies it. -/
theorem popWhile_snd {h : MaxHeap α} {p : α → Bool} {a : α} (hp : ∀ b c, p b = true → b ≤ c → c ∈ h → p c = true)
    (ha : a ∈ (h.popWhile p).2) : p a = false := by
  obtain ⟨l, hl⟩ := h
  simp only [mem_iff, popWhile] at ha hp
  induction l with
  | nil => simp at ha
  | cons c l ih =>
    rw [List.pairwise_cons] at hl
    cases hc : p c with
    | true =>
      rw [List.dropWhile_cons_of_pos hc] at ha
      exact ih hl.2 ha fun b d hb hbd hd => hp b d hb hbd (by simp [hd])
    | false =>
      rw [List.dropWhile_cons_of_neg (by simp [hc])] at ha
      rcases List.mem_cons.1 ha with rfl | ha
      · exact hc
      · by_contra hpa
        have := hp a c (by simpa using hpa) (hl.1 a ha) (by simp)
        simp [hc] at this

theorem length_popWhile_lt {h : MaxHeap α} {p : α → Bool} {a : α} (ha : h.peek = some a) (hp : p a = true) :
    (h.popWhile p).2.entries.length < h.entries.length := by
  obtain ⟨l, hl⟩ := h
  cases l with
  | nil => cases ha
  | cons c l =>
    cases ha
    have := (List.dropWhile_sublist p (l := l)).length_le
    simp only [popWhile, List.dropWhile_cons_of_pos hp, List.length_cons]
    omega

end MaxHeap

end Miscreant.Lib
