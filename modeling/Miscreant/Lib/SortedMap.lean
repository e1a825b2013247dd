/-
A finite map kept as the list of its entries in strictly ascending key
order: what a scan of an ordered key-value store gives back.

`mem_entries` reads the list as a map, and `get_insert` and `get_erase` say
what an update does to a lookup.
-/
import Mathlib.Order.Defs.LinearOrder
import Mathlib.Data.List.Pairwise
import Mathlib.Data.List.Sort
import Mathlib.Tactic.Common
import Mathlib.Tactic.SplitIfs

namespace Miscreant.Lib

/-- Entries in strictly ascending key order. -/
structure SortedMap (κ ν : Type) [LinearOrder κ] where
  entries : List (κ × ν)
  sorted : entries.Pairwise fun a b => a.1 < b.1

namespace SortedMap

variable {κ ν : Type} [LinearOrder κ]

/-- The value at a key. -/
def lookup (k : κ) : List (κ × ν) → Option ν
  | [] => none
  | (k', v) :: rest => if k' = k then some v else lookup k rest

/-- The entries with `k` set to `v`. -/
def insertInto (k : κ) (v : ν) : List (κ × ν) → List (κ × ν)
  | [] => [(k, v)]
  | (k', v') :: rest =>
    if k < k' then (k, v) :: (k', v') :: rest
    else if k = k' then (k, v) :: rest
    else (k', v') :: insertInto k v rest

theorem mem_insertInto {k : κ} {v : ν} {l : List (κ × ν)} {e : κ × ν} (h : e ∈ insertInto k v l) :
    e = (k, v) ∨ e ∈ l := by
  induction l with
  | nil => simpa [insertInto] using h
  | cons p l ih =>
    obtain ⟨k', v'⟩ := p
    simp only [insertInto] at h
    split_ifs at h with h1 h2
    · simpa using h
    · simp only [List.mem_cons] at h ⊢
      tauto
    · simp only [List.mem_cons] at h ⊢
      rcases h with h | h
      · exact .inr (.inl h)
      · rcases ih h with h | h
        · exact .inl h
        · exact .inr (.inr h)

theorem sorted_insertInto {k : κ} {v : ν} {l : List (κ × ν)} (h : l.Pairwise fun a b => a.1 < b.1) :
    (insertInto k v l).Pairwise fun a b => a.1 < b.1 := by
  induction l with
  | nil => simp [insertInto]
  | cons p l ih =>
    obtain ⟨k', v'⟩ := p
    rw [List.pairwise_cons] at h
    simp only [insertInto]
    split_ifs with h1 h2
    · refine List.pairwise_cons.2 ⟨fun e he => ?_, List.pairwise_cons.2 h⟩
      rcases List.mem_cons.1 he with rfl | he
      · exact h1
      · exact lt_trans h1 (h.1 e he)
    · subst h2
      exact List.pairwise_cons.2 h
    · refine List.pairwise_cons.2 ⟨fun e he => ?_, ih h.2⟩
      rcases mem_insertInto he with rfl | he
      · exact lt_of_le_of_ne (not_lt.1 h1) fun heq => h2 heq.symm
      · exact h.1 e he

theorem lookup_insertInto {k k' : κ} {v : ν} {l : List (κ × ν)} (h : l.Pairwise fun a b => a.1 < b.1) :
    lookup k' (insertInto k v l) = if k' = k then some v else lookup k' l := by
  induction l with
  | nil => simp only [insertInto, lookup, eq_comm]
  | cons p l ih =>
    obtain ⟨k₁, v₁⟩ := p
    rw [List.pairwise_cons] at h
    simp only [insertInto]
    split_ifs with h1 h2 h3 h4 h5
    · simp [lookup, h2]
    · simp [lookup, Ne.symm h2]
    · simp [lookup, h4]
    · subst h3
      simp [lookup, Ne.symm h4]
    · subst h5
      simp [lookup, Ne.symm h3, ih h.2]
    · simp [lookup, ih h.2, h5]

theorem lookup_eq_some {k : κ} {v : ν} {l : List (κ × ν)} (h : l.Pairwise fun a b => a.1 < b.1) :
    lookup k l = some v ↔ (k, v) ∈ l := by
  induction l with
  | nil => simp [lookup]
  | cons p l ih =>
    obtain ⟨k', v'⟩ := p
    rw [List.pairwise_cons] at h
    simp only [lookup, List.mem_cons, Prod.mk.injEq]
    split_ifs with hk
    · subst hk
      constructor
      · rintro ⟨⟩; simp
      · rintro (⟨-, rfl⟩ | hm)
        · rfl
        · exact absurd (h.1 _ hm) (lt_irrefl _)
    · rw [ih h.2]
      constructor
      · exact .inr
      · rintro (⟨rfl, -⟩ | hm)
        · exact absurd rfl hk
        · exact hm

/-- The empty map. -/
def empty : SortedMap κ ν := ⟨[], .nil⟩

/-- The value at a key. -/
def get (m : SortedMap κ ν) (k : κ) : Option ν := lookup k m.entries

/-- The map with `k` set to `v`. -/
def insert (m : SortedMap κ ν) (k : κ) (v : ν) : SortedMap κ ν :=
  ⟨insertInto k v m.entries, sorted_insertInto m.sorted⟩

/-- The map without `k`. -/
def erase (m : SortedMap κ ν) (k : κ) : SortedMap κ ν :=
  ⟨m.entries.filter fun e => e.1 ≠ k, m.sorted.filter _⟩

@[simp] theorem get_empty (k : κ) : (empty : SortedMap κ ν).get k = none := rfl

theorem mem_entries {m : SortedMap κ ν} {k : κ} {v : ν} : (k, v) ∈ m.entries ↔ m.get k = some v :=
  (lookup_eq_some m.sorted).symm

theorem get_insert (m : SortedMap κ ν) (k k' : κ) (v : ν) :
    (m.insert k v).get k' = if k' = k then some v else m.get k' := lookup_insertInto m.sorted

theorem get_erase (m : SortedMap κ ν) (k k' : κ) :
    (m.erase k).get k' = if k' = k then none else m.get k' := by
  apply Option.ext
  intro v
  rw [← mem_entries]
  split_ifs with h
  · simp [erase, h]
  · simp [erase, h, mem_entries]

/-- Lists sorted by key that have the same entries are equal. -/
theorem eq_of_mem_iff {l l' : List (κ × ν)} (hl : l.Pairwise fun a b => a.1 < b.1)
    (hl' : l'.Pairwise fun a b => a.1 < b.1) (h : ∀ e, e ∈ l ↔ e ∈ l') : l = l' := by
  have : Std.Irrefl fun a b : κ × ν => a.1 < b.1 := ⟨fun a => lt_irrefl a.1⟩
  have : Std.Antisymm fun a b : κ × ν => a.1 < b.1 := ⟨fun a b hab hba => absurd hab (lt_asymm hba)⟩
  exact hl.eq_of_mem_iff hl' h

/-- Maps that agree on the keys of a scan give it the same entries. -/
theorem filter_congr {m m' : SortedMap κ ν} {p : κ → Bool} (h : ∀ k, p k → m.get k = m'.get k) :
    m.entries.filter (fun e => p e.1) = m'.entries.filter (fun e => p e.1) := by
  refine eq_of_mem_iff (m.sorted.filter _) (m'.sorted.filter _) fun e => ?_
  obtain ⟨k, v⟩ := e
  rw [List.mem_filter, List.mem_filter, mem_entries, mem_entries]
  refine and_congr_left fun hk => ?_
  rw [h k hk]

end SortedMap

end Miscreant.Lib
