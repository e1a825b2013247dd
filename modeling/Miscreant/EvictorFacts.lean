/-
The evictor keeps its books.

In every run the vector of keys and the map of entries say the same, each entry
knows its place, and the size is that of the entries; an index is never out of
bounds (`evictor_consistent`). Of what is evicted nothing was used later than
everything that is left, whatever is drawn and whatever cannot be removed
(`track_spares_newest`). What can be removed is, until the cache is within its
limit or has one file (`track_within_limits`). An eviction ends if every index
keeps being drawn (`evict_ends`).

A turn of the loop is `pickLoop_turn`; what the turns keep is `Chosen`.
-/
import Miscreant.Evictor
import Mathlib

namespace Miscreant

open Lib

namespace CacheState

variable {s s' : CacheState} {path : String}

/-- The keys are the paths of the entries, each at the place it says. -/
structure Indexed (s : CacheState) : Prop where
  place : ∀ path entry, s.entries path = some entry → s.keys[entry.keyIndex]? = some path
  entry : ∀ i path, s.keys[i]? = some path → ∃ entry, s.entries path = some entry ∧ entry.keyIndex = i

/-- What is known of a file: when it was used, and its size. -/
def view (s : CacheState) (path : String) : Option (Int × Nat) :=
  (s.entries path).map fun entry => (entry.accessTime, entry.sizeBytes)

/-- The size a file was tracked with. -/
def sizeOf (s : CacheState) (path : String) : Nat := ((s.view path).map Prod.snd).getD 0

/-- The bytes of all entries. -/
def total (s : CacheState) : Nat := (s.keys.map s.sizeOf).sum

theorem view_of_entry {entry : CacheEntry} (h : s.entries path = some entry) :
    s.view path = some (entry.accessTime, entry.sizeBytes) := by
  rw [view, h]
  rfl

theorem sizeOf_of_entry {entry : CacheEntry} (h : s.entries path = some entry) : s.sizeOf path = entry.sizeBytes := by
  rw [sizeOf, view_of_entry h]
  rfl

theorem sizeOf_congr (h : s'.entries path = s.entries path) : s'.sizeOf path = s.sizeOf path := by
  rw [CacheState.sizeOf, CacheState.sizeOf, view, view, h]

theorem Indexed.index_unique (h : s.Indexed) {i j : Nat} (hi : s.keys[i]? = some path) (hj : s.keys[j]? = some path) :
    i = j := by
  obtain ⟨e, he, rfl⟩ := h.entry i path hi
  obtain ⟨e', he', rfl⟩ := h.entry j path hj
  rw [Option.some.inj (he.symm.trans he')]

theorem Indexed.mem_keys (h : s.Indexed) : path ∈ s.keys ↔ ∃ entry, s.entries path = some entry := by
  constructor
  · intro hmem
    obtain ⟨i, hi⟩ := List.mem_iff_getElem?.1 hmem
    obtain ⟨entry, hentry, -⟩ := h.entry i path hi
    exact ⟨entry, hentry⟩
  · rintro ⟨entry, hentry⟩
    exact List.mem_of_getElem? (h.place path entry hentry)

theorem Indexed.nodup (h : s.Indexed) : s.keys.Nodup := by
  rw [List.nodup_iff_injective_get]
  intro i j hij
  have hi : s.keys[i.1]? = some (s.keys.get i) := List.getElem?_eq_getElem i.2
  have hj : s.keys[j.1]? = some (s.keys.get i) := by
    rw [hij]
    exact List.getElem?_eq_getElem j.2
  exact Fin.ext (h.index_unique hi hj)

/-! ## Removing an entry -/

theorem removeEntry_none (h : s.entries path = none) : s.removeEntry path = .ok (none, s) := by
  rw [removeEntry, h]

/-- The state without `path`, which is at `i`: the last key takes its place,
and its entry knows. -/
def without (s : CacheState) (path : String) (i : Nat) : CacheState where
  entries p :=
    if p = path then none
    else if s.keys[s.keys.length - 1]? = some p then
      (s.entries p).map fun swapped => { swapped with keyIndex := i }
    else s.entries p
  keys := swapRemove s.keys i

theorem removeEntry_some (hs : s.Indexed) {removed : CacheEntry} (h : s.entries path = some removed) :
    s.removeEntry path = .ok (some removed, s.without path removed.keyIndex) := by
  have hplace := hs.place path removed h
  have hlt : removed.keyIndex < s.keys.length := (List.getElem?_eq_some_iff.1 hplace).1
  rw [removeEntry, h]
  dsimp only
  rw [if_pos hlt, without, getElem?_swapRemove hlt]
  congr 3
  funext p
  by_cases hend : s.keys.length ≤ removed.keyIndex + 1
  · -- the removed one is last itself
    have hlast : s.keys.length - 1 = removed.keyIndex := by omega
    rw [if_pos hend, hlast, hplace]
    dsimp only
    by_cases hp : p = path
    · rw [if_pos hp, hp, Function.update_self]
    · rw [if_neg hp, if_neg (fun h => hp (Option.some.inj h).symm)]
      exact Function.update_of_ne hp ..
  · rw [if_neg hend, if_pos rfl]
    obtain ⟨last, hlast⟩ : ∃ last, s.keys[s.keys.length - 1]? = some last :=
      ⟨_, List.getElem?_eq_getElem (by omega)⟩
    have hne : last ≠ path := by
      rintro rfl
      have := hs.index_unique hlast hplace
      omega
    rw [hlast]
    dsimp only
    by_cases hp : p = last
    · rw [hp, Function.update_self, Function.update_of_ne hne, if_neg hne, if_pos rfl]
    · rw [Function.update_of_ne hp, Function.update_apply, if_neg (fun h => hp (Option.some.inj h).symm)]

theorem view_without_of_ne (s : CacheState) {path p : String} (i : Nat) (hp : p ≠ path) :
    (s.without path i).view p = s.view p := by
  rw [view, without, view]
  dsimp only
  rw [if_neg hp]
  split
  · rw [Option.map_map]
    rfl
  · rfl

theorem Indexed.without (hs : s.Indexed) {removed : CacheEntry} (h : s.entries path = some removed) :
    (s.without path removed.keyIndex).Indexed := by
  have hplace := hs.place path removed h
  have hlt : removed.keyIndex < s.keys.length := (List.getElem?_eq_some_iff.1 hplace).1
  constructor
  · intro p entry hp
    dsimp only [CacheState.without] at hp ⊢
    rw [getElem?_swapRemove hlt]
    by_cases hpath : p = path
    · rw [if_pos hpath] at hp
      cases hp
    rw [if_neg hpath] at hp
    by_cases hlast : s.keys[s.keys.length - 1]? = some p
    · rw [if_pos hlast] at hp
      obtain ⟨old, -, rfl⟩ := Option.map_eq_some_iff.1 hp
      have hmid : ¬ s.keys.length ≤ removed.keyIndex + 1 := by
        intro hle
        have heq : s.keys.length - 1 = removed.keyIndex := by omega
        rw [heq, hplace] at hlast
        exact hpath (Option.some.inj hlast).symm
      rw [if_neg hmid, if_pos rfl, hlast]
    · rw [if_neg hlast] at hp
      have hold := hs.place p entry hp
      have hbound := (List.getElem?_eq_some_iff.1 hold).1
      have hnotlast : entry.keyIndex ≠ s.keys.length - 1 := by
        intro heq
        rw [heq] at hold
        exact hlast hold
      have hnotgap : entry.keyIndex ≠ removed.keyIndex := by
        intro heq
        rw [heq, hplace] at hold
        exact hpath (Option.some.inj hold).symm
      rw [if_neg (by omega), if_neg hnotgap, hold]
  · intro j p hp
    dsimp only [CacheState.without] at hp ⊢
    rw [getElem?_swapRemove hlt] at hp
    by_cases hend : s.keys.length ≤ j + 1
    · rw [if_pos hend] at hp
      cases hp
    rw [if_neg hend] at hp
    by_cases hj : j = removed.keyIndex
    · rw [if_pos hj] at hp
      obtain ⟨old, hold, hidx⟩ := hs.entry _ p hp
      have hpath : p ≠ path := by
        rintro rfl
        have := hs.index_unique hp hplace
        omega
      refine ⟨{ old with keyIndex := removed.keyIndex }, ?_, hj.symm⟩
      rw [if_neg hpath, if_pos hp, hold]
      rfl
    · rw [if_neg hj] at hp
      obtain ⟨old, hold, hidx⟩ := hs.entry j p hp
      have hpath : p ≠ path := by
        rintro rfl
        exact hj (hs.index_unique hp hplace)
      have hlast : s.keys[s.keys.length - 1]? ≠ some p := by
        intro hlast
        have := hs.index_unique hp hlast
        omega
      exact ⟨old, by rw [if_neg hpath, if_neg hlast, hold], hidx⟩

/-- What `remove_entry` leaves: the path is gone, the others are as they were
but for their places. -/
structure Removed (s : CacheState) (path : String) (size : Nat) (s' : CacheState) : Prop where
  indexed : s'.Indexed
  gone : s'.view path = none
  kept : ∀ other, other ≠ path → s'.view other = s.view other
  keys : s.keys.Perm (path :: s'.keys)
  total : s.total = size + s'.total

theorem removed_without (hs : s.Indexed) {removed : CacheEntry} (h : s.entries path = some removed) :
    Removed s path removed.sizeBytes (s.without path removed.keyIndex) := by
  obtain ⟨hlt, hget⟩ := List.getElem?_eq_some_iff.1 (hs.place path removed h)
  have hperm : s.keys.Perm (path :: swapRemove s.keys removed.keyIndex) := by
    have := perm_cons_swapRemove hlt
    rwa [hget] at this
  refine ⟨hs.without h, ?_, fun other => s.view_without_of_ne _, hperm, ?_⟩
  · rw [view, without]
    dsimp only
    rw [if_pos rfl]
    rfl
  · have hnot : path ∉ swapRemove s.keys removed.keyIndex :=
      (List.nodup_cons.1 (hperm.nodup_iff.1 hs.nodup)).1
    rw [total, (hperm.map s.sizeOf).sum_eq, List.map_cons, List.sum_cons, sizeOf_of_entry h, total]
    congr 2
    refine List.map_congr_left ?_
    intro p hp
    rw [sizeOf, sizeOf, s.view_without_of_ne _ (by rintro rfl; exact hnot hp)]

/-! ## Adding an entry, and its next use -/

theorem Indexed.push (hs : s.Indexed) (hfresh : s.entries path = none) (time : Int) (bytes : Nat) :
    Indexed ⟨Function.update s.entries path (some ⟨time, bytes, s.keys.length⟩), s.keys ++ [path]⟩ := by
  constructor
  · intro p entry hp
    dsimp only at hp ⊢
    rw [Function.update_apply] at hp
    by_cases heq : p = path
    · rw [if_pos heq] at hp
      obtain rfl := Option.some.inj hp
      simp [heq]
    · rw [if_neg heq] at hp
      have hold := hs.place p entry hp
      rwa [List.getElem?_append_left (List.getElem?_eq_some_iff.1 hold).1]
  · intro i p hp
    dsimp only at hp ⊢
    rw [Function.update_apply]
    by_cases hi : i < s.keys.length
    · rw [List.getElem?_append_left hi] at hp
      obtain ⟨entry, hentry, hidx⟩ := hs.entry i p hp
      have hne : p ≠ path := by
        rintro rfl
        rw [hfresh] at hentry
        cases hentry
      exact ⟨entry, by rw [if_neg hne, hentry], hidx⟩
    · have hi' : i = s.keys.length := by
        have hbound := (List.getElem?_eq_some_iff.1 hp).1
        rw [List.length_append, List.length_singleton] at hbound
        omega
      rw [hi', List.getElem?_concat_length] at hp
      exact ⟨_, if_pos (Option.some.inj hp).symm, hi'.symm⟩

theorem Indexed.total_push (hs : s.Indexed) (hfresh : s.entries path = none) (time : Int) (bytes : Nat) :
    total ⟨Function.update s.entries path (some ⟨time, bytes, s.keys.length⟩), s.keys ++ [path]⟩ = s.total + bytes := by
  have hnot : path ∉ s.keys := by
    rw [hs.mem_keys, hfresh]
    rintro ⟨entry, hentry⟩
    cases hentry
  rw [total, List.map_append, List.sum_append, total]
  congr 1
  · congr 1
    refine List.map_congr_left ?_
    intro p hp
    have hne : p ≠ path := by
      rintro rfl
      exact hnot hp
    exact sizeOf_congr (Function.update_of_ne hne ..)
  · rw [List.map_singleton, List.sum_singleton, CacheState.sizeOf, view]
    dsimp only
    rw [Function.update_self]
    rfl

theorem Indexed.retime (hs : s.Indexed) {entry : CacheEntry} (h : s.entries path = some entry) (time : Int) :
    Indexed ⟨Function.update s.entries path (some { entry with accessTime := time }), s.keys⟩ := by
  constructor
  · intro p e hp
    dsimp only at hp ⊢
    rw [Function.update_apply] at hp
    by_cases heq : p = path
    · rw [if_pos heq] at hp
      obtain rfl := Option.some.inj hp
      rw [heq]
      exact hs.place path entry h
    · rw [if_neg heq] at hp
      exact hs.place p e hp
  · intro i p hp
    obtain ⟨e, he, hidx⟩ := hs.entry i p hp
    dsimp only
    rw [Function.update_apply]
    by_cases heq : p = path
    · rw [heq, h] at he
      obtain rfl := Option.some.inj he
      exact ⟨_, if_pos heq, hidx⟩
    · exact ⟨e, by rw [if_neg heq, he], hidx⟩

theorem total_retime {entry : CacheEntry} (h : s.entries path = some entry) (time : Int) :
    total ⟨Function.update s.entries path (some { entry with accessTime := time }), s.keys⟩ = s.total := by
  rw [total, total]
  congr 2
  funext p
  by_cases heq : p = path
  · rw [heq, sizeOf_of_entry h, CacheState.sizeOf, view]
    dsimp only
    rw [Function.update_self]
    rfl
  · exact sizeOf_congr (Function.update_of_ne heq ..)

end CacheState

namespace FsCacheEvictorInner

open CacheState

variable {s s' : FsCacheEvictorInner} {limits : Limits}

/-- The size kept is that of the entries, as a 64-bit number. -/
structure Consistent (s : FsCacheEvictorInner) : Prop where
  indexed : s.cacheState.Indexed
  size : s.cacheSizeBytes = UInt64.ofNat s.cacheState.total

theorem Consistent.new : Consistent .new := by
  refine ⟨⟨?_, ?_⟩, rfl⟩
  · intro path entry h
    cases h
  · intro i path h
    cases h

theorem ofNat_add_sub (size rest : Nat) : UInt64.ofNat (size + rest) - UInt64.ofNat size = UInt64.ofNat rest := by
  rw [UInt64.ofNat_add, UInt64.add_comm, UInt64.add_sub_cancel]

/-! ## Forgetting -/

/-- One entry's bytes go with it. -/
theorem Consistent.removed (hs : s.Consistent) {path : String} {size : Nat} {cacheState : CacheState}
    (h : Removed s.cacheState path size cacheState) :
    Consistent ⟨cacheState, s.cacheSizeBytes - UInt64.ofNat size⟩ := by
  refine ⟨h.indexed, ?_⟩
  dsimp only
  rw [hs.size, h.total, ofNat_add_sub]

theorem deleteEntry_consistent (hs : s.Consistent) (deleted : List String) :
    ∃ s', s.deleteEntry deleted = .ok s' ∧ s'.Consistent := by
  induction deleted generalizing s with
  | nil => exact ⟨s, rfl, hs⟩
  | cons path rest ih =>
    rw [deleteEntry]
    rcases h : s.cacheState.entries path with _ | removed
    · rw [removeEntry_none h]
      exact ih hs
    · rw [removeEntry_some hs.indexed h]
      exact ih (hs.removed (removed_without hs.indexed h))

/-- What is left once `targets` are forgotten. -/
structure Forgotten (s : FsCacheEvictorInner) (targets : List (String × Nat)) (s' : FsCacheEvictorInner) : Prop where
  consistent : s'.Consistent
  view : ∀ path, s'.cacheState.view path = if path ∈ targets.map Prod.fst then none else s.cacheState.view path
  length : s.cacheState.keys.length = targets.length + s'.cacheState.keys.length
  total : s.cacheState.total = (targets.map Prod.snd).sum + s'.cacheState.total

theorem forgetTargets_ok {targets : List (String × Nat)} (hs : s.Consistent) (hnodup : (targets.map Prod.fst).Nodup)
    (hsizes : ∀ target ∈ targets, ∃ time, s.cacheState.view target.1 = some (time, target.2)) :
    ∃ s', s.forgetTargets targets = .ok ((targets.map Prod.snd).sum, s') ∧ Forgotten s targets s' := by
  induction targets generalizing s with
  | nil => exact ⟨s, rfl, hs, fun path => by simp, by simp, by simp⟩
  | cons target targets ih =>
    obtain ⟨path, bytes⟩ := target
    rw [List.map_cons, List.nodup_cons] at hnodup
    obtain ⟨hnot, hnodup⟩ := hnodup
    obtain ⟨time, hview⟩ := hsizes _ (List.mem_cons_self ..)
    obtain ⟨removed, hremoved, hview⟩ := Option.map_eq_some_iff.1 hview
    obtain ⟨rfl, rfl⟩ := Prod.mk.inj hview
    have hwithout := removed_without hs.indexed hremoved
    have hsizes' : ∀ target ∈ targets, ∃ time,
        (s.cacheState.without path removed.keyIndex).view target.1 = some (time, target.2) := by
      intro target hmem
      rw [view_without_of_ne]
      · exact hsizes target (List.mem_cons_of_mem _ hmem)
      · intro heq
        exact hnot (List.mem_map.2 ⟨target, hmem, heq⟩)
    obtain ⟨s', hs', hforgot⟩ := ih (hs.removed hwithout) hnodup hsizes'
    refine ⟨s', ?_, hforgot.consistent, ?_, ?_, ?_⟩
    · rw [forgetTargets, removeEntry_some hs.indexed hremoved]
      dsimp only [bind, Except.bind]
      rw [hs']
      rfl
    · intro p
      rw [hforgot.view, List.map_cons]
      by_cases hp : p = path
      · rw [hp, if_neg hnot, if_pos (List.mem_cons_self ..)]
        exact hwithout.gone
      · rw [hwithout.kept p hp]
        simp only [List.mem_cons, hp, false_or]
    · have hlen := hwithout.keys.length_eq
      have hrest := hforgot.length
      simp only [List.length_cons] at hlen hrest ⊢
      omega
    · have hrest := hforgot.total
      rw [List.map_cons, List.sum_cons, hwithout.total]
      dsimp only at hrest ⊢
      omega

/-! ## Choosing -/

theorem drawAvailable_ok {count : Nat} {picked draws rest : List Nat} {excludeIdx : Option Nat} {idx : Nat}
    (hcount : 0 < count) (h : drawAvailable count picked excludeIdx draws = .ok (idx, rest)) :
    idx < count ∧ idx ∉ picked ∧ some idx ≠ excludeIdx := by
  induction draws with
  | nil => cases h
  | cons draw draws ih =>
    rw [drawAvailable] at h
    split at h
    · rename_i hfree
      obtain ⟨rfl, -⟩ := Prod.mk.inj (Except.ok.inj h)
      exact ⟨Nat.mod_lt _ hcount, hfree⟩
    · exact ih h

theorem drawAvailable_error {count : Nat} {picked draws : List Nat} {excludeIdx : Option Nat} {halt : Halt}
    (h : drawAvailable count picked excludeIdx draws = .error halt) : halt = .outOfDraws := by
  induction draws with
  | nil => exact (Except.error.inj h).symm
  | cons draw draws ih =>
    rw [drawAvailable] at h
    split at h
    · cases h
    · exact ih h

/-- What has been chosen so far: the targets are the picked keys with their
sizes, and for each there is a key left that was not used before it. -/
structure Chosen (s : CacheState) (picked : List Nat) (targets : List (String × Nat)) : Prop where
  nodup : picked.Nodup
  keys : targets.map (fun target => some target.1) = picked.reverse.map (s.keys[·]?)
  sizes : ∀ target ∈ targets, ∃ time, s.view target.1 = some (time, target.2)
  later : ∀ target ∈ targets, ∀ time bytes, s.view target.1 = some (time, bytes) →
    ∃ i path time' bytes', i ∉ picked ∧ s.keys[i]? = some path ∧ s.view path = some (time', bytes') ∧ time ≤ time'

theorem Chosen.nil (s : CacheState) : Chosen s [] [] :=
  ⟨List.nodup_nil, rfl, fun _ h => (by cases h), fun _ h => (by cases h)⟩

theorem Chosen.length_eq {s : CacheState} {picked : List Nat} {targets : List (String × Nat)}
    (h : Chosen s picked targets) : targets.length = picked.length := by
  have := congrArg List.length h.keys
  simpa using this

theorem Chosen.mem {s : CacheState} {picked : List Nat} {targets : List (String × Nat)} (h : Chosen s picked targets)
    {path : String} : path ∈ targets.map Prod.fst ↔ ∃ i ∈ picked, s.keys[i]? = some path := by
  have : some path ∈ targets.map (fun target => some target.1) ↔ some path ∈ picked.reverse.map (s.keys[·]?) := by
    rw [h.keys]
  simpa using this

theorem Chosen.nodup_paths {s : CacheState} {picked : List Nat} {targets : List (String × Nat)} (hs : s.Indexed)
    (h : Chosen s picked targets) : (targets.map Prod.fst).Nodup := by
  have hsome : (targets.map (fun target => some target.1)).Nodup := by
    rw [h.keys]
    refine List.Nodup.map_on ?_ (List.nodup_reverse.2 h.nodup)
    intro i hi j hj hij
    have hmem : s.keys[i]? ∈ targets.map (fun target => some target.1) := by
      rw [h.keys]
      exact List.mem_map_of_mem hi
    obtain ⟨target, -, htarget⟩ := List.mem_map.1 hmem
    exact hs.index_unique htarget.symm (hij.symm.trans htarget.symm)
  have : (targets.map (fun target => some target.1)) = (targets.map Prod.fst).map some := by
    rw [List.map_map]
    rfl
  rw [this] at hsome
  exact List.Nodup.of_map some hsome

/-- One more is chosen: `idx`, used no later than `other`, which is left. -/
theorem Chosen.push {s : CacheState} {picked : List Nat} {targets : List (String × Nat)} (h : Chosen s picked targets)
    {idx other : Nat} {path path' : String} {time time' : Int} {bytes bytes' : Nat}
    (hidx : idx ∉ picked) (hother : other ∉ picked) (hne : other ≠ idx)
    (hpath : s.keys[idx]? = some path) (hpath' : s.keys[other]? = some path')
    (hview : s.view path = some (time, bytes)) (hview' : s.view path' = some (time', bytes')) (hle : time ≤ time') :
    Chosen s (idx :: picked) (targets ++ [(path, bytes)]) := by
  have hfree : other ∉ idx :: picked := by
    intro hmem
    rcases List.mem_cons.1 hmem with h | h
    · exact hne h
    · exact hother h
  refine ⟨List.nodup_cons.2 ⟨hidx, h.nodup⟩, ?_, ?_, ?_⟩
  · rw [List.map_append, h.keys, List.reverse_cons, List.map_append, List.map_singleton, List.map_singleton, hpath]
  · intro target hmem
    rcases List.mem_append.1 hmem with hmem | hmem
    · exact h.sizes target hmem
    · obtain rfl := List.mem_singleton.1 hmem
      exact ⟨time, hview⟩
  · intro target hmem t b ht
    rcases List.mem_append.1 hmem with hmem | hmem
    · obtain ⟨i, p, t', b', hi, hp, hv, hle'⟩ := h.later target hmem t b ht
      by_cases heq : i = idx
      · -- the one that was left is now chosen itself
        rw [heq, hpath] at hp
        obtain rfl := Option.some.inj hp
        obtain ⟨rfl, -⟩ := Prod.mk.inj (Option.some.inj (hv.symm.trans hview))
        exact ⟨other, path', time', bytes', hfree, hpath', hview', by omega⟩
      · refine ⟨i, p, t', b', ?_, hp, hv, hle'⟩
        intro hmem'
        rcases List.mem_cons.1 hmem' with h | h
        · exact heq h
        · exact hi h
    · obtain rfl := List.mem_singleton.1 hmem
      obtain ⟨rfl, -⟩ := Prod.mk.inj (Option.some.inj (ht.symm.trans hview))
      exact ⟨other, path', time', bytes', hfree, hpath', hview', hle⟩

theorem pickRandomAvailableIndex_none {keys : List String} {picked : List Nat} (hfree : picked.length < keys.length)
    (draws : List Nat) :
    pickRandomAvailableIndex keys picked none draws =
      (drawAvailable keys.length picked none draws).map fun (idx, draws) => (some idx, draws) := by
  rw [pickRandomAvailableIndex]
  dsimp only [Option.any_none, Bool.toNat_false]
  rw [if_neg (by omega)]

theorem pickRandomAvailableIndex_some {keys : List String} {picked : List Nat} {idx : Nat} (hidx : idx ∉ picked)
    (hfree : picked.length + 1 < keys.length) (draws : List Nat) :
    pickRandomAvailableIndex keys picked (some idx) draws =
      (drawAvailable keys.length picked (some idx) draws).map fun (idx, draws) => (some idx, draws) := by
  rw [pickRandomAvailableIndex]
  dsimp only
  rw [if_neg]
  have : ((some idx).any (decide <| · ∉ picked)).toNat = 1 := by simp [hidx]
  omega

section Turn

variable {s : CacheState} {targetSize simulatedSize : UInt64} {turns : Nat} {picked : List Nat}
  {targets : List (String × Nat)} {draws : List Nat}

/-- A turn in which the draws suffice chooses, of the two drawn, the one used
longer ago. -/
theorem pickLoop_turn (hs : s.Indexed) (hchosen : Chosen s picked targets) (hsize : ¬ simulatedSize ≤ targetSize)
    (hfree : picked.length + 2 ≤ s.keys.length) {idx0 idx1 : Nat} (hidx0 : idx0 < s.keys.length ∧ idx0 ∉ picked)
    (hidx1 : idx1 < s.keys.length ∧ idx1 ∉ picked ∧ some idx1 ≠ some idx0) :
    ∃ idx path bytes, Chosen s (idx :: picked) (targets ++ [(path, bytes)]) ∧
      ∀ draws draws0 draws1, drawAvailable s.keys.length picked none draws = .ok (idx0, draws0) →
        drawAvailable s.keys.length picked (some idx0) draws0 = .ok (idx1, draws1) →
        pickLoop s targetSize (turns + 1) simulatedSize picked targets draws =
          pickLoop s targetSize turns (saturatingSub simulatedSize (UInt64.ofNat bytes)) (idx :: picked)
            (targets ++ [(path, bytes)]) draws1 := by
  obtain ⟨hlt0, hfree0⟩ := hidx0
  obtain ⟨hlt1, hfree1, hne⟩ := hidx1
  have hne : idx1 ≠ idx0 := fun h => hne (congrArg some h)
  have hkey0 : s.keys[idx0]? = some s.keys[idx0] := List.getElem?_eq_getElem hlt0
  have hkey1 : s.keys[idx1]? = some s.keys[idx1] := List.getElem?_eq_getElem hlt1
  obtain ⟨entry0, hentry0, -⟩ := hs.entry _ _ hkey0
  obtain ⟨entry1, hentry1, -⟩ := hs.entry _ _ hkey1
  have hview0 := view_of_entry hentry0
  have hview1 := view_of_entry hentry1
  have hturn : ∀ draws draws0 draws1, drawAvailable s.keys.length picked none draws = .ok (idx0, draws0) →
      drawAvailable s.keys.length picked (some idx0) draws0 = .ok (idx1, draws1) →
      pickLoop s targetSize (turns + 1) simulatedSize picked targets draws =
        let chosen :=
          if entry0.accessTime ≤ entry1.accessTime then (idx0, s.keys[idx0], entry0.sizeBytes)
          else (idx1, s.keys[idx1], entry1.sizeBytes)
        pickLoop s targetSize turns (saturatingSub simulatedSize (UInt64.ofNat chosen.2.2)) (chosen.1 :: picked)
          (targets ++ [(chosen.2.1, chosen.2.2)]) draws1 := by
    intro draws draws0 draws1 h0 h1
    rw [pickLoop, if_neg hsize, if_neg (by omega), pickRandomAvailableIndex_none (by omega), h0]
    dsimp only [bind, Except.bind, Except.map]
    rw [pickRandomAvailableIndex_some hfree0 (by omega), h1]
    dsimp only [Except.map]
    rw [hkey0, hkey1]
    dsimp only
    rw [hentry0, hentry1]
  by_cases hle : entry0.accessTime ≤ entry1.accessTime
  · rw [if_pos hle] at hturn
    exact ⟨idx0, _, _, hchosen.push hfree0 hfree1 hne hkey0 hkey1 hview0 hview1 hle, hturn⟩
  · rw [if_neg hle] at hturn
    exact ⟨idx1, _, _, hchosen.push hfree1 hfree0 hne.symm hkey1 hkey0 hview1 hview0 (by omega), hturn⟩

/-- A turn otherwise needs more draws. -/
theorem pickLoop_error (hsize : ¬ simulatedSize ≤ targetSize) (hfree : picked.length + 2 ≤ s.keys.length)
    (h : ∀ idx0 draws0 idx1 draws1, drawAvailable s.keys.length picked none draws = .ok (idx0, draws0) →
      drawAvailable s.keys.length picked (some idx0) draws0 ≠ .ok (idx1, draws1)) :
    pickLoop s targetSize (turns + 1) simulatedSize picked targets draws = .error .outOfDraws := by
  rw [pickLoop, if_neg hsize, if_neg (by omega), pickRandomAvailableIndex_none (by omega)]
  rcases h0 : drawAvailable s.keys.length picked none draws with halt | ⟨idx0, draws0⟩
  · rw [drawAvailable_error h0]
    rfl
  obtain ⟨-, hfree0, -⟩ := drawAvailable_ok (by omega) h0
  dsimp only [bind, Except.bind, Except.map]
  rw [pickRandomAvailableIndex_some hfree0 (by omega)]
  rcases h1 : drawAvailable s.keys.length picked (some idx0) draws0 with halt | ⟨idx1, draws1⟩
  · rw [drawAvailable_error h1]
    rfl
  · exact absurd h1 (h _ _ _ _ h0)

/-- What the loop comes to. `Size` is what is known of the simulated size: a
turn keeps it. -/
theorem pickLoop_spec (hs : s.Indexed) {Size : List (String × Nat) → UInt64 → Prop}
    (hturn : ∀ picked targets path bytes size, Chosen s picked (targets ++ [(path, bytes)]) → Size targets size →
      Size (targets ++ [(path, bytes)]) (saturatingSub size (UInt64.ofNat bytes)))
    (hchosen : Chosen s picked targets) (hSize : Size targets simulatedSize)
    (hturns : s.keys.length ≤ picked.length + turns) :
    pickLoop s targetSize turns simulatedSize picked targets draws = .error .outOfDraws ∨
      ∃ picked' targets' size draws', pickLoop s targetSize turns simulatedSize picked targets draws = .ok (targets', draws') ∧
        Chosen s picked' targets' ∧ Size targets' size ∧ (size ≤ targetSize ∨ s.keys.length < picked'.length + 2) := by
  induction turns generalizing simulatedSize picked targets draws with
  | zero => exact .inr ⟨picked, targets, simulatedSize, draws, rfl, hchosen, hSize, .inr (by omega)⟩
  | succ turns ih =>
    by_cases hsize : simulatedSize ≤ targetSize
    · exact .inr ⟨picked, targets, simulatedSize, draws, by rw [pickLoop, if_pos hsize], hchosen, hSize, .inl hsize⟩
    by_cases hfree : picked.length + 2 ≤ s.keys.length
    · by_cases hdraws : ∃ idx0 draws0 idx1 draws1,
          drawAvailable s.keys.length picked none draws = .ok (idx0, draws0) ∧
          drawAvailable s.keys.length picked (some idx0) draws0 = .ok (idx1, draws1)
      · obtain ⟨idx0, draws0, idx1, draws1, h0, h1⟩ := hdraws
        obtain ⟨hlt0, hfree0, -⟩ := drawAvailable_ok (by omega) h0
        obtain ⟨idx, path, bytes, hchosen', heq⟩ :=
          pickLoop_turn hs hchosen hsize hfree ⟨hlt0, hfree0⟩ (drawAvailable_ok (by omega) h1)
        rw [heq _ _ _ h0 h1]
        refine ih hchosen' (hturn _ _ _ _ _ hchosen' hSize) ?_
        rw [List.length_cons]
        omega
      · left
        refine pickLoop_error hsize hfree ?_
        intro idx0 draws0 idx1 draws1 h0 h1
        exact hdraws ⟨idx0, draws0, idx1, draws1, h0, h1⟩
    · refine .inr ⟨picked, targets, simulatedSize, draws, ?_, hchosen, hSize, .inr (by omega)⟩
      rw [pickLoop, if_neg hsize, if_pos (by omega)]

end Turn

/-! ## Evicting -/

/-- What is picked: targets until the simulated size is small enough or fewer
than two keys are left. -/
theorem pickEvictTargets_spec (hs : s.Consistent) {Size : List (String × Nat) → UInt64 → Prop}
    (hturn : ∀ picked targets path bytes size, Chosen s.cacheState picked (targets ++ [(path, bytes)]) →
      Size targets size → Size (targets ++ [(path, bytes)]) (saturatingSub size (UInt64.ofNat bytes)))
    (hSize : Size [] s.cacheSizeBytes) (targetSize : UInt64) (draws : List Nat) :
    s.pickEvictTargets targetSize draws = .error .outOfDraws ∨
      ∃ picked targets size draws', s.pickEvictTargets targetSize draws = .ok (targets, draws') ∧
        Chosen s.cacheState picked targets ∧ Size targets size ∧
        (size ≤ targetSize ∨ s.cacheState.keys.length < picked.length + 2) := by
  unfold pickEvictTargets
  by_cases hfew : s.cacheState.keys.length < 2
  · rw [if_pos hfew]
    exact .inr ⟨[], [], _, draws, rfl, Chosen.nil _, hSize, .inr (by simpa using hfew)⟩
  · rw [if_neg hfew]
    exact pickLoop_spec hs.indexed hturn (Chosen.nil _) hSize (by simp)

/-- Those of the picked that could be removed are forgotten. -/
theorem evictToTargetSize_of_pick (hs : s.Consistent) {targetSize : UInt64} {draws draws' picked : List Nat}
    {targets : List (String × Nat)} (hpick : s.pickEvictTargets targetSize draws = .ok (targets, draws'))
    (hchosen : Chosen s.cacheState picked targets) (gone : String → Bool) :
    ∃ s', s.evictToTargetSize targetSize gone draws =
        .ok (((targets.filter fun target => gone target.1).map Prod.snd).sum, s') ∧
      Forgotten s (targets.filter fun target => gone target.1) s' := by
  have hsub : (targets.filter fun target => gone target.1).Sublist targets := List.filter_sublist
  have hnodup := (hchosen.nodup_paths hs.indexed).sublist (hsub.map Prod.fst)
  obtain ⟨s', hs', hforgot⟩ := forgetTargets_ok hs hnodup fun target hmem => hchosen.sizes target (hsub.subset hmem)
  refine ⟨s', ?_, hforgot⟩
  rw [evictToTargetSize, hpick]
  exact hs'

theorem evictToTargetSize_spec (hs : s.Consistent) {Size : List (String × Nat) → UInt64 → Prop}
    (hturn : ∀ picked targets path bytes size, Chosen s.cacheState picked (targets ++ [(path, bytes)]) →
      Size targets size → Size (targets ++ [(path, bytes)]) (saturatingSub size (UInt64.ofNat bytes)))
    (hSize : Size [] s.cacheSizeBytes) (targetSize : UInt64) (gone : String → Bool) (draws : List Nat) :
    s.evictToTargetSize targetSize gone draws = .error .outOfDraws ∨
      ∃ picked targets size s',
        s.evictToTargetSize targetSize gone draws =
          .ok (((targets.filter fun target => gone target.1).map Prod.snd).sum, s') ∧
        Chosen s.cacheState picked targets ∧ Forgotten s (targets.filter fun target => gone target.1) s' ∧
        Size targets size ∧ (size ≤ targetSize ∨ s.cacheState.keys.length < picked.length + 2) := by
  rcases pickEvictTargets_spec hs hturn hSize targetSize draws with
    h | ⟨picked, targets, size, draws', h, hchosen, hsize, hstop⟩
  · rw [evictToTargetSize, h]
    exact .inl rfl
  · obtain ⟨s', hs', hforgot⟩ := evictToTargetSize_of_pick hs h hchosen gone
    exact .inr ⟨picked, targets, size, s', hs', hchosen, hforgot, hsize, hstop⟩

/-- Without anything said of the simulated size. -/
theorem evictToTargetSize_cases (hs : s.Consistent) (targetSize : UInt64) (gone : String → Bool) (draws : List Nat) :
    s.evictToTargetSize targetSize gone draws = .error .outOfDraws ∨
      ∃ picked targets s',
        s.evictToTargetSize targetSize gone draws =
          .ok (((targets.filter fun target => gone target.1).map Prod.snd).sum, s') ∧
        Chosen s.cacheState picked targets ∧ Forgotten s (targets.filter fun target => gone target.1) s' := by
  rcases @evictToTargetSize_spec s hs (fun _ _ => True) (fun _ _ _ _ _ _ _ => trivial) trivial targetSize gone draws with
    h | ⟨picked, targets, size, s', h, hchosen, hforgot, -, -⟩
  · exact .inl h
  · exact .inr ⟨picked, targets, s', h, hchosen, hforgot⟩

theorem view_touch (s : FsCacheEvictorInner) (path : String) (bytes : Nat) (accessedTime : Int) (p : String) :
    (s.touch path bytes accessedTime).cacheState.view p =
      if p = path then some (accessedTime, ((s.cacheState.view path).map Prod.snd).getD bytes)
      else s.cacheState.view p := by
  unfold touch
  rcases h : s.cacheState.entries path with _ | entry
  · by_cases hp : p = path
    · simp [view, hp, h]
    · simp [view, hp]
  · by_cases hp : p = path
    · simp [view, hp, h]
    · simp [view, hp]

theorem Consistent.touch (hs : s.Consistent) (path : String) (bytes : Nat) (accessedTime : Int) :
    (s.touch path bytes accessedTime).Consistent := by
  unfold FsCacheEvictorInner.touch
  rcases h : s.cacheState.entries path with _ | entry
  · refine ⟨hs.indexed.push h .., ?_⟩
    dsimp only
    rw [hs.indexed.total_push h, UInt64.ofNat_add, hs.size]
  · refine ⟨hs.indexed.retime h .., ?_⟩
    dsimp only
    rw [total_retime h, hs.size]

/-- What a tracked access comes to: the touched state, or what an eviction
makes of it. -/
theorem trackEntryAccessed_cases (hs : s.Consistent) (limits : Limits) (path : String) (bytes : Nat) (accessedTime : Int)
    (evict : Bool) (gone : String → Bool) (draws : List Nat) :
    s.trackEntryAccessed limits path bytes accessedTime evict gone draws = .error .outOfDraws ∨
      ∃ picked targets s',
        s.trackEntryAccessed limits path bytes accessedTime evict gone draws =
          .ok (((targets.filter fun target => gone target.1).map Prod.snd).sum, s') ∧
        Chosen (s.touch path bytes accessedTime).cacheState picked targets ∧
        Forgotten (s.touch path bytes accessedTime) (targets.filter fun target => gone target.1) s' := by
  have htouch := hs.touch path bytes accessedTime
  have hnothing : Forgotten (s.touch path bytes accessedTime)
      ((([] : List (String × Nat))).filter fun target => gone target.1) (s.touch path bytes accessedTime) :=
    ⟨htouch, fun p => by simp, by simp, by simp⟩
  unfold trackEntryAccessed
  dsimp only
  split
  · exact .inr ⟨[], [], _, rfl, Chosen.nil _, hnothing⟩
  split
  · exact evictToTargetSize_cases htouch ..
  · exact .inr ⟨[], [], _, rfl, Chosen.nil _, hnothing⟩

theorem step_consistent (hs : s.Consistent) (limits : Limits) (event : Event) :
    s.step limits event = .error .outOfDraws ∨ ∃ s', s.step limits event = .ok s' ∧ s'.Consistent := by
  cases event with
  | track path bytes accessedTime evict gone draws =>
    rw [step]
    rcases trackEntryAccessed_cases hs limits path bytes accessedTime evict gone draws with
      h | ⟨picked, targets, s', h, -, hforgot⟩
    · rw [h]
      exact .inl rfl
    · rw [h]
      exact .inr ⟨s', rfl, hforgot.consistent⟩
  | delete deleted => exact .inr (deleteEntry_consistent hs deleted)

theorem steps_consistent (hs : s.Consistent) (limits : Limits) (events : List Event) :
    s.steps limits events = .error .outOfDraws ∨ ∃ s', s.steps limits events = .ok s' ∧ s'.Consistent := by
  induction events generalizing s with
  | nil => exact .inr ⟨s, rfl, hs⟩
  | cons event events ih =>
    rw [steps]
    rcases step_consistent hs limits event with h | ⟨s', h, hs'⟩
    · rw [h]
      exact .inl rfl
    · rw [h]
      exact ih hs'

theorem consistent_of_steps {events : List Event} (h : steps limits .new events = .ok s) : s.Consistent := by
  rcases steps_consistent Consistent.new limits events with h' | ⟨s', h', hs'⟩
  · rw [h'] at h
    cases h
  · rw [h'] at h
    obtain rfl := Except.ok.inj h
    exact hs'

/-! ## Runs -/

/-- In every run, whatever is tracked, drawn, deleted or cannot be removed, no
index is out of bounds and, while the draws last, the books are right. -/
theorem evictor_consistent (limits : Limits) (events : List Event) :
    steps limits .new events = .error .outOfDraws ∨
      ∃ s, steps limits .new events = .ok s ∧ s.cacheState.Indexed ∧
        s.cacheSizeBytes = UInt64.ofNat s.cacheState.total := by
  rcases steps_consistent Consistent.new limits events with h | ⟨s, h, hs⟩
  · exact .inl h
  · exact .inr ⟨s, h, hs.indexed, hs.size⟩

/-- Of what a tracked access evicts nothing was used later than everything it
leaves; so what is tracked with a later time than the rest stays. -/
theorem track_spares_newest {events : List Event} (hrun : steps limits .new events = .ok s)
    {path : String} {bytes : Nat} {accessedTime : Int} {evict : Bool} {gone : String → Bool} {draws : List Nat}
    {evicted : Nat} (h : s.trackEntryAccessed limits path bytes accessedTime evict gone draws = .ok (evicted, s')) :
    (∀ victim time size, (s.touch path bytes accessedTime).cacheState.view victim = some (time, size) →
      s'.cacheState.view victim = none →
      ∃ survivor time' size', s'.cacheState.view survivor = some (time', size') ∧ time ≤ time') ∧
    ((∀ other time size, other ≠ path → s.cacheState.view other = some (time, size) → time < accessedTime) →
      s'.cacheState.view path = (s.touch path bytes accessedTime).cacheState.view path) := by
  have hs := consistent_of_steps hrun
  rcases trackEntryAccessed_cases hs limits path bytes accessedTime evict gone draws with
    h' | ⟨picked, targets, s'', h', hchosen, hforgot⟩
  · rw [h'] at h
    cases h
  rw [h'] at h
  obtain ⟨-, rfl⟩ := Prod.mk.inj (Except.ok.inj h)
  have htouch := (hs.touch path bytes accessedTime).indexed
  have hkept : ∀ i p, i ∉ picked → (s.touch path bytes accessedTime).cacheState.keys[i]? = some p →
      s''.cacheState.view p = (s.touch path bytes accessedTime).cacheState.view p := by
    intro i p hi hp
    rw [hforgot.view, if_neg]
    intro hmem
    obtain ⟨j, hj, hpj⟩ := hchosen.mem.1 ((List.filter_sublist.map Prod.fst).subset hmem)
    rw [htouch.index_unique hp hpj] at hi
    exact hi hj
  have hlater : ∀ victim time size, (s.touch path bytes accessedTime).cacheState.view victim = some (time, size) →
      s''.cacheState.view victim = none →
      ∃ i survivor time' size', (s.touch path bytes accessedTime).cacheState.keys[i]? = some survivor ∧ i ∉ picked ∧
        (s.touch path bytes accessedTime).cacheState.view survivor = some (time', size') ∧ time ≤ time' := by
    intro victim time size hview hgone
    rw [hforgot.view] at hgone
    have hmem : victim ∈ targets.map Prod.fst := by
      by_contra hnot
      rw [if_neg (fun h => hnot ((List.filter_sublist.map Prod.fst).subset h)), hview] at hgone
      cases hgone
    obtain ⟨target, htarget, rfl⟩ := List.mem_map.1 hmem
    obtain ⟨i, survivor, time', size', hi, hp, hview', hle⟩ := hchosen.later target htarget time size hview
    exact ⟨i, survivor, time', size', hp, hi, hview', hle⟩
  constructor
  · intro victim time size hview hgone
    obtain ⟨i, survivor, time', size', hp, hi, hview', hle⟩ := hlater victim time size hview hgone
    exact ⟨survivor, time', size', (hkept i survivor hi hp).trans hview', hle⟩
  · intro hnewest
    rcases hview' : s''.cacheState.view path with _ | known
    · -- it would have a survivor used as late, which is then itself
      obtain ⟨i, survivor, time', size', hp, hi, hview, hle⟩ :=
        hlater path _ _ ((s.view_touch path bytes accessedTime path).trans (if_pos rfl)) hview'
      have hself : survivor = path := by
        by_contra hne
        rw [view_touch, if_neg hne] at hview
        have := hnewest survivor time' size' hne hview
        omega
      rw [hself] at hp
      rw [← hview', hkept i path hi hp]
    · rw [← hview', hforgot.view]
      split
      · rename_i hmem
        rw [hforgot.view, if_pos hmem] at hview'
        cases hview'
      · rfl

/-- A cache of ten bytes, with a file of six in it. -/
def smallLimits : Limits := ⟨10, 9⟩

def oneFile : FsCacheEvictorInner := touch .new "a" 6 1

theorem steps_oneFile : steps smallLimits .new [.track "a" 6 1 true (fun _ => true) []] = .ok oneFile := rfl

/-- A second file of six bytes takes the place of the first. -/
theorem track_spares_newest_second : ∃ s',
    oneFile.trackEntryAccessed smallLimits "b" 6 2 true (fun _ => true) [0, 1] = .ok (6, s') ∧
      s'.cacheState.view "a" = none ∧ s'.cacheState.view "b" = some (2, 6) := by
  obtain ⟨s', h, hgone⟩ : ∃ s',
      oneFile.trackEntryAccessed smallLimits "b" 6 2 true (fun _ => true) [0, 1] = .ok (6, s') ∧
        s'.cacheState.view "a" = none := ⟨_, rfl, rfl⟩
  refine ⟨s', h, hgone, ((track_spares_newest steps_oneFile h).2 ?_).trans rfl⟩
  intro other time size hne h
  have hview := view_touch .new "a" 6 1 other
  rw [← oneFile, h] at hview
  split at hview
  · obtain ⟨rfl, -⟩ := Prod.mk.inj (Option.some.inj hview)
    decide
  · cases hview

/-- A tracked access that may evict leaves the cache within its limit or with
one file at most, if what is chosen can be removed; what is counted as evicted
is what is gone. -/
theorem track_within_limits {events : List Event} (hrun : steps limits .new events = .ok s)
    (hlimits : limits.targetSize ≤ UInt64.ofNat limits.maxCacheSizeBytes)
    {path : String} {bytes : Nat} {accessedTime : Int} {draws : List Nat} {evicted : Nat}
    (hsize : (s.touch path bytes accessedTime).cacheState.total < 2 ^ 64)
    (h : s.trackEntryAccessed limits path bytes accessedTime true (fun _ => true) draws = .ok (evicted, s')) :
    (s'.cacheState.total ≤ limits.maxCacheSizeBytes ∨ s'.cacheState.keys.length < 2) ∧
      (s.touch path bytes accessedTime).cacheState.total = evicted + s'.cacheState.total := by
  have htouch := (consistent_of_steps hrun).touch path bytes accessedTime
  have htotal : (s.touch path bytes accessedTime).cacheSizeBytes.toNat =
      (s.touch path bytes accessedTime).cacheState.total := by
    rw [htouch.size, UInt64.toNat_ofNat_of_lt' hsize]
  have hmax : (UInt64.ofNat limits.maxCacheSizeBytes).toNat ≤ limits.maxCacheSizeBytes := by
    rw [UInt64.toNat_ofNat']
    exact Nat.mod_le ..
  unfold trackEntryAccessed at h
  dsimp only at h
  generalize s.touch path bytes accessedTime = t at *
  by_cases hunder : t.cacheSizeBytes ≤ UInt64.ofNat limits.maxCacheSizeBytes
  · rw [if_pos hunder] at h
    obtain ⟨rfl, rfl⟩ := Prod.mk.inj (Except.ok.inj h)
    have := UInt64.le_iff_toNat_le.1 hunder
    exact ⟨.inl (by omega), by omega⟩
  rw [if_neg hunder, if_pos rfl] at h
  -- the simulated size is what the targets leave of the total
  have hspec := @evictToTargetSize_spec t htouch
    (fun targets size => size.toNat + (targets.map Prod.snd).sum = t.cacheState.total) ?_ (by simpa using htotal)
    limits.targetSize (fun _ => true) draws
  · rcases hspec with h' | ⟨picked, targets, size, t', h', hchosen, hforgot, hleft, hstop⟩
    · rw [h'] at h
      cases h
    rw [h', List.filter_true] at h
    obtain ⟨rfl, rfl⟩ := Prod.mk.inj (Except.ok.inj h)
    rw [List.filter_true] at hforgot
    refine ⟨?_, hforgot.total⟩
    have htot := hforgot.total
    have hlen := hforgot.length
    have hpicked := hchosen.length_eq
    rcases hstop with hstop | hstop
    · have := UInt64.le_iff_toNat_le.1 hstop
      have := UInt64.le_iff_toNat_le.1 hlimits
      exact .inl (by omega)
    · exact .inr (by omega)
  · intro picked targets path bytes size hchosen hleft
    obtain ⟨t', -, hforgot⟩ := forgetTargets_ok htouch (hchosen.nodup_paths htouch.indexed) hchosen.sizes
    have htot := hforgot.total
    rw [List.map_append, List.sum_append, List.map_singleton, List.sum_singleton] at htot ⊢
    have hlt : bytes < 2 ^ 64 := by omega
    have hbytes : (UInt64.ofNat bytes).toNat = bytes := UInt64.toNat_ofNat_of_lt' hlt
    have hle : UInt64.ofNat bytes ≤ size := UInt64.le_iff_toNat_le.2 (by omega)
    rw [saturatingSub, if_pos hle, UInt64.toNat_sub_of_le _ _ hle]
    omega

theorem track_within_limits_second : ∃ s',
    oneFile.trackEntryAccessed smallLimits "b" 6 2 true (fun _ => true) [0, 1] = .ok (6, s') ∧
      (s'.cacheState.total ≤ smallLimits.maxCacheSizeBytes ∨ s'.cacheState.keys.length < 2) ∧
      12 = 6 + s'.cacheState.total := by
  obtain ⟨s', h⟩ : ∃ s',
      oneFile.trackEntryAccessed smallLimits "b" 6 2 true (fun _ => true) [0, 1] = .ok (6, s') := ⟨_, rfl⟩
  exact ⟨s', h, track_within_limits steps_oneFile (by decide) (by decide) h⟩

/-! ## Ending -/

/-- Every index keeps being drawn. -/
def Fair (count : Nat) (draws : Nat → Nat) : Prop := ∀ i < count, ∀ k, ∃ m, draws (k + m) % count = i

/-- The first `n` draws. -/
def firstDraws (draws : Nat → Nat) (n : Nat) : List Nat := (List.range n).map draws

theorem firstDraws_add (draws : Nat → Nat) (n m : Nat) :
    firstDraws draws (n + m) = firstDraws draws n ++ firstDraws (fun k => draws (n + k)) m := by
  rw [firstDraws, List.range_add, List.map_append, List.map_map]
  rfl

theorem Fair.shift {count : Nat} {draws : Nat → Nat} (h : Fair count draws) (n : Nat) :
    Fair count fun k => draws (n + k) := by
  intro i hi k
  obtain ⟨m, hm⟩ := h i hi (n + k)
  exact ⟨m, by rw [← hm, Nat.add_assoc]⟩

/-- What is free is found by the time it is drawn. -/
theorem drawAvailable_found {count : Nat} {picked : List Nat} {excludeIdx : Option Nat} {draws : Nat → Nat} {m : Nat}
    (hfree : draws m % count ∉ picked ∧ some (draws m % count) ≠ excludeIdx) :
    ∃ n idx, ∀ more, drawAvailable count picked excludeIdx (firstDraws draws n ++ more) = .ok (idx, more) := by
  induction m generalizing draws with
  | zero => exact ⟨1, draws 0 % count, fun more => by simp [firstDraws, drawAvailable, hfree]⟩
  | succ m ih =>
    by_cases hnow : draws 0 % count ∉ picked ∧ some (draws 0 % count) ≠ excludeIdx
    · exact ⟨1, draws 0 % count, fun more => by simp [firstDraws, drawAvailable, hnow]⟩
    · obtain ⟨n, idx, h⟩ := @ih (fun k => draws (1 + k)) (by rwa [Nat.add_comm m 1] at hfree)
      refine ⟨1 + n, idx, ?_⟩
      intro more
      rw [firstDraws_add, List.append_assoc]
      exact (if_neg hnow).trans (h more)

/-- A short list of indices leaves one out. -/
theorem exists_lt_notMem (picked : List Nat) {count : Nat} (h : picked.length < count) : ∃ i < count, i ∉ picked := by
  by_contra hall
  have hsub : List.range count ⊆ picked := by
    intro i hi
    by_contra hnot
    exact hall ⟨i, List.mem_range.1 hi, hnot⟩
  have hle := (List.subperm_of_subset List.nodup_range hsub).length_le
  rw [List.length_range] at hle
  omega

theorem drawAvailable_none_ends {count : Nat} {picked : List Nat} (hpicked : picked.length < count)
    {draws : Nat → Nat} (hfair : Fair count draws) :
    ∃ n idx, ∀ more, drawAvailable count picked none (firstDraws draws n ++ more) = .ok (idx, more) := by
  obtain ⟨i, hi, hfree⟩ := exists_lt_notMem picked hpicked
  obtain ⟨m, rfl⟩ := hfair i hi 0
  exact drawAvailable_found ⟨hfree, by simp⟩

theorem drawAvailable_some_ends {count : Nat} {picked : List Nat} (hpicked : picked.length + 1 < count) (idx0 : Nat)
    {draws : Nat → Nat} (hfair : Fair count draws) :
    ∃ n idx, ∀ more, drawAvailable count picked (some idx0) (firstDraws draws n ++ more) = .ok (idx, more) := by
  obtain ⟨i, hi, hfree⟩ := exists_lt_notMem (idx0 :: picked) (by rw [List.length_cons]; exact hpicked)
  obtain ⟨m, rfl⟩ := hfair i hi 0
  rw [List.mem_cons, not_or] at hfree
  exact drawAvailable_found ⟨hfree.2, fun h => hfree.1 (Option.some.inj h)⟩

theorem pickLoop_ends {s : CacheState} (hs : s.Indexed) (targetSize : UInt64) {turns : Nat} {simulatedSize : UInt64}
    {picked : List Nat} {targets : List (String × Nat)} (hchosen : Chosen s picked targets)
    {draws : Nat → Nat} (hfair : Fair s.keys.length draws) :
    ∃ n result, pickLoop s targetSize turns simulatedSize picked targets (firstDraws draws n) = .ok result := by
  induction turns generalizing simulatedSize picked targets draws with
  | zero => exact ⟨0, _, rfl⟩
  | succ turns ih =>
    by_cases hsize : simulatedSize ≤ targetSize
    · exact ⟨0, _, by rw [pickLoop, if_pos hsize]⟩
    by_cases hfew : s.keys.length - picked.length < 2
    · exact ⟨0, _, by rw [pickLoop, if_neg hsize, if_pos hfew]⟩
    -- one free index, another, and then the turns that are left
    obtain ⟨n0, idx0, h0⟩ := @drawAvailable_none_ends _ picked (by omega) _ hfair
    obtain ⟨n1, idx1, h1⟩ := @drawAvailable_some_ends _ picked (by omega) idx0 _ (hfair.shift n0)
    obtain ⟨hlt0, hfree0, -⟩ := drawAvailable_ok (by omega) (h0 [])
    obtain ⟨idx, path, bytes, hchosen', hturn⟩ :=
      pickLoop_turn hs hchosen hsize (by omega) ⟨hlt0, hfree0⟩ (drawAvailable_ok (by omega) (h1 []))
    obtain ⟨n2, result, h2⟩ := ih hchosen' ((hfair.shift n0).shift n1)
    refine ⟨n0 + (n1 + n2), result, ?_⟩
    rw [firstDraws_add, firstDraws_add, hturn _ _ _ (h0 _) (h1 _)]
    exact h2

theorem pickEvictTargets_ends (hs : s.Consistent) (targetSize : UInt64) {draws : Nat → Nat}
    (hfair : Fair s.cacheState.keys.length draws) :
    ∃ n result, s.pickEvictTargets targetSize (firstDraws draws n) = .ok result := by
  unfold pickEvictTargets
  by_cases hfew : s.cacheState.keys.length < 2
  · exact ⟨0, _, if_pos hfew⟩
  · obtain ⟨n, result, h⟩ := pickLoop_ends hs.indexed targetSize (Chosen.nil _) hfair
    exact ⟨n, result, (if_neg hfew).trans h⟩

/-- If every index keeps being drawn, an eviction ends, from whatever state a
run has come to. -/
theorem evict_ends {events : List Event} (hrun : steps limits .new events = .ok s) (targetSize : UInt64)
    (gone : String → Bool) {draws : Nat → Nat} (hfair : Fair s.cacheState.keys.length draws) :
    ∃ n evicted s', s.evictToTargetSize targetSize gone (firstDraws draws n) = .ok (evicted, s') := by
  have hs := consistent_of_steps hrun
  obtain ⟨n, result, hends⟩ := pickEvictTargets_ends hs targetSize hfair
  rcases @pickEvictTargets_spec s hs (fun _ _ => True) (fun _ _ _ _ _ _ _ => trivial) trivial targetSize
    (firstDraws draws n) with h | ⟨picked, targets, -, draws', h, hchosen, -, -⟩
  · rw [hends] at h
    cases h
  · obtain ⟨s', hs', -⟩ := evictToTargetSize_of_pick hs h hchosen gone
    exact ⟨n, _, s', hs'⟩

/-- Three files found by a scan, which never evicts. -/
def scanned : FsCacheEvictorInner := ((touch .new "a" 6 1).touch "b" 6 2).touch "c" 6 3

theorem steps_scanned : steps smallLimits .new
    [.track "a" 6 1 false (fun _ => true) [], .track "b" 6 2 false (fun _ => true) [],
      .track "c" 6 3 false (fun _ => true) []] = .ok scanned := rfl

/-- Two of the three files have to go, each the older of two drawn, and one
cannot be removed. -/
theorem evict_ends_scanned : smallLimits.targetSize < scanned.cacheSizeBytes ∧ Fair 3 id ∧ ∃ n evicted s',
    scanned.evictToTargetSize smallLimits.targetSize (· ≠ "b") (firstDraws id n) = .ok (evicted, s') := by
  have hfair : Fair 3 id := by
    intro i hi k
    exact ⟨3 * k + i - k, by simp only [id]; omega⟩
  exact ⟨by decide, hfair, evict_ends steps_scanned smallLimits.targetSize (· ≠ "b") hfair⟩

end FsCacheEvictorInner

end Miscreant
