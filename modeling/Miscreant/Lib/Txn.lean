/-
Optimistic transactions on an ordered key-value map.

A transaction reads from the snapshot taken at its begin, overlaid with its
own writes, and commits unless a key it read or wrote has been committed
since (`Kv.conflicts`). `Kv.Later` is what commits do to a map: a key that
has not been committed since is as it was. A transaction that may commit has
therefore read the map as it stands (`Txn.current`), which is what makes it
atomic.
-/
import Miscreant.Lib.SortedMap
import Mathlib.Data.Nat.Basic

namespace Miscreant.Lib

/-- A map, and when its keys were last committed. -/
structure Kv (κ ν : Type) [LinearOrder κ] where
  data : SortedMap κ ν
  /-- How many commits there have been. -/
  version : Nat
  /-- The commit that last wrote a key. -/
  changed : κ → Nat

/-- A transaction under way: its snapshot, the keys it has read, and its own
writes, oldest first. -/
structure Txn (κ ν : Type) [LinearOrder κ] where
  snapshot : SortedMap κ ν
  version : Nat
  reads : List κ
  writes : List (κ × Option ν)

variable {κ ν : Type} [LinearOrder κ]

/-- One write of a commit. -/
def setKey (m : SortedMap κ ν) (w : κ × Option ν) : SortedMap κ ν :=
  match w.2 with
  | some v => m.insert w.1 v
  | none => m.erase w.1

/-- A map with the writes of a commit on it. -/
def overlay (m : SortedMap κ ν) (writes : List (κ × Option ν)) : SortedMap κ ν := writes.foldl setKey m

theorem get_setKey (m : SortedMap κ ν) (w : κ × Option ν) (k : κ) :
    (setKey m w).get k = if k = w.1 then w.2 else m.get k := by
  obtain ⟨k', v⟩ := w
  cases v with
  | none => exact SortedMap.get_erase m k' k
  | some v => exact SortedMap.get_insert m k' k v

theorem overlay_append (m : SortedMap κ ν) (writes writes' : List (κ × Option ν)) :
    overlay m (writes ++ writes') = overlay (overlay m writes) writes' := List.foldl_append

theorem overlay_congr {k : κ} {writes : List (κ × Option ν)} : ∀ {m m' : SortedMap κ ν},
    (k ∉ writes.map (·.1) → m.get k = m'.get k) → (overlay m writes).get k = (overlay m' writes).get k := by
  induction writes with
  | nil => exact fun h => h (by simp)
  | cons w writes ih =>
    intro m m' h
    refine @ih (setKey m w) (setKey m' w) fun hk => ?_
    rw [get_setKey, get_setKey]
    split
    · rfl
    · rename_i hne
      exact h (by simp only [List.map_cons, List.mem_cons, not_or]; exact ⟨hne, hk⟩)

theorem overlay_of_not_mem {m : SortedMap κ ν} {k : κ} : ∀ {writes : List (κ × Option ν)},
    k ∉ writes.map (·.1) → (overlay m writes).get k = m.get k
  | [], _ => rfl
  | w :: writes, h => by
    simp only [List.map_cons, List.mem_cons, not_or] at h
    have hrest := overlay_of_not_mem (m := setKey m w) h.2
    rw [get_setKey, if_neg h.1] at hrest
    exact hrest

/-- A key whose writes all agree. -/
theorem overlay_of_mem {k : κ} {v : Option ν} {writes : List (κ × Option ν)} :
    ∀ {m : SortedMap κ ν}, (∀ w ∈ writes, w.1 = k → w.2 = v) →
      (k ∈ writes.map (·.1) ∨ m.get k = v) → (overlay m writes).get k = v := by
  induction writes with
  | nil =>
    intro m _ h
    exact h.resolve_left (by simp)
  | cons w writes ih =>
    intro m hw h
    refine @ih (setKey m w) (fun w' hw' => hw w' (by simp [hw'])) ?_
    rw [get_setKey]
    split
    · rename_i hk
      exact .inr (hw w (by simp) hk.symm)
    · rename_i hk
      simpa [hk] using h

namespace Kv

/-- Nothing stored yet. -/
def empty : Kv κ ν := ⟨.empty, 0, fun _ => 0⟩

/-- The map after a commit. -/
def commit (kv : Kv κ ν) (writes : List (κ × Option ν)) : Kv κ ν where
  data := overlay kv.data writes
  version := kv.version + 1
  changed k := if k ∈ writes.map (·.1) then kv.version + 1 else kv.changed k

/-- A transaction that begins now. -/
def begin (kv : Kv κ ν) : Txn κ ν := ⟨kv.data, kv.version, [], []⟩

/-- Some key the transaction read or wrote was committed after its begin. -/
def conflicts (kv : Kv κ ν) (txn : Txn κ ν) : Bool :=
  (txn.reads ++ txn.writes.map (·.1)).any fun k => txn.version < kv.changed k

/-- What any number of commits do to a map. -/
structure Later (kv kv' : Kv κ ν) : Prop where
  version : kv.version ≤ kv'.version
  same : ∀ k, kv'.changed k ≤ kv.version → kv'.data.get k = kv.data.get k ∧ kv'.changed k = kv.changed k

theorem Later.refl (kv : Kv κ ν) : Later kv kv := ⟨le_rfl, fun _ _ => ⟨rfl, rfl⟩⟩

theorem Later.trans {kv kv' kv'' : Kv κ ν} (h : Later kv kv') (h' : Later kv' kv'') : Later kv kv'' := by
  refine ⟨Nat.le_trans h.version h'.version, fun k hk => ?_⟩
  obtain ⟨hget, hchanged⟩ := h'.same k (Nat.le_trans hk h.version)
  rw [hchanged] at hk
  obtain ⟨hget', hchanged'⟩ := h.same k hk
  exact ⟨hget.trans hget', hchanged.trans hchanged'⟩

theorem later_commit (kv : Kv κ ν) (writes : List (κ × Option ν)) : Later kv (kv.commit writes) := by
  refine ⟨Nat.le_succ _, fun k hk => ?_⟩
  have hmem : k ∉ writes.map (·.1) := by
    intro hmem
    simp only [commit, if_pos hmem] at hk
    omega
  exact ⟨overlay_of_not_mem hmem, if_neg hmem⟩

theorem changed_commit_of_mem {kv : Kv κ ν} {writes : List (κ × Option ν)} {k : κ} (h : k ∈ writes.map (·.1)) :
    (kv.commit writes).changed k = kv.version + 1 := if_pos h

theorem changed_commit_of_not_mem {kv : Kv κ ν} {writes : List (κ × Option ν)} {k : κ} (h : k ∉ writes.map (·.1)) :
    (kv.commit writes).changed k = kv.changed k := if_neg h

/-- No key was committed later than the last commit. -/
def Dated (kv : Kv κ ν) : Prop := ∀ k, kv.changed k ≤ kv.version

theorem dated_empty : (empty : Kv κ ν).Dated := fun _ => le_rfl

theorem Dated.commit {kv : Kv κ ν} (h : kv.Dated) (writes : List (κ × Option ν)) : (kv.commit writes).Dated := by
  intro k
  have hk := h k
  simp only [Kv.commit]
  split <;> omega

end Kv

namespace Txn

/-- `txn.get`: the transaction's own last write of the key, else the
snapshot's value. -/
def get (txn : Txn κ ν) (k : κ) : Option ν := (overlay txn.snapshot txn.writes).get k

/-- The transaction having read `k`. -/
def read (txn : Txn κ ν) (k : κ) : Txn κ ν := { txn with reads := txn.reads ++ [k] }

/-- `txn.put` and `txn.delete`. -/
def write (txn : Txn κ ν) (k : κ) (v : Option ν) : Txn κ ν := { txn with writes := txn.writes ++ [(k, v)] }

/-- The snapshot still stands for the keys not committed since. -/
structure Valid (txn : Txn κ ν) (kv : Kv κ ν) : Prop where
  version : txn.version ≤ kv.version
  same : ∀ k, kv.changed k ≤ txn.version → kv.data.get k = txn.snapshot.get k

theorem valid_begin (kv : Kv κ ν) : kv.begin.Valid kv := ⟨le_rfl, fun _ _ => rfl⟩

theorem Valid.later {txn : Txn κ ν} {kv kv' : Kv κ ν} (h : txn.Valid kv) (hl : kv.Later kv') : txn.Valid kv' := by
  refine ⟨Nat.le_trans h.version hl.version, fun k hk => ?_⟩
  obtain ⟨hget, hchanged⟩ := hl.same k (Nat.le_trans hk h.version)
  rw [hget]
  exact h.same k (hchanged ▸ hk)

theorem Valid.read {txn : Txn κ ν} {kv : Kv κ ν} (h : txn.Valid kv) (k : κ) : (txn.read k).Valid kv :=
  ⟨h.version, h.same⟩

theorem Valid.write {txn : Txn κ ν} {kv : Kv κ ν} (h : txn.Valid kv) (k : κ) (v : Option ν) :
    (txn.write k v).Valid kv := ⟨h.version, h.same⟩

/-- What a transaction that may commit has read or written is as it was at
its begin. -/
theorem Valid.current {txn : Txn κ ν} {kv : Kv κ ν} (h : txn.Valid kv) (hc : kv.conflicts txn = false) {k : κ}
    (hk : k ∈ txn.reads ∨ k ∈ txn.writes.map (·.1)) : kv.data.get k = txn.snapshot.get k := by
  refine h.same k ?_
  have hnot := List.any_eq_false.1 hc k (List.mem_append.2 hk)
  simpa using hnot

/-- Alone, a transaction does not meet a conflict. -/
theorem not_conflicts {kv : Kv κ ν} (h : kv.Dated) {txn : Txn κ ν} (hv : txn.version = kv.version) :
    kv.conflicts txn = false := by
  refine List.any_eq_false.2 fun k _ => ?_
  simp [hv, h k]

end Txn

end Miscreant.Lib
