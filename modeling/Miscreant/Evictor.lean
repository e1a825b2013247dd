/-
What the part cache's evictor keeps, and how it chooses what to remove
(`FsCacheEvictorInner` and `CacheState` of
`src/storage/part_cache/storage_fs.rs`).

The evictor knows the files by their paths, with the size each was tracked
with and when it was last used. The paths are also in a vector, so that one
can be drawn at random; each entry has its place there. Over budget, of two
files drawn the one used longer ago is removed, until enough is.

`track_lock` makes one step of each tracked access, with its eviction, and of
the end of each deletion. What is drawn and which files can be removed is
given with the step; the sizes are 64-bit numbers that wrap around.
-/
import Miscreant.Lib.SwapRemove
import Mathlib.Logic.Function.Basic

namespace Miscreant

open Lib

structure CacheEntry where
  accessTime : Int
  sizeBytes : Nat
  keyIndex : Nat
  deriving DecidableEq, Repr

structure CacheState where
  entries : String → Option CacheEntry
  keys : List String

/-- Why a step does not end: an index out of bounds, or that the random
numbers given have run out. -/
inductive Halt
  | panic
  | outOfDraws
  deriving DecidableEq, Repr

namespace CacheState

/-- `CacheState::remove_entry`. -/
def removeEntry (s : CacheState) (path : String) : Except Halt (Option CacheEntry × CacheState) :=
  match s.entries path with
  | none => .ok (none, s)
  | some removed =>
    if removed.keyIndex < s.keys.length then
      let keys := swapRemove s.keys removed.keyIndex
      let entries := Function.update s.entries path none
      let entries := match keys[removed.keyIndex]? with
        | none => entries
        | some swappedKey =>
          Function.update entries swappedKey
            ((entries swappedKey).map fun swapped => { swapped with keyIndex := removed.keyIndex })
      .ok (some removed, ⟨entries, keys⟩)
    else .error .panic

end CacheState

/-- The part of `FsCacheEvictorInner` that changes. -/
structure FsCacheEvictorInner where
  cacheState : CacheState
  cacheSizeBytes : UInt64

namespace FsCacheEvictorInner

/-- `FsCacheEvictorInner::new`. -/
def new : FsCacheEvictorInner := ⟨⟨fun _ => none, []⟩, 0⟩

/-! ## Choosing -/

/-- The loop of `pick_random_available_index`, over the numbers drawn. -/
def drawAvailable (count : Nat) (picked : List Nat) (excludeIdx : Option Nat) :
    List Nat → Except Halt (Nat × List Nat)
  | [] => .error .outOfDraws
  | draw :: draws =>
    let idx := draw % count
    if idx ∉ picked ∧ some idx ≠ excludeIdx then .ok (idx, draws) else drawAvailable count picked excludeIdx draws

/-- `pick_random_available_index`: the index, if there is one, and the numbers
left to draw. -/
def pickRandomAvailableIndex (keys : List String) (picked : List Nat) (excludeIdx : Option Nat) (draws : List Nat) :
    Except Halt (Option Nat × List Nat) :=
  let excludedNotPicked := excludeIdx.any (· ∉ picked)
  let availableCount := keys.length - picked.length - excludedNotPicked.toNat
  if availableCount = 0 then .ok (none, draws)
  else (drawAvailable keys.length picked excludeIdx draws).map fun (idx, draws) => (some idx, draws)

/-- `u64::saturating_sub`. -/
def saturatingSub (a b : UInt64) : UInt64 := if b ≤ a then a - b else 0

/-- The loop of `pick_evict_targets`: the size it would come to, the indices
picked and the targets so far. Each turn picks one more index. -/
def pickLoop (s : CacheState) (targetSize : UInt64) :
    Nat → UInt64 → List Nat → List (String × Nat) → List Nat → Except Halt (List (String × Nat) × List Nat)
  | 0, _, _, targets, draws => .ok (targets, draws)
  | turns + 1, simulatedSize, picked, targets, draws =>
    if simulatedSize ≤ targetSize then .ok (targets, draws)
    else if s.keys.length - picked.length < 2 then .ok (targets, draws)
    else do
      let (idx0, draws) ← pickRandomAvailableIndex s.keys picked none draws
      match idx0 with
      | none => .ok (targets, draws)
      | some idx0 =>
        let (idx1, draws) ← pickRandomAvailableIndex s.keys picked (some idx0) draws
        match idx1 with
        | none => .ok (targets, draws)
        | some idx1 =>
          match s.keys[idx0]?, s.keys[idx1]? with
          | some path0, some path1 =>
            match s.entries path0, s.entries path1 with
            | some entry0, some entry1 =>
              let (chosenIdx, chosenPath, chosenBytes) :=
                if entry0.accessTime ≤ entry1.accessTime then (idx0, path0, entry0.sizeBytes)
                else (idx1, path1, entry1.sizeBytes)
              pickLoop s targetSize turns (saturatingSub simulatedSize (UInt64.ofNat chosenBytes)) (chosenIdx :: picked)
                (targets ++ [(chosenPath, chosenBytes)]) draws
            | _, _ => .ok (targets, draws)
          | _, _ => .error .panic

/-- `pick_evict_targets`; a turn for each key is enough. -/
def pickEvictTargets (s : FsCacheEvictorInner) (targetSize : UInt64) (draws : List Nat) :
    Except Halt (List (String × Nat) × List Nat) :=
  if s.cacheState.keys.length < 2 then .ok ([], draws)
  else pickLoop s.cacheState targetSize s.cacheState.keys.length s.cacheSizeBytes [] [] draws

/-! ## Steps -/

/-- The targets removed from disk are forgotten; answers the bytes evicted. -/
def forgetTargets (s : FsCacheEvictorInner) : List (String × Nat) → Except Halt (Nat × FsCacheEvictorInner)
  | [] => .ok (0, s)
  | (target, targetBytes) :: targets => do
    let (removed, cacheState) ← s.cacheState.removeEntry target
    match removed with
    | none => forgetTargets { s with cacheState } targets
    | some _ =>
      let (total, s) ← forgetTargets ⟨cacheState, s.cacheSizeBytes - UInt64.ofNat targetBytes⟩ targets
      .ok (targetBytes + total, s)

/-- `evict_to_target_size`; `gone` says of which files the removal succeeds,
or finds nothing. -/
def evictToTargetSize (s : FsCacheEvictorInner) (targetSize : UInt64) (gone : String → Bool) (draws : List Nat) :
    Except Halt (Nat × FsCacheEvictorInner) := do
  let (pickedTargets, _) ← s.pickEvictTargets targetSize draws
  s.forgetTargets (pickedTargets.filter fun target => gone target.1)

/-- An access: a file's first adds it, a later one only has its time. -/
def touch (s : FsCacheEvictorInner) (path : String) (bytes : Nat) (accessedTime : Int) : FsCacheEvictorInner :=
  match s.cacheState.entries path with
  | some entry =>
    { s with cacheState :=
      { s.cacheState with
        entries := Function.update s.cacheState.entries path (some { entry with accessTime := accessedTime }) } }
  | none =>
    { cacheState :=
        { entries := Function.update s.cacheState.entries path
            (some ⟨accessedTime, bytes, s.cacheState.keys.length⟩)
          keys := s.cacheState.keys ++ [path] }
      cacheSizeBytes := s.cacheSizeBytes + UInt64.ofNat bytes }

/-- The limits: the most the cache may take up, and what it is brought down
to (`max_cache_size_bytes as f64 * 0.9`). -/
structure Limits where
  maxCacheSizeBytes : Nat
  targetSize : UInt64

/-- `track_entry_accessed`. -/
def trackEntryAccessed (limits : Limits) (s : FsCacheEvictorInner) (path : String) (bytes : Nat) (accessedTime : Int)
    (evict : Bool) (gone : String → Bool) (draws : List Nat) : Except Halt (Nat × FsCacheEvictorInner) :=
  let s := s.touch path bytes accessedTime
  if s.cacheSizeBytes ≤ UInt64.ofNat limits.maxCacheSizeBytes then .ok (0, s)
  else if evict then s.evictToTargetSize limits.targetSize gone draws
  else .ok (0, s)

/-- The end of `delete_entry`, of the files `delete_cache_entry` has removed. -/
def deleteEntry (s : FsCacheEvictorInner) : List String → Except Halt FsCacheEvictorInner
  | [] => .ok s
  | deleted :: rest => do
    let (removed, cacheState) ← s.cacheState.removeEntry deleted
    match removed with
    | none => deleteEntry { s with cacheState } rest
    | some removed => deleteEntry ⟨cacheState, s.cacheSizeBytes - UInt64.ofNat removed.sizeBytes⟩ rest

/-- What `background_evict` and `background_scan` do, one after another. -/
inductive Event
  | track (path : String) (bytes : Nat) (accessedTime : Int) (evict : Bool) (gone : String → Bool) (draws : List Nat)
  | delete (deleted : List String)

def step (limits : Limits) (s : FsCacheEvictorInner) : Event → Except Halt FsCacheEvictorInner
  | .track path bytes accessedTime evict gone draws =>
    (s.trackEntryAccessed limits path bytes accessedTime evict gone draws).map Prod.snd
  | .delete deleted => s.deleteEntry deleted

def steps (limits : Limits) (s : FsCacheEvictorInner) : List Event → Except Halt FsCacheEvictorInner
  | [] => .ok s
  | event :: events => do
    let s ← s.step limits event
    s.steps limits events

end FsCacheEvictorInner

end Miscreant
