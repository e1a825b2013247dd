/-
Planning a fetch (`src/protocol/upload_pack.rs`): a request's wants and haves
resolved into the objects to pack and the haves to acknowledge, and how refs
are resolved for the advertisement.
-/
import Miscreant.Walk

namespace Miscreant

open Lib

def MAX_SYMREF_DEPTH : Nat := 5

/-- `ScheduledObject`: an object to pack, with the path-name hash of a blob
that may be sent as a delta. -/
structure ScheduledObject where
  oid : ObjectId
  deltaGroup : Option UInt32
  deriving DecidableEq, Repr

/-- `PackPlan`, without its timings. -/
structure PackPlan where
  objects : List ScheduledObject
  common : List ObjectId
  deriving DecidableEq, Repr

/-- `Resolution`: the outcome of following a ref target. -/
inductive Resolution
  | resolved (oid : ObjectId)
  | dangling
  | tooDeep
  deriving DecidableEq, Repr

namespace UploadPack

variable (E : Env)

/-- `plain_schedule`. -/
def plainSchedule (objects : List ObjectId) : List ScheduledObject := objects.map fun oid => ⟨oid, none⟩

/-- `name_hash`: a suffix-biased path hash. -/
def nameHash (path : Bytes) : UInt32 :=
  path.reverse.foldl (fun hash byte => hash * 33 + byte.toUInt32) 5381

/-- A path-discovered blob being scheduled. -/
structure ScheduledBlob where
  group : UInt32
  path : Bytes
  size : Nat
  position : Nat
  oid : ObjectId

/-- The order of `schedule_for_ofs`: by group, path, size, then position. -/
def ScheduledBlob.le (a b : ScheduledBlob) : Bool :=
  (a.group.toNat < b.group.toNat) ||
    (a.group == b.group && ((a.path.map UInt8.toNat) < (b.path.map UInt8.toNat) ||
      (a.path == b.path && (a.size < b.size || (a.size == b.size && a.position ≤ b.position)))))

/-- The loop of `schedule_for_ofs`: what keeps its place and what is grouped
by path. A pathed object without metadata would panic. -/
def splitForOfs (info : SortedMap ObjectId (Kind × Nat)) (blobPaths : SortedMap ObjectId Bytes) :
    Nat → List ObjectId → Option (List (Nat × ScheduledObject) × List ScheduledBlob)
  | _, [] => some ([], [])
  | position, oid :: oids =>
    (splitForOfs info blobPaths (position + 1) oids).bind fun (fixed, blobs) =>
      match blobPaths.get oid with
      | none => some ((position, ⟨oid, none⟩) :: fixed, blobs)
      | some path =>
        match info.get oid with
        | none => none
        | some (kind, size) =>
          if kind ≠ .blob then some ((position, ⟨oid, none⟩) :: fixed, blobs)
          else some (fixed, ⟨nameHash path, path, size, position, oid⟩ :: blobs)

/-- `schedule_for_ofs`. -/
def scheduleForOfs (collected : CollectedObjects) : E.Prog WalkError (List ScheduledObject) := do
  let infos ← Walker.objectInfo E collected.objects
  let info := infos.foldl (fun (m : SortedMap ObjectId (Kind × Nat)) (oid, ks) => m.insert oid ks) .empty
  let (fixed, blobs) ← Prog.ofOption (splitForOfs info collected.blobPaths 0 collected.objects)
  let blobs := blobs.mergeSort ScheduledBlob.le
  let fixed := fixed.mergeSort fun a b => a.1 ≤ b.1
  pure (fixed.map (·.2) ++ blobs.map fun b => ⟨b.oid, some b.group⟩)

/-- The directly wanted objects the walk has not collected, each once. -/
def addDirect (direct : List ObjectId) (objects : List ObjectId) : List ObjectId :=
  direct.foldl (fun objects oid => if oid ∈ objects then objects else objects ++ [oid]) objects

/-- `plan_pack`. -/
def planPack (fuel : Nat) (wants haves : List ObjectId) (filter : FilterSpec) (ofsDeltas : Bool) :
    E.Prog WalkError PackPlan := do
  let partition ← Walker.partitionWants E wants
  if partition.history.isEmpty then pure { objects := plainSchedule partition.direct, common := [] }
  else do
    let selection ← Walker.selectCommits E fuel partition.history haves
    let collected ←
      if ofsDeltas then Walker.collectWithPaths E fuel selection.toSend selection.common filter
      else do
        let objects ← Walker.collect E fuel selection.toSend selection.common filter
        pure { objects, blobPaths := .empty }
    let collected := { collected with objects := addDirect partition.direct collected.objects }
    let objects ←
      if ofsDeltas then scheduleForOfs E collected else pure (plainSchedule collected.objects)
    pure { objects, common := selection.common }

/-- `resolve_ref`, with `n` hops left. -/
def resolveFrom {ε : Type} : Nat → RefTarget → E.Prog ε Resolution
  | 0, _ => pure .tooDeep
  | _ + 1, .direct oid => pure (.resolved oid)
  | n + 1, .reference name => do
    match ← Store.getRef name with
    | some next => resolveFrom n next
    | none => pure .dangling

/-- `resolve_ref`. -/
def resolveRef {ε : Type} (target : RefTarget) : E.Prog ε Resolution := resolveFrom E MAX_SYMREF_DEPTH target

end UploadPack

end Miscreant
