/-
Connectivity validation and promotion of a staged pack
(`src/git/promote.rs`), and the push it is part of
(`src/protocol/receive_pack.rs`).

Ingestion (`src/git/ingest.rs`) leaves a staged pack: the objects received,
each under the id its kind and body hash to.
-/
import Miscreant.Walk

namespace Miscreant

open Lib

/-- `StagedPack`: the objects of a received pack, by id. -/
structure StagedPack where
  objects : SortedMap ObjectId (Kind × Bytes)

/-- `StagedPack::read`. -/
def StagedPack.read (staged : StagedPack) (oid : ObjectId) : Option (Kind × Bytes) := staged.objects.get oid

/-- `PromoteError`. -/
inductive PromoteError
  | store (e : StoreError)
  | objects (e : ObjectDbError)
  | walk (e : WalkError)
  | decode (oid : ObjectId)
  | connectivity (missing : ObjectId) (referencedBy : Option ObjectId)
  deriving DecidableEq

/-- `Promotion`: what a push added, in the order it was written. -/
structure Promotion where
  promoted : List ObjectId
  commits : List ObjectId
  deriving DecidableEq, Repr

/-- One frame of the traversal. -/
inductive Step
  | enter (oid : ObjectId) (referencedBy : Option ObjectId)
  | emit (oid : ObjectId) (kind : Kind) (body : Bytes)
  deriving DecidableEq, Repr

namespace Promote

variable (E : Env)

/-- The tree case of `object_children`: the non-gitlink entries. -/
def treeChildren : List (Option TreeEntryRef) → Option (List ObjectId)
  | [] => some []
  | none :: _ => none
  | some entry :: entries =>
    (treeChildren entries).map fun rest => if entry.mode = .commit then rest else entry.oid :: rest

/-- `object_children`; `none` is a decode error. -/
def objectChildren (id : ObjectId) (kind : Kind) (body : Bytes) : Option (List ObjectId) :=
  match kind with
  | .blob => some []
  | .tree => treeChildren (E.gix.treeEntries body id.kind)
  | .commit => (E.gix.commitFromBytes body id.kind).map fun commit => commit.tree :: commit.parents
  | .tag => (E.gix.tagFromBytes body id.kind).map fun tag => [tag.target]

/-- The state of `validate`: its stack (top first), the ids whose visit is
settled, and the post-order so far. -/
structure Visit where
  stack : List Step
  done : Finset ObjectId
  postOrder : List (ObjectId × Kind × Bytes)

/-- One turn of the loop of `validate`. -/
def validateStep (staged : StagedPack) (s : Visit) :
    E.Prog PromoteError (Visit ⊕ List (ObjectId × Kind × Bytes)) :=
  match s.stack with
  | [] => pure (.inr s.postOrder)
  | .emit oid kind body :: rest =>
    pure (.inl { s with stack := rest, postOrder := s.postOrder ++ [(oid, kind, body)] })
  | .enter oid referencedBy :: rest =>
    if oid ∈ s.done then pure (.inl { s with stack := rest })
    else do
      let s := { s with stack := rest, done := insert oid s.done }
      let known ← ObjectDb.exists E oid
      if known then pure (.inl s)
      else
        match staged.read oid with
        | none => .fail (.connectivity oid referencedBy)
        | some (kind, body) =>
          match objectChildren E oid kind body with
          | none => .fail (.decode oid)
          | some children =>
            -- the emit sits below the children, so it runs once they are emitted
            pure (.inl { s with stack := children.map (.enter · (some oid)) ++ .emit oid kind body :: rest })

/-- `validate`. -/
def validate (fuel : Nat) (staged : StagedPack) (tips : List ObjectId) :
    E.Prog PromoteError (List (ObjectId × Kind × Bytes)) :=
  Prog.loop (validateStep E staged) fuel
    { stack := tips.map (.enter · none), done := ∅, postOrder := [] }

/-- The objects of one kind, in post-order. -/
def ofKind (kind : Kind) (postOrder : List (ObjectId × Kind × Bytes)) : List (ObjectId × Kind × Bytes) :=
  postOrder.filter fun (_, k, _) => k = kind

/-- The write order of phase 2: blobs, trees, commits, tags. -/
def writeOrder (postOrder : List (ObjectId × Kind × Bytes)) : List (ObjectId × Kind × Bytes) :=
  ofKind .blob postOrder ++ ofKind .tree postOrder ++ ofKind .commit postOrder ++ ofKind .tag postOrder

/-- Phase 2 of `validate_and_promote`. -/
def putAll : List (ObjectId × Kind × Bytes) → E.Prog PromoteError Unit
  | [] => pure ()
  | (oid, kind, body) :: rest => do
    ObjectDb.put E oid kind body .relaxed
    putAll rest

/-- The greatest generation among the parents, `0` when there are none. -/
def maxParentGeneration (fuel : Nat) : List ObjectId → UInt32 → E.Prog WalkError UInt32
  | [], greatest => pure greatest
  | parent :: parents, greatest => do
    let record ← Walker.getCommitInfo E fuel parent
    maxParentGeneration fuel parents (max greatest record.generation)

/-- Phase 3 for one commit. -/
def extendGraph (fuel : Nat) (oid : ObjectId) (body : Bytes) : E.Prog PromoteError Unit :=
  match E.gix.commitFromBytes body oid.kind with
  | none => .fail (.decode oid)
  | some commit => do
    let greatest ← (maxParentGeneration E fuel commit.parents 0).mapErr .walk
    Store.putCommitGraph E.codec oid
      { generation := greatest + 1, rootTree := commit.tree, parents := commit.parents } .relaxed

/-- Phase 3 of `validate_and_promote`. -/
def extendGraphAll (fuel : Nat) : List (ObjectId × Kind × Bytes) → E.Prog PromoteError Unit
  | [] => pure ()
  | (oid, _, body) :: rest => do
    extendGraph E fuel oid body
    extendGraphAll fuel rest

/-- `validate_and_promote`. -/
def validateAndPromote (fuel : Nat) (staged : StagedPack) (tips : List ObjectId) :
    E.Prog PromoteError Promotion := do
  let postOrder ← validate E fuel staged tips
  putAll E (writeOrder postOrder)
  extendGraphAll E fuel (ofKind .commit postOrder)
  Store.flush
  pure
    { promoted := (writeOrder postOrder).map (·.1)
      commits := (ofKind .commit postOrder).map (·.1) }

/-- The tips of a push: its commands' non-delete new ids. -/
def tipsOf (updates : List RefUpdate) : List ObjectId := updates.filterMap (·.new)

/-- The part of `receive_pack` after ingestion: promote the pack with the
commands' new ids as tips, then apply the commands. -/
def receivePack (fuel : Nat) (staged : StagedPack) (updates : List RefUpdate) :
    E.Prog PromoteError (List RefUpdateResult) := do
  let _ ← validateAndPromote E fuel staged (tipsOf updates)
  updateRefs updates

end Promote

end Miscreant
