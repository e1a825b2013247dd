/-
The requests to all repositories, on the store they share.

`Miscreant.Store` gives a repository a store of its own, with the values
decoded, and the git layer and the endpoints are programs over it. A `Host` is
that for any number of repositories: stores that have nothing in common but
the offloaded blobs. Here the same programs are carried out over the keys and
bytes of `Miscreant.Slate`, each operation by the one of
`src/storage/store.rs` or `src/storage/blobs.rs` it stands for, and a ref
transaction as a whole by `Slate.updateRefs`.
-/
import Miscreant.Slate
import Miscreant.ReceivePack
import Miscreant.ReadOnlyFacts
import Miscreant.Lib.Refine

namespace Miscreant

open Lib ReceivePack

/-- The repositories, each with a store of its own, and the offloaded blobs
they share. -/
structure Host where
  repos : RepoId → Db Bytes
  blobs : ObjectId → Option Bytes

/-- The operations of all repositories. -/
abbrev hostSig : Sig := (storeSig Bytes).each RepoId

namespace Host

/-- No repository has anything. -/
def empty : Host := ⟨fun _ => Db.empty, fun _ => none⟩

/-- What the operations of a repository see. -/
def db (host : Host) (repo : RepoId) : Db Bytes := { host.repos repo with blobs := host.blobs }

/-- The store of a repository replaced. The blobs are held in one place. -/
def set (host : Host) (repo : RepoId) (db : Db Bytes) : Host :=
  ⟨Function.update host.repos repo { db with blobs := (host.repos repo).blobs }, db.blobs⟩

@[simp] theorem db_set_self (host : Host) (repo : RepoId) (db : Db Bytes) : (host.set repo db).db repo = db := by
  simp [Host.db, set]

theorem db_set_other (host : Host) {repo repo' : RepoId} (h : repo' ≠ repo) (db : Db Bytes) :
    (host.set repo db).db repo' = { host.db repo' with blobs := db.blobs } := by
  simp [Host.db, set, h]

@[simp] theorem set_db (host : Host) (repo : RepoId) : host.set repo (host.db repo) = host := by
  show (⟨Function.update host.repos repo (host.repos repo), host.blobs⟩ : Host) = host
  rw [Function.update_eq_self]

/-- An operation of a repository run at once. -/
def handler : Handler hostSig Host := fun o host =>
  let (ans, db) := Db.handler o.2 (host.db o.1)
  (ans, host.set o.1 db)

end Host

variable {ε α : Type}

/-- An operation of a repository. A value that does not decode is its error.
Nothing is left to flush: a write is seen at once. -/
def StoreOp.onSlate (repo : RepoId) : (o : StoreOp Bytes) → SlateProg SlateError o.Ans
  | .getObject oid => Slate.getObject repo oid
  | .putObject oid record durability => Slate.putObject repo oid record durability
  | .blobGet oid => Slate.blobGet oid
  | .blobPut oid bytes => Slate.blobPut oid bytes
  | .getCommitGraph oid => Slate.get (commitKey repo oid)
  | .putCommitGraph oid value durability => Slate.put (commitKey repo oid) value durability
  | .getRef name => Slate.getRef repo name
  | .listRefs => Slate.listRefs repo none
  | .flush => pure ()
  | .beginTxn => .stuck
  | .commitTxn _ => .stuck

/-- A program of a repository that answers its own errors. -/
def onSlate (repo : RepoId) (p : StoreProg Bytes Empty α) : SlateProg SlateError α :=
  p.carry (fun o : StoreOp Bytes => o.onSlate repo) Empty.elim

/-- The environment, with the commit-graph records as the bytes that are
stored. -/
abbrev Env.stored (E : Env) : Env := { E with codec := .bytes }

namespace ReceivePack

/-- `receive_pack` up to its ref updates: the response, if it ends there. -/
def promoted (E : Env) (X : GixPack) (fuel : Nat) (objectFormat : HashKind) (request : Request) :
    E.Prog ε (Option Response) := do
  match ← (ingestPack E X request.pack objectFormat).attempt with
  | .error e => pure (some (pushFailed request e.class))
  | .ok staged =>
    match ← (Promote.validateAndPromote E fuel staged request.tips).attempt with
    | .error e => pure (some (pushFailed request e.class))
    | .ok _ => pure none

theorem handle_eq (E : Env) (X : GixPack) (fuel : Nat) (objectFormat : HashKind) (request : Request) :
    (handle E X fuel objectFormat request : E.Prog ε Response) = (do
      match ← promoted E X fuel objectFormat request with
      | some response => pure response
      | none =>
        let results ← updateRefs request.updates
        pure (reportSuccess request results)) := by
  unfold handle promoted
  rw [Prog.bind_assoc]
  congr 1
  funext ingested
  cases ingested with
  | error e => rfl
  | ok staged =>
    dsimp only
    rw [Prog.bind_assoc]
    congr 1
    funext result
    cases result <;> rfl

/-- `receive_pack` of a request that has been parsed. -/
def handleOnSlate (E : Env) (X : GixPack) (fuel : Nat) (objectFormat : HashKind) (repo : RepoId) (request : Request) :
    SlateProg SlateError Response := do
  match ← onSlate repo (promoted E.stored X fuel objectFormat request) with
  | some response => pure response
  | none =>
    let results ← Slate.updateRefs repo request.updates
    pure (reportSuccess request results)

/-- `receive_pack`. -/
def receivePackOnSlate (E : Env) (X : GixPack) (fuel : Nat) (objectFormat : HashKind) (repo : RepoId) (body : Bytes) :
    SlateProg SlateError Response :=
  match parseRequest body with
  | none => pure (plain 400 "malformed receive-pack request")
  | some request => handleOnSlate E X fuel objectFormat repo request

end ReceivePack

/-- A request to a repository, with its fuel. -/
inductive RepoRequest
  | uploadPack (request : UploadPackRequest)
  | receivePack (fuel : Nat) (body : Bytes)

/-- A request and the repository it has been resolved to. -/
structure RepoCall where
  repo : RepoId
  objectFormat : HashKind
  request : RepoRequest

namespace RepoCall

/-- The program that answers it, on the repository's own store. -/
def own (E : Env) (G : UploadPack.PackBytes) (X : GixPack) (call : RepoCall) : StoreProg Bytes Empty Response :=
  match call.request with
  | .uploadPack request => request.prog E.stored G call.objectFormat
  | .receivePack fuel body => ReceivePack.receivePack E.stored X fuel call.objectFormat body

/-- The same among the others. -/
def prog (E : Env) (G : UploadPack.PackBytes) (X : GixPack) (call : RepoCall) : Prog hostSig Empty Response :=
  (call.own E G X).inside call.repo

/-- And on the shared store. A value that does not decode ends it. -/
def onSlate (E : Env) (G : UploadPack.PackBytes) (X : GixPack) (call : RepoCall) : SlateProg SlateError Response :=
  match call.request with
  | .uploadPack request => Miscreant.onSlate call.repo (request.prog E.stored G call.objectFormat)
  | .receivePack fuel body => receivePackOnSlate E X fuel call.objectFormat call.repo body

end RepoCall

end Miscreant
