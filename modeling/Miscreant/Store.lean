/-
One repository's segments of the store (`src/storage/store.rs`) and the
offloaded-blob store (`src/storage/blobs.rs`), with the typed operations the
git layer uses.

An operation reads the store as it stands and leaves a list of writes
(`StoreOp.writes`). Run alone, the writes are applied at once
(`Db.handler`); `Miscreant.Crash` keeps them in a log instead. Faults of
SlateDB or of the object store are not modelled: what can fail here is the
decoding of a value.

A ref transaction reads from the snapshot taken at its begin, overlaid with
its own writes, and commits unless a key it read or wrote has been committed
since (`Db.conflicts`).
-/
import Miscreant.Values
import Miscreant.Lib.Prog
import Miscreant.Lib.SortedMap
import Mathlib.Data.String.Basic

namespace Miscreant

open Lib

/-- The symbolic ref name every repository is created with. -/
def HEAD_REF : String := "HEAD"

/-- Whether a write waits to be persisted. -/
inductive Durability
  | durable
  | relaxed
  deriving DecidableEq, Repr

/-- What a store operation fails with. -/
inductive StoreError
  /-- A stored value could not be decoded. -/
  | value (e : ValueError)
  deriving DecidableEq, Repr

/-- One write, as the write-ahead log holds it. The writes of a transaction
are one entry. -/
inductive Write (V : Type)
  | object (oid : ObjectId) (record : ObjectRecord)
  | graph (oid : ObjectId) (value : V)
  | refs (writes : List (String × Option RefTarget))

/-- The state a repository's reads see. -/
structure Db (V : Type) where
  objects : ObjectId → Option ObjectRecord
  graph : ObjectId → Option V
  refs : SortedMap String RefTarget
  /-- How many ref transactions have committed. -/
  version : Nat
  /-- The transaction that last committed a ref. -/
  refVersion : String → Nat
  /-- The streams of offloaded blobs. -/
  blobs : ObjectId → Option Bytes

/-- A repository with no objects and no refs. -/
def Db.empty {V : Type} : Db V where
  objects _ := none
  graph _ := none
  refs := .empty
  version := 0
  refVersion _ := 0
  blobs _ := none

/-- One ref of a committed transaction. -/
def setRef (refs : SortedMap String RefTarget) (w : String × Option RefTarget) : SortedMap String RefTarget :=
  match w.2 with
  | some target => refs.insert w.1 target
  | none => refs.erase w.1

/-- The state after a write. -/
def Db.apply {V : Type} (db : Db V) : Write V → Db V
  | .object oid record => { db with objects := Function.update db.objects oid (some record) }
  | .graph oid value => { db with graph := Function.update db.graph oid (some value) }
  | .refs writes =>
    { db with
      refs := writes.foldl setRef db.refs
      version := db.version + 1
      refVersion := fun name => if name ∈ writes.map (·.1) then db.version + 1 else db.refVersion name }

/-! ## Ref transactions -/

/-- A ref transaction under way: its snapshot, the keys it has read, and its
own writes, oldest first. -/
structure RefTxn where
  snapshot : SortedMap String RefTarget
  version : Nat
  reads : List String
  writes : List (String × Option RefTarget)

/-- `txn.get`: the transaction's own last write of the key, else the
snapshot's value. -/
def RefTxn.get (txn : RefTxn) (name : String) : Option RefTarget :=
  (txn.writes.foldl setRef txn.snapshot).get name

/-- The transaction having read `name`. -/
def RefTxn.read (txn : RefTxn) (name : String) : RefTxn := { txn with reads := txn.reads ++ [name] }

/-- `txn.put` and `txn.delete`. -/
def RefTxn.write (txn : RefTxn) (name : String) (target : Option RefTarget) : RefTxn :=
  { txn with writes := txn.writes ++ [(name, target)] }

/-- Some key the transaction read or wrote was committed after its begin. -/
def Db.conflicts {V : Type} (db : Db V) (txn : RefTxn) : Bool :=
  (txn.reads ++ txn.writes.map (·.1)).any fun name => txn.version < db.refVersion name

/-! ## Operations -/

/-- The individual operations on a repository's segments and on the blob
store. -/
inductive StoreOp (V : Type)
  | getObject (oid : ObjectId)
  | putObject (oid : ObjectId) (record : ObjectRecord) (durability : Durability)
  | blobGet (oid : ObjectId)
  | blobPut (oid : ObjectId) (bytes : Bytes)
  | getCommitGraph (oid : ObjectId)
  | putCommitGraph (oid : ObjectId) (value : V) (durability : Durability)
  | getRef (name : String)
  | listRefs
  | flush
  | beginTxn
  | commitTxn (txn : RefTxn)

/-- What each operation answers. -/
def StoreOp.Ans {V : Type} : StoreOp V → Type
  | getObject _ => Option ObjectRecord
  | putObject _ _ _ => Unit
  | blobGet _ => Option Bytes
  | blobPut _ _ => Unit
  | getCommitGraph _ => Option V
  | putCommitGraph _ _ _ => Unit
  | getRef _ => Option RefTarget
  | listRefs => List (String × RefTarget)
  | flush => Unit
  | beginTxn => RefTxn
  | commitTxn _ => Bool

/-- The store's operations as a signature. -/
def storeSig (V : Type) : Sig := ⟨StoreOp V, StoreOp.Ans⟩

/-- The answer of an operation in a state. -/
def StoreOp.answer {V : Type} (db : Db V) : (o : StoreOp V) → o.Ans
  | getObject oid => db.objects oid
  | putObject _ _ _ => ()
  | blobGet oid => db.blobs oid
  | blobPut _ _ => ()
  | getCommitGraph oid => db.graph oid
  | putCommitGraph _ _ _ => ()
  | getRef name => db.refs.get name
  | listRefs => db.refs.entries
  | flush => ()
  | beginTxn => ⟨db.refs, db.version, [], []⟩
  | commitTxn txn => !db.conflicts txn

/-- The writes of an operation, in submission order. -/
def StoreOp.writes {V : Type} (db : Db V) : StoreOp V → List (Write V)
  | putObject oid record _ => [.object oid record]
  | putCommitGraph oid value _ => [.graph oid value]
  | commitTxn txn => if db.conflicts txn then [] else [.refs txn.writes]
  | _ => []

/-- What an operation does to the blob store, which holds the last stream
written under an id. -/
def StoreOp.blobWrites {V : Type} (blobs : ObjectId → Option Bytes) : StoreOp V → ObjectId → Option Bytes
  | blobPut oid bytes => Function.update blobs oid (some bytes)
  | _ => blobs

/-- An operation run at once on the state. -/
def Db.handler {V : Type} : Handler (storeSig V) (Db V) := fun o db =>
  (StoreOp.answer db o,
    (StoreOp.writes db o).foldl Db.apply { db with blobs := StoreOp.blobWrites db.blobs o })

/-- A program over a store whose commit-graph values are `V`. -/
abbrev StoreProg (V ε α : Type) := Prog (storeSig V) ε α

namespace Store

variable {V ε : Type}

/-- `Store::get_object`. -/
def getObject (oid : ObjectId) : StoreProg V ε (Option ObjectRecord) := Prog.op (StoreOp.getObject oid) Prog.ret

/-- `Store::put_object`. -/
def putObject (oid : ObjectId) (record : ObjectRecord) (durability : Durability) : StoreProg V ε Unit :=
  Prog.op (StoreOp.putObject oid record durability) Prog.ret

/-- `Store::object_exists`. -/
def objectExists (oid : ObjectId) : StoreProg V ε Bool := do
  let record ← getObject oid
  pure record.isSome

/-- `Store::get_ref`. -/
def getRef (name : String) : StoreProg V ε (Option RefTarget) := Prog.op (StoreOp.getRef name) Prog.ret

/-- `Store::list_refs` with no name to start with: every ref, in name order. -/
def listRefs : StoreProg V ε (List (String × RefTarget)) := Prog.op StoreOp.listRefs Prog.ret

/-- `Store::flush`. -/
def flush : StoreProg V ε Unit := Prog.op StoreOp.flush Prog.ret

/-- `Db::begin`. -/
def beginTxn : StoreProg V ε RefTxn := Prog.op StoreOp.beginTxn Prog.ret

/-- `txn.commit`: whether it committed. -/
def commitTxn (txn : RefTxn) : StoreProg V ε Bool := Prog.op (StoreOp.commitTxn txn) Prog.ret

/-- `Store::get_commit_graph`. -/
def getCommitGraph (codec : GraphCodec) (oid : ObjectId) :
    StoreProg codec.Val StoreError (Option CommitGraphRecord) := do
  let value ← (Prog.op (StoreOp.getCommitGraph oid) Prog.ret : StoreProg codec.Val StoreError (Option codec.Val))
  match value with
  | none => pure none
  | some value =>
    match codec.decode value oid.kind with
    | .ok record => pure (some record)
    | .error e => .fail (.value e)

/-- `Store::put_commit_graph`. -/
def putCommitGraph (codec : GraphCodec) (oid : ObjectId) (record : CommitGraphRecord)
    (durability : Durability) : StoreProg codec.Val ε Unit :=
  Prog.op (StoreOp.putCommitGraph oid (codec.encode record) durability) Prog.ret

end Store

namespace BlobStore

variable {V ε : Type}

/-- `BlobStore::get`; `none` is the object store's not-found error. -/
def get (oid : ObjectId) : StoreProg V ε (Option Bytes) := Prog.op (StoreOp.blobGet oid) Prog.ret

/-- `BlobStore::put`. -/
def put (oid : ObjectId) (bytes : Bytes) : StoreProg V ε Unit := Prog.op (StoreOp.blobPut oid bytes) Prog.ret

end BlobStore

/-! ## Ref updates -/

/-- One requested ref mutation. -/
structure RefUpdate where
  name : String
  expectedOld : Option ObjectId
  new : Option ObjectId
  deriving DecidableEq, Repr

/-- Whether a ref update was applied, or why it was not. -/
inductive RefOutcome
  | updated
  | rejected (reason : String)
  deriving DecidableEq, Repr

/-- One command's outcome. -/
structure RefUpdateResult where
  name : String
  outcome : RefOutcome
  deriving DecidableEq, Repr

def REASON_NON_FAST_FORWARD : String := "non-fast-forward"
def REASON_SYMBOLIC : String := "cannot update symbolic ref"
def REASON_CONFLICT : String := "transaction conflict"

/-- One try plus a single retry. -/
def UPDATE_REFS_ATTEMPTS : Nat := 2

/-- The compare-and-swap of one command against the ref's `current` value. -/
def RefTxn.compareAndSwap (txn : RefTxn) (update : RefUpdate) (current : Option ObjectId) :
    RefTxn × RefUpdateResult :=
  if current ≠ update.expectedOld then (txn, ⟨update.name, .rejected REASON_NON_FAST_FORWARD⟩)
  else (txn.write update.name (update.new.map .direct), ⟨update.name, .updated⟩)

/-- One command of `update_refs` inside a transaction. -/
def RefTxn.update (txn : RefTxn) (update : RefUpdate) : RefTxn × RefUpdateResult :=
  match txn.get update.name with
  | none => (txn.read update.name).compareAndSwap update none
  | some (.direct oid) => (txn.read update.name).compareAndSwap update (some oid)
  | some (.reference _) => (txn.read update.name, ⟨update.name, .rejected REASON_SYMBOLIC⟩)

/-- The commands of `update_refs` in order, each seeing the writes of those
before it. -/
def RefTxn.updateAll (txn : RefTxn) : List RefUpdate → RefTxn × List RefUpdateResult
  | [] => (txn, [])
  | update :: updates =>
    let (txn, result) := txn.update update
    let (txn, results) := txn.updateAll updates
    (txn, result :: results)

/-- `Store::update_refs` with `attempts` left: a commit conflict is retried,
and reported for every command once the attempts are spent. -/
def updateRefsFrom {V ε : Type} (updates : List RefUpdate) : Nat → StoreProg V ε (List RefUpdateResult)
  | 0 => pure (updates.map fun u => ⟨u.name, .rejected REASON_CONFLICT⟩)
  | attempts + 1 => do
    let txn ← Store.beginTxn
    let (txn, results) := txn.updateAll updates
    let committed ← Store.commitTxn txn
    if committed then pure results else updateRefsFrom updates attempts

/-- `Store::update_refs`. -/
def updateRefs {V ε : Type} (updates : List RefUpdate) : StoreProg V ε (List RefUpdateResult) :=
  updateRefsFrom updates UPDATE_REFS_ATTEMPTS

end Miscreant
