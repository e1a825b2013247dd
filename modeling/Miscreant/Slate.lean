/-
The store all repositories share (`src/storage/store.rs`,
`src/storage/blobs.rs`, `src/storage/objectdb.rs`), at the level of the bytes
it holds: one ordered key-value map with optimistic transactions, and the
object store of offloaded blobs.

`Miscreant.Store` is one repository's part of it with the values decoded;
here every key is built and every value decoded as the code does it, and
each `get`, `put`, `begin` and `commit` is an operation of its own. Faults of
SlateDB or of the object store are not modelled.
-/
import Miscreant.Codec
import Miscreant.ObjectDb
import Miscreant.Lib.Txn
import Mathlib.Data.List.Lex

namespace Miscreant

open Lib

/-- Bytes in their own order, so that keys are in the order of their bytes. -/
instance instLinearOrderUInt8 : LinearOrder UInt8 where
  le_refl := UInt8.le_refl
  le_trans _ _ _ := UInt8.le_trans
  lt_iff_le_not_ge a b := by
    rw [UInt8.lt_iff_toNat_lt, UInt8.le_iff_toNat_le, UInt8.le_iff_toNat_le]
    omega
  le_antisymm _ _ := UInt8.le_antisymm
  le_total := UInt8.le_total
  toDecidableLE := inferInstance
  toDecidableEq := inferInstance
  toDecidableLT := inferInstance

/-- The key-value map, and the object store by path. -/
structure Slate where
  kv : Kv Bytes Bytes
  blobs : String → Option Bytes

/-- A store nothing has been written to. -/
def Slate.empty : Slate := ⟨.empty, fun _ => none⟩

abbrev SlateTxn := Txn Bytes Bytes

/-- The operations of the key-value map and of the object store. -/
inductive SlateOp
  | get (key : Bytes)
  | put (key value : Bytes) (durability : Durability)
  | delete (key : Bytes)
  | scan (start : Bytes)
  | begin
  | txnGet (txn : SlateTxn) (key : Bytes)
  | txnPut (txn : SlateTxn) (key : Bytes) (value : Option Bytes)
  | commit (txn : SlateTxn)
  | blobGet (path : String)
  | blobPut (path : String) (bytes : Bytes)

/-- What each operation answers. -/
def SlateOp.Ans : SlateOp → Type
  | get _ => Option Bytes
  | put _ _ _ => Unit
  | delete _ => Unit
  | scan _ => List (Bytes × Bytes)
  | begin => SlateTxn
  | txnGet _ _ => Option Bytes × SlateTxn
  | txnPut _ _ _ => SlateTxn
  | commit _ => Bool
  | blobGet _ => Option Bytes
  | blobPut _ _ => Unit

def slateSig : Sig := ⟨SlateOp, SlateOp.Ans⟩

/-- An operation run at once. A single write is a commit of its own. -/
def Slate.handler : Handler slateSig Slate
  | .get key, s => (s.kv.data.get key, s)
  | .put key value _, s => ((), { s with kv := s.kv.commit [(key, some value)] })
  | .delete key, s => ((), { s with kv := s.kv.commit [(key, none)] })
  | .scan start, s => (s.kv.data.entries.filter fun e => start.isPrefixOf e.1, s)
  | .begin, s => (s.kv.begin, s)
  | .txnGet txn key, s => ((txn.get key, txn.read key), s)
  | .txnPut txn key value, s => (txn.write key value, s)
  | .commit txn, s =>
    if s.kv.conflicts txn then (false, s) else (true, { s with kv := s.kv.commit txn.writes })
  | .blobGet path, s => (s.blobs path, s)
  | .blobPut path bytes, s => ((), { s with blobs := Function.update s.blobs path (some bytes) })

theorem Slate.commit_conflict {s : Slate} {txn : SlateTxn} (h : s.kv.conflicts txn = true) :
    Slate.handler (.commit txn) s = (false, s) := if_pos h

theorem Slate.commit_ok {s : Slate} {txn : SlateTxn} (h : s.kv.conflicts txn = false) :
    Slate.handler (.commit txn) s = (true, { s with kv := s.kv.commit txn.writes }) :=
  if_neg (Bool.eq_false_iff.1 h)

abbrev SlateProg (ε α : Type) := Prog slateSig ε α

/-- `StoreError`, of what the modelled operations fail with. -/
inductive SlateError
  | key (e : KeyError)
  | value (e : ValueError)
  | unexpectedMeta (repo : RepoId) (key : String)
  | missingMeta (repo : RepoId) (key : String)
  | unsupportedObjectFormat (format : String)
  | createContention
  deriving DecidableEq, Repr

/-- `RepoMeta`. -/
structure RepoMeta where
  id : RepoId
  objectFormat : HashKind
  defaultBranch : String
  deriving DecidableEq, Repr

def META_REPO_PREFIX : String := "repo:"
def META_NEXT_REPO_ID : String := "next-repo-id"
def META_OBJECT_FORMAT : String := "object-format"
def META_DEFAULT_BRANCH : String := "default-branch"
def META_SCHEMA_VERSION : String := "schema-version"
def OBJECT_FORMAT_SHA1 : String := "sha1"
def DEFAULT_BRANCH : String := "refs/heads/main"
def SCHEMA_VERSION : UInt32 := 2
def FIRST_REPO_ID : UInt64 := 1

/-- Attempts for the repo-creation transaction. -/
def CREATE_ATTEMPTS : Nat := 32

namespace Slate

variable {ε : Type}

def get (key : Bytes) : SlateProg ε (Option Bytes) := Prog.op (SlateOp.get key) Prog.ret

def put (key value : Bytes) (durability : Durability) : SlateProg ε Unit :=
  Prog.op (SlateOp.put key value durability) Prog.ret

def delete (key : Bytes) : SlateProg ε Unit := Prog.op (SlateOp.delete key) Prog.ret

def scan (start : Bytes) : SlateProg ε (List (Bytes × Bytes)) := Prog.op (SlateOp.scan start) Prog.ret

def begin : SlateProg ε SlateTxn := Prog.op SlateOp.begin Prog.ret

def txnGet (txn : SlateTxn) (key : Bytes) : SlateProg ε (Option Bytes × SlateTxn) :=
  Prog.op (SlateOp.txnGet txn key) Prog.ret

def txnPut (txn : SlateTxn) (key : Bytes) (value : Option Bytes) : SlateProg ε SlateTxn :=
  Prog.op (SlateOp.txnPut txn key value) Prog.ret

/-- Whether the transaction committed. -/
def commit (txn : SlateTxn) : SlateProg ε Bool := Prog.op (SlateOp.commit txn) Prog.ret

theorem run_commit_conflict {s : Slate} {txn : SlateTxn} (h : s.kv.conflicts txn = true) :
    (commit txn : SlateProg ε Bool).run handler s = some (.ok false, s) := by
  show some (Except.ok (handler (.commit txn) s).1, (handler (.commit txn) s).2) = _
  rw [commit_conflict h]
  rfl

theorem run_commit_ok {s : Slate} {txn : SlateTxn} (h : s.kv.conflicts txn = false) :
    (commit txn : SlateProg ε Bool).run handler s = some (.ok true, { s with kv := s.kv.commit txn.writes }) := by
  show some (Except.ok (handler (.commit txn) s).1, (handler (.commit txn) s).2) = _
  rw [commit_ok h]
  rfl

/-! ## Typed operations -/

/-- The value at a key, decoded. -/
def getDecoded {α : Type} (key : Bytes) (decode : Bytes → Except ValueError α) :
    SlateProg SlateError (Option α) := do
  match ← get key with
  | some bytes => Prog.ofExcept ((decode bytes).map some |>.mapError .value)
  | none => pure none

/-- `Store::get_object`. -/
def getObject (repo : RepoId) (oid : ObjectId) : SlateProg SlateError (Option ObjectRecord) :=
  getDecoded (objectKey repo oid) ObjectRecord.decode

/-- `Store::put_object`. -/
def putObject (repo : RepoId) (oid : ObjectId) (record : ObjectRecord) (durability : Durability) :
    SlateProg ε Unit := put (objectKey repo oid) record.encode durability

/-- `Store::object_exists`. -/
def objectExists (repo : RepoId) (oid : ObjectId) : SlateProg ε Bool := do
  let bytes ← get (objectKey repo oid)
  pure bytes.isSome

/-- `Store::get_ref`. -/
def getRef (repo : RepoId) (name : String) : SlateProg SlateError (Option RefTarget) :=
  getDecoded (refKey repo name) RefTarget.decode

/-- `Store::put_ref`. -/
def putRef (repo : RepoId) (name : String) (target : RefTarget) : SlateProg ε Unit :=
  put (refKey repo name) target.encode .durable

/-- `Store::delete_ref`. -/
def deleteRef (repo : RepoId) (name : String) : SlateProg ε Unit := delete (refKey repo name)

/-- One entry of a ref scan. -/
def decodeRef (entry : Bytes × Bytes) : Except SlateError (String × RefTarget) := do
  let (_, name) ← (decodeRefKey entry.1).mapError .key
  let target ← (RefTarget.decode entry.2).mapError .value
  pure (name, target)

/-- The loop of `list_refs`. -/
def decodeRefs : List (Bytes × Bytes) → Except SlateError (List (String × RefTarget))
  | [] => .ok []
  | entry :: entries => do
    let ref ← decodeRef entry
    let refs ← decodeRefs entries
    pure (ref :: refs)

/-- `Store::list_refs`. -/
def listRefs (repo : RepoId) (start : Option String) : SlateProg SlateError (List (String × RefTarget)) := do
  let entries ← scan (match start with
    | some p => refPrefix repo p
    | none => segmentPrefix repo .ref)
  Prog.ofExcept (decodeRefs entries)

/-- `Store::get_commit_graph`. -/
def getCommitGraph (repo : RepoId) (oid : ObjectId) : SlateProg SlateError (Option CommitGraphRecord) :=
  getDecoded (commitKey repo oid) fun bytes => CommitGraphRecord.decode bytes oid.kind

/-- `Store::put_commit_graph`. -/
def putCommitGraph (repo : RepoId) (oid : ObjectId) (record : CommitGraphRecord) (durability : Durability) :
    SlateProg ε Unit := put (commitKey repo oid) record.encode durability

/-- `Store::get_meta`. -/
def getMeta (repo : RepoId) (name : String) : SlateProg SlateError (Option MetaValue) :=
  getDecoded (metaKey repo name) MetaValue.decode

/-- `Store::put_meta`. -/
def putMeta (repo : RepoId) (name : String) (value : MetaValue) : SlateProg ε Unit :=
  put (metaKey repo name) value.encode .durable

/-! ## Ref updates -/

/-- The compare-and-swap of one command against the ref's `current` value. -/
def compareAndSwap (repo : RepoId) (txn : SlateTxn) (update : RefUpdate) (current : Option ObjectId) :
    SlateProg SlateError (SlateTxn × RefUpdateResult) :=
  if current ≠ update.expectedOld then pure (txn, ⟨update.name, .rejected REASON_NON_FAST_FORWARD⟩)
  else do
    let txn ← txnPut txn (refKey repo update.name) (update.new.map fun oid => (RefTarget.direct oid).encode)
    pure (txn, ⟨update.name, .updated⟩)

/-- One command of `update_refs`, given the value of its ref. -/
def updateFound (repo : RepoId) (txn : SlateTxn) (update : RefUpdate) :
    Option Bytes → SlateProg SlateError (SlateTxn × RefUpdateResult)
  | none => compareAndSwap repo txn update none
  | some bytes =>
    match RefTarget.decode bytes with
    | .error e => .fail (.value e)
    | .ok (.direct oid) => compareAndSwap repo txn update (some oid)
    | .ok (.reference _) => pure (txn, ⟨update.name, .rejected REASON_SYMBOLIC⟩)

/-- One command of `update_refs`. -/
def updateRef (repo : RepoId) (txn : SlateTxn) (update : RefUpdate) :
    SlateProg SlateError (SlateTxn × RefUpdateResult) := do
  let (value, txn) ← txnGet txn (refKey repo update.name)
  updateFound repo txn update value

/-- The commands of `update_refs` in order, after the results there are. -/
def updateAll (repo : RepoId) (txn : SlateTxn) :
    List RefUpdate → List RefUpdateResult → SlateProg SlateError (SlateTxn × List RefUpdateResult)
  | [], results => pure (txn, results)
  | update :: updates, results => do
    let (txn, result) ← updateRef repo txn update
    updateAll repo txn updates (results ++ [result])

/-- `Store::update_refs` with `attempts` left. -/
def updateRefsFrom (repo : RepoId) (updates : List RefUpdate) : Nat → SlateProg SlateError (List RefUpdateResult)
  | 0 => pure (updates.map fun u => ⟨u.name, .rejected REASON_CONFLICT⟩)
  | attempts + 1 => do
    let txn ← begin
    let (txn, results) ← updateAll repo txn updates []
    let committed ← commit txn
    if committed then pure results else updateRefsFrom repo updates attempts

/-- `Store::update_refs`. -/
def updateRefs (repo : RepoId) (updates : List RefUpdate) : SlateProg SlateError (List RefUpdateResult) :=
  updateRefsFrom repo updates UPDATE_REFS_ATTEMPTS

/-! ## The repository registry -/

/-- `raw_u64`. -/
def rawU64 : MetaValue → Option UInt64
  | .raw bytes => if bytes.length = 8 then some (readU64Be bytes) else none
  | _ => none

/-- `decode_repo_id`. -/
def decodeRepoId (repoKey : String) (value : MetaValue) : Except SlateError RepoId :=
  match rawU64 value with
  | some id => .ok ⟨id⟩
  | none => .error (.unexpectedMeta .GLOBAL repoKey)

/-- `decode_counter`. -/
def decodeCounter (value : MetaValue) : Except SlateError UInt64 :=
  match rawU64 value with
  | some n => .ok n
  | none => .error (.unexpectedMeta .GLOBAL META_NEXT_REPO_ID)

/-- `parse_object_format`. -/
def parseObjectFormat (value : String) : Except SlateError HashKind :=
  if value = "sha1" then .ok .sha1
  else if value = "sha256" then .ok .sha256
  else .error (.unsupportedObjectFormat value)

/-- The id a mapping's value gives. -/
def repoIdOf (repoKey : String) (bytes : Bytes) : Except SlateError RepoId := do
  let value ← (MetaValue.decode bytes).mapError .value
  decodeRepoId repoKey value

/-- The id the counter's value gives. -/
def nextIdOf : Option Bytes → Except SlateError UInt64
  | some bytes => do
    let value ← (MetaValue.decode bytes).mapError .value
    decodeCounter value
  | none => .ok FIRST_REPO_ID

/-- `Store::read_repo_id`. -/
def readRepoId (name : String) : SlateProg SlateError (Option RepoId) := do
  let repoKey := META_REPO_PREFIX ++ name
  match ← get (metaKey .GLOBAL repoKey) with
  | some bytes => Prog.ofExcept ((repoIdOf repoKey bytes).map some)
  | none => pure none

/-- The object format a repository's metadata gives. -/
def objectFormatOf (id : RepoId) : Option MetaValue → Except SlateError HashKind
  | some (.utf8 s) => parseObjectFormat s
  | some _ => .error (.unexpectedMeta id META_OBJECT_FORMAT)
  | none => .error (.missingMeta id META_OBJECT_FORMAT)

/-- The default branch it gives. -/
def defaultBranchOf (id : RepoId) : Option MetaValue → Except SlateError String
  | some (.utf8 s) => .ok s
  | some _ => .error (.unexpectedMeta id META_DEFAULT_BRANCH)
  | none => .ok DEFAULT_BRANCH

/-- `Store::read_repo_meta`. -/
def readRepoMeta (id : RepoId) : SlateProg SlateError RepoMeta := do
  let value ← getMeta id META_OBJECT_FORMAT
  let objectFormat ← Prog.ofExcept (objectFormatOf id value)
  let value ← getMeta id META_DEFAULT_BRANCH
  let defaultBranch ← Prog.ofExcept (defaultBranchOf id value)
  pure ⟨id, objectFormat, defaultBranch⟩

/-- `Store::lookup_repo`. -/
def lookupRepo (name : String) : SlateProg SlateError (Option RepoMeta) := do
  match ← readRepoId name with
  | some id =>
    let info ← readRepoMeta id
    pure (some info)
  | none => pure none

/-- `u64::saturating_add(1)`. -/
def saturatingSucc (n : UInt64) : UInt64 := if n.toNat + 1 < 2 ^ 64 then n + 1 else n

/-- The defaults of a new repository. -/
def defaultWrites (id : RepoId) : List (Bytes × Bytes) :=
  [(metaKey id META_OBJECT_FORMAT, (MetaValue.utf8 OBJECT_FORMAT_SHA1).encode),
    (metaKey id META_DEFAULT_BRANCH, (MetaValue.utf8 DEFAULT_BRANCH).encode),
    (metaKey id META_SCHEMA_VERSION, (MetaValue.u32 SCHEMA_VERSION).encode),
    (refKey id HEAD_REF, (RefTarget.reference DEFAULT_BRANCH).encode)]

/-- What `create_repo` writes for the repository it gives the id `nextId`. -/
def creationWrites (name : String) (nextId : UInt64) : List (Bytes × Bytes) :=
  (metaKey .GLOBAL META_NEXT_REPO_ID, (MetaValue.raw (u64ToBeBytes (saturatingSucc nextId))).encode) ::
    (metaKey .GLOBAL (META_REPO_PREFIX ++ name), (MetaValue.raw (u64ToBeBytes nextId)).encode) ::
    defaultWrites ⟨nextId⟩

/-- `txn.put` of each in order. -/
def putAll (txn : SlateTxn) : List (Bytes × Bytes) → SlateProg SlateError SlateTxn
  | [] => pure txn
  | (key, value) :: writes => do
    let txn ← txnPut txn key (some value)
    putAll txn writes

/-- An attempt of `create_repo` that found no mapping. -/
def createNew (name : String) (txn : SlateTxn) (retry : SlateProg SlateError RepoMeta) :
    SlateProg SlateError RepoMeta := do
  let (value, txn) ← txnGet txn (metaKey .GLOBAL META_NEXT_REPO_ID)
  let nextId ← Prog.ofExcept (nextIdOf value)
  let txn ← putAll txn (creationWrites name nextId)
  let committed ← commit txn
  if committed then pure ⟨⟨nextId⟩, .sha1, DEFAULT_BRANCH⟩ else retry

/-- An attempt of `create_repo`, given the value of the name's mapping. -/
def createFound (name : String) (txn : SlateTxn) (retry : SlateProg SlateError RepoMeta) :
    Option Bytes → SlateProg SlateError RepoMeta
  | some bytes => do
    let id ← Prog.ofExcept (repoIdOf (META_REPO_PREFIX ++ name) bytes)
    readRepoMeta id
  | none => createNew name txn retry

/-- `Store::create_repo` with `attempts` left. -/
def createRepoFrom (name : String) : Nat → SlateProg SlateError RepoMeta
  | 0 => .fail .createContention
  | attempts + 1 => do
    let txn ← begin
    let (value, txn) ← txnGet txn (metaKey .GLOBAL (META_REPO_PREFIX ++ name))
    createFound name txn (createRepoFrom name attempts) value

/-- `Store::create_repo`. -/
def createRepo (name : String) : SlateProg SlateError RepoMeta := createRepoFrom name CREATE_ATTEMPTS

/-- `Store::get_or_create_repo`. -/
def getOrCreateRepo (name : String) : SlateProg SlateError RepoMeta := do
  match ← lookupRepo name with
  | some info => pure info
  | none => createRepo name

/-! ## The object database -/

/-- Prefix under the root object store where offloaded blob content lives. -/
def BLOBS_PREFIX : String := "blobs"

/-- `blob_path`: `blobs/<xx>/<rest>`. -/
def blobPath (oid : ObjectId) : String :=
  let hex := oid.toHex.toList
  BLOBS_PREFIX ++ "/" ++ String.ofList (hex.take 2) ++ "/" ++ String.ofList (hex.drop 2)

/-- `BlobStore::get`; `none` is the object store's not-found error. -/
def blobGet (oid : ObjectId) : SlateProg ε (Option Bytes) := Prog.op (SlateOp.blobGet (blobPath oid)) Prog.ret

/-- `BlobStore::put`. -/
def blobPut (oid : ObjectId) (bytes : Bytes) : SlateProg ε Unit :=
  Prog.op (SlateOp.blobPut (blobPath oid) bytes) Prog.ret

/-- `ObjectDbError`. -/
inductive ObjectError
  | store (e : SlateError)
  /-- An offloaded blob's content could not be fetched. -/
  | blob
  | corruptZlib (oid : ObjectId)
  deriving DecidableEq, Repr

/-- `ObjectDb`: an instance over the shared store, with its own configuration. -/
structure ObjectDb where
  inlineThreshold : Nat
  compressionLevel : Nat

namespace ObjectDb

variable (zlib : Zlib) (db : ObjectDb) (repo : RepoId) (oid : ObjectId)

/-- `ObjectDb::compress`. -/
def compress (content : Bytes) : Bytes := zlib.deflate content db.compressionLevel

/-- The record `put` writes, offloading a blob over the inline threshold
first. -/
def recordFor (kind : Kind) (body : Bytes) : SlateProg ε ObjectRecord :=
  match kind with
  | .blob =>
    if db.inlineThreshold < body.length then do
      blobPut oid (db.compress zlib body)
      pure (.blobPointer body.length)
    else pure (.blobInline body.length (db.compress zlib body))
  | .tree => pure (.tree body.length (db.compress zlib body))
  | .commit => pure (.commit body.length (db.compress zlib body))
  | .tag => pure (.tag body.length (db.compress zlib body))

/-- `ObjectDb::put`. -/
def put (kind : Kind) (body : Bytes) (durability : Durability) : SlateProg ε Unit := do
  let known ← objectExists repo oid
  if known then pure ()
  else do
    let record ← db.recordFor zlib oid kind body
    putObject repo oid record durability

/-- The uncompressed length and zlib stream behind a record. -/
def stream : ObjectRecord → SlateProg ObjectError (Nat × Bytes)
  | .blobPointer size => do
    match ← blobGet oid with
    | some bytes => pure (size, bytes)
    | none => .fail .blob
  | .blobInline uncompressedLen bytes | .tree uncompressedLen bytes | .commit uncompressedLen bytes
  | .tag uncompressedLen bytes => pure (uncompressedLen, bytes)

/-- `ObjectDb::get`. -/
def get : SlateProg ObjectError (Option (Kind × Bytes)) := do
  match ← (getObject repo oid).mapErr .store with
  | none => pure none
  | some record =>
    let (uncompressedLen, bytes) ← stream oid record
    match zlib.inflate bytes uncompressedLen with
    | some content => pure (some (record.kind, content))
    | none => .fail (.corruptZlib oid)

/-- `ObjectDb::read_compressed`. -/
def readCompressed : SlateProg ObjectError (Option (Kind × Nat × Bytes)) := do
  match ← (getObject repo oid).mapErr .store with
  | none => pure none
  | some record =>
    let (uncompressedLen, bytes) ← stream oid record
    pure (some (record.kind, uncompressedLen, bytes))

/-- `ObjectDb::size`. -/
def size : SlateProg ObjectError (Option (Kind × Nat)) := do
  let record ← (getObject repo oid).mapErr .store
  pure (record.map fun record => (record.kind, record.size))

/-- `ObjectDb::exists`. -/
def exists_ : SlateProg ε Bool := objectExists repo oid

end ObjectDb

end Slate

end Miscreant
