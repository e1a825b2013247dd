/-
Object content (`src/storage/objectdb.rs`): records and blob pointers in the
store, blob content over the inline threshold in the blob store, everything
deflated.

The code the server takes from other packages is a parameter (`Env`): gix's
object parsers, the zlib codec, and the configuration of the object
database. Of zlib only what its documentation promises is used: a deflated
stream inflates, at its content's length, to that content.
-/
import Miscreant.Store

namespace Miscreant

open Lib

/-! ## What comes from other packages -/

/-- `gix_object::CommitRef`: what the server reads of a commit. -/
structure CommitRef where
  tree : ObjectId
  parents : List ObjectId
  deriving DecidableEq, Repr

/-- `gix_object::TagRef`: what the server reads of a tag. -/
structure TagRef where
  target : ObjectId
  targetKind : Kind
  deriving DecidableEq, Repr

/-- `gix_object::tree::EntryKind`. -/
inductive EntryMode
  | tree
  | blob
  | blobExecutable
  | link
  | commit
  deriving DecidableEq, Repr

/-- An entry of a tree. A `commit` entry is a gitlink (submodule). -/
structure TreeEntryRef where
  mode : EntryMode
  filename : Bytes
  oid : ObjectId
  deriving DecidableEq, Repr

/-- gix's object parsers; `none` is a decode error. A tree is read entry by
entry, ending at the first that does not decode. The ids in an object are of
the hash kind it is parsed with. -/
structure Gix where
  commitFromBytes : Bytes → HashKind → Option CommitRef
  tagFromBytes : Bytes → HashKind → Option TagRef
  treeEntries : Bytes → HashKind → List (Option TreeEntryRef)
  commit_kind : ∀ b k c, commitFromBytes b k = some c → c.tree.kind = k ∧ ∀ p ∈ c.parents, p.kind = k

/-- The zlib codec of `src/storage/zlib.rs`, over `zlib_rs`. -/
structure Zlib where
  deflate : Bytes → Nat → Bytes
  inflate : Bytes → Nat → Option Bytes
  inflate_deflate : ∀ content level, inflate (deflate content level) content.length = some content

/-- The check of `inflate`: what does not come out at the recorded length is
not returned. -/
def Zlib.sized (zlib : Zlib) : Zlib where
  deflate := zlib.deflate
  inflate stream uncompressedLen :=
    (zlib.inflate stream uncompressedLen).filter fun content => content.length = uncompressedLen
  inflate_deflate content level := by simp [zlib.inflate_deflate]

theorem Zlib.length_of_sized {zlib : Zlib} {stream content : Bytes} {uncompressedLen : Nat}
    (h : zlib.sized.inflate stream uncompressedLen = some content) : content.length = uncompressedLen :=
  of_decide_eq_true (Option.filter_eq_some_iff.1 h).2

/-- What the git layer is given: the packages it uses, how the commit-graph
segment holds its records, and the object database's configuration. -/
structure Env where
  gix : Gix
  zlib : Zlib
  codec : GraphCodec
  inlineThreshold : Nat
  compressionLevel : Nat

/-- The state of a repository's store. -/
abbrev Env.Db (E : Env) := Miscreant.Db E.codec.Val

/-- A program over the store. -/
abbrev Env.Prog (E : Env) (ε α : Type) := StoreProg E.codec.Val ε α

/-- `p` run alone on the store. -/
abbrev Env.run (E : Env) {ε α : Type} (p : E.Prog ε α) (db : E.Db) : Option (Except ε α × E.Db) :=
  p.run Db.handler db

/-! ## The object database -/

/-- `ObjectDbError`. -/
inductive ObjectDbError
  | store (e : StoreError)
  /-- An offloaded blob's content could not be fetched. -/
  | blob
  | corruptZlib (oid : ObjectId)
  deriving DecidableEq, Repr

namespace ObjectDb

variable (E : Env) {ε : Type}

/-- `ObjectDb::compress`. -/
def compress (content : Bytes) : Bytes := E.zlib.deflate content E.compressionLevel

/-- The record `ObjectDb::put` writes, offloading a blob over the inline
threshold first. -/
def recordFor (oid : ObjectId) (kind : Kind) (body : Bytes) : E.Prog ε ObjectRecord :=
  match kind with
  | .blob =>
    if E.inlineThreshold < body.length then do
      BlobStore.put oid (compress E body)
      pure (.blobPointer body.length)
    else pure (.blobInline body.length (compress E body))
  | .tree => pure (.tree body.length (compress E body))
  | .commit => pure (.commit body.length (compress E body))
  | .tag => pure (.tag body.length (compress E body))

/-- `ObjectDb::put`: nothing to do when `oid` already has a record. -/
def put (oid : ObjectId) (kind : Kind) (body : Bytes) (durability : Durability) : E.Prog ε Unit := do
  let known ← Store.objectExists oid
  if known then pure ()
  else do
    let record ← recordFor E oid kind body
    Store.putObject oid record durability

/-- The uncompressed length and zlib stream behind a record. -/
def stream (oid : ObjectId) : ObjectRecord → E.Prog ObjectDbError (Nat × Bytes)
  | .blobPointer size => do
    match ← BlobStore.get oid with
    | some bytes => pure (size, bytes)
    | none => .fail .blob
  | .blobInline uncompressedLen zlib | .tree uncompressedLen zlib | .commit uncompressedLen zlib
  | .tag uncompressedLen zlib => pure (uncompressedLen, zlib)

/-- `ObjectDb::get`. -/
def get (oid : ObjectId) : E.Prog ObjectDbError (Option (Kind × Bytes)) := do
  match ← Store.getObject oid with
  | none => pure none
  | some record =>
    let (uncompressedLen, zlib) ← stream E oid record
    match E.zlib.inflate zlib uncompressedLen with
    | some content => pure (some (record.kind, content))
    | none => .fail (.corruptZlib oid)

/-- `ObjectDb::read_compressed`. -/
def readCompressed (oid : ObjectId) : E.Prog ObjectDbError (Option (Kind × Nat × Bytes)) := do
  match ← Store.getObject oid with
  | none => pure none
  | some record =>
    let (uncompressedLen, zlib) ← stream E oid record
    pure (some (record.kind, uncompressedLen, zlib))

/-- `ObjectDb::size`. -/
def size (oid : ObjectId) : E.Prog ε (Option (Kind × Nat)) := do
  let record ← Store.getObject oid
  pure (record.map fun r => (r.kind, r.size))

/-- `ObjectDb::exists`. -/
def «exists» (oid : ObjectId) : E.Prog ε Bool := Store.objectExists oid

end ObjectDb

end Miscreant
