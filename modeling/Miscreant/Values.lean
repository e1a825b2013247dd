/-
Object ids and the values of the store's segments
(`src/storage/values.rs`): object records, ref targets, and the
commit-graph record with its byte codec.

The codec of the commit-graph segment is also packaged as a `GraphCodec`, so
that the code above it can be read at the level of records (any lossless
codec) as well as at the level of the bytes the store really holds
(`GraphCodec.bytes`).
-/
import Mathlib.Data.List.Lex
import Mathlib.Data.Prod.Lex
import Mathlib.Data.Set.Finite.List
import Mathlib.Order.Lattice
import Mathlib.Tactic.Common

namespace Miscreant

/-- A byte string. -/
abbrev Bytes := List UInt8

/-- `gix_hash::Kind`: the hash an object id was computed with. -/
inductive HashKind
  | sha1
  | sha256
  deriving DecidableEq, Repr

/-- `gix_hash::Kind::len_in_bytes`. -/
def HashKind.lenInBytes : HashKind → Nat
  | .sha1 => 20
  | .sha256 => 32

/-- `gix_hash::ObjectId`: a hash of the width of its kind. -/
structure ObjectId where
  kind : HashKind
  bytes : Bytes
  len : bytes.length = kind.lenInBytes
  deriving Repr

/-- What `ObjectId`'s derived order compares: the variant, then the bytes. -/
def ObjectId.ordKey (id : ObjectId) : Lex (Nat × List Nat) :=
  toLex (id.kind.lenInBytes, id.bytes.map UInt8.toNat)

theorem ObjectId.ordKey_injective : Function.Injective ObjectId.ordKey := by
  rintro ⟨k, b, hb⟩ ⟨k', b', hb'⟩ h
  simp only [ordKey, EmbeddingLike.apply_eq_iff_eq, Prod.mk.injEq] at h
  obtain ⟨hk, hbytes⟩ := h
  have hk : k = k' := by cases k <;> cases k' <;> simp_all [HashKind.lenInBytes]
  have hinj : Function.Injective UInt8.toNat := fun x y => UInt8.toNat_inj.1
  have hbytes : b = b' := List.map_injective_iff.2 hinj hbytes
  subst hk hbytes
  rfl

instance : LinearOrder ObjectId := LinearOrder.lift' ObjectId.ordKey ObjectId.ordKey_injective

instance : LawfulBEq ObjectId := inferInstance

theorem ObjectId.bytes_injective : Function.Injective ObjectId.bytes := by
  rintro ⟨k, b, hb⟩ ⟨k', b', hb'⟩ (h : b = b')
  subst h
  have hk : k = k' := by cases k <;> cases k' <;> simp_all [HashKind.lenInBytes]
  subst hk
  rfl

/-- An id has one of two fixed widths, so there are finitely many: every
walk over ids that never repeats one ends. -/
instance : Finite ObjectId := by
  have : Finite UInt8 := Finite.of_injective UInt8.toFin fun _ _ => UInt8.toFin_inj.1
  have : Finite {b : Bytes | b.length ≤ 32} := (List.finite_length_le UInt8 32).to_subtype
  have hlen : ∀ id : ObjectId, id.bytes.length ≤ 32 := by
    rintro ⟨k, b, hb⟩
    cases k <;> simp_all [HashKind.lenInBytes]
  exact Finite.of_injective (fun id : ObjectId => (⟨id.bytes, hlen id⟩ : {b : Bytes | b.length ≤ 32}))
    fun x y h => ObjectId.bytes_injective (Subtype.mk.inj h)

/-- `ObjectId::try_from`: a slice of 20 or 32 bytes. -/
def ObjectId.tryFrom (bytes : Bytes) : Option ObjectId :=
  if h : bytes.length = HashKind.sha1.lenInBytes then some ⟨.sha1, bytes, h⟩
  else if h : bytes.length = HashKind.sha256.lenInBytes then some ⟨.sha256, bytes, h⟩
  else none

/-- `gix_object::Kind`: what an object is. -/
inductive Kind
  | tree
  | blob
  | commit
  | tag
  deriving DecidableEq, Repr

/-- Why a stored value could not be decoded. -/
inductive ValueError
  | empty
  | unknownTag (tag : UInt8)
  | truncated
  | trailingBytes
  | invalidUtf8
  | invalidObjectId
  deriving DecidableEq, Repr

/-! ## Object records -/

/-- An object-segment value: a git object's storage record. Every variant
carries the size of the object's content; all but the pointer also the zlib
stream of that content. -/
inductive ObjectRecord
  | blobInline (uncompressedLen : Nat) (zlib : Bytes)
  | blobPointer (size : Nat)
  | tree (uncompressedLen : Nat) (zlib : Bytes)
  | commit (uncompressedLen : Nat) (zlib : Bytes)
  | tag (uncompressedLen : Nat) (zlib : Bytes)
  deriving DecidableEq, Repr

/-- `ObjectRecord::kind`. -/
def ObjectRecord.kind : ObjectRecord → Kind
  | .blobInline _ _ | .blobPointer _ => .blob
  | .tree _ _ => .tree
  | .commit _ _ => .commit
  | .tag _ _ => .tag

/-- `ObjectRecord::size`. -/
def ObjectRecord.size : ObjectRecord → Nat
  | .blobPointer size => size
  | .blobInline uncompressedLen _ | .tree uncompressedLen _ | .commit uncompressedLen _
  | .tag uncompressedLen _ => uncompressedLen

/-! ## Ref targets -/

/-- A ref-segment value: an object id, or another ref by name. -/
inductive RefTarget
  | direct (oid : ObjectId)
  | reference (name : String)
  deriving DecidableEq, Repr

/-! ## Commit-graph records -/

/-- A commit-graph-segment value: derived ancestry metadata for one commit. -/
structure CommitGraphRecord where
  /-- `1 + max(parent generations)`, or `1` for a root commit. -/
  generation : UInt32
  rootTree : ObjectId
  parents : List ObjectId
  deriving DecidableEq, Repr

/-- `u32::to_be_bytes`. -/
def u32ToBeBytes (n : UInt32) : Bytes :=
  [24, 16, 8, 0].map fun shift => UInt8.ofNat (n.toNat / 2 ^ shift)

/-- `read_u32_be`, of at least four bytes. -/
def readU32Be (bytes : Bytes) : UInt32 :=
  UInt32.ofNat ((bytes.take 4).foldl (fun n b => n * 256 + b.toNat) 0)

namespace CommitGraphRecord

/-- `CommitGraphRecord::encode`: `generation | root_tree | parent_count |
parents`, the count being the low byte of the number of parents. -/
def encode (r : CommitGraphRecord) : Bytes :=
  u32ToBeBytes r.generation ++ r.rootTree.bytes ++ [UInt8.ofNat r.parents.length] ++
    r.parents.flatMap (·.bytes)

/-- The parents loop of `decode`: `count` ids of `width` bytes each. -/
def decodeParents (width : Nat) : Nat → Bytes → Except ValueError (List ObjectId)
  | 0, _ => .ok []
  | count + 1, bytes =>
    match ObjectId.tryFrom (bytes.take width) with
    | none => .error .invalidObjectId
    | some oid =>
      match decodeParents width count (bytes.drop width) with
      | .error e => .error e
      | .ok rest => .ok (oid :: rest)

/-- `CommitGraphRecord::decode`. -/
def decode (bytes : Bytes) (hashKind : HashKind) : Except ValueError CommitGraphRecord :=
  let width := hashKind.lenInBytes
  let headerLen := 4 + width + 1
  if bytes.length < headerLen then .error .truncated
  else
    match ObjectId.tryFrom ((bytes.drop 4).take width) with
    | none => .error .invalidObjectId
    | some rootTree =>
      let parentCount := (bytes.getD (4 + width) 0).toNat
      let expectedLen := headerLen + parentCount * width
      if bytes.length < expectedLen then .error .truncated
      else if bytes.length > expectedLen then .error .trailingBytes
      else
        match decodeParents width parentCount (bytes.drop headerLen) with
        | .error e => .error e
        | .ok parents => .ok { generation := readU32Be bytes, rootTree, parents }

end CommitGraphRecord

/-- How commit-graph records are held by the store. -/
structure GraphCodec where
  Val : Type
  encode : CommitGraphRecord → Val
  decode : Val → HashKind → Except ValueError CommitGraphRecord

/-- A record written under an id of hash kind `k` is read back as it was. -/
def GraphCodec.Faithful (codec : GraphCodec) (k : HashKind) (r : CommitGraphRecord) : Prop :=
  codec.decode (codec.encode r) k = .ok r

/-- The codec of the store: the bytes of `values.rs`. -/
def GraphCodec.bytes : GraphCodec where
  Val := Bytes
  encode := CommitGraphRecord.encode
  decode := CommitGraphRecord.decode

/-- Records held as they are: the store seen at the level of records. -/
def GraphCodec.records : GraphCodec where
  Val := CommitGraphRecord
  encode := id
  decode r _ := .ok r

end Miscreant
