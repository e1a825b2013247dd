/-
The byte codecs of the object, ref and metadata segments
(`src/storage/values.rs`): a tag byte, then a payload. What is encoded is
read back as it was, a record's lengths being 64-bit integers.
-/
import Miscreant.Keys

namespace Miscreant

/-! ## Object records -/

namespace ObjectRecord

/-- `encode_compressed`: `tag | uncompressed_len | zlib`. -/
def encodeCompressed (tag : UInt8) (uncompressedLen : Nat) (zlib : Bytes) : Bytes :=
  tag :: (u64ToBeBytes (UInt64.ofNat uncompressedLen) ++ zlib)

/-- `ObjectRecord::encode`. -/
def encode : ObjectRecord → Bytes
  | .blobInline uncompressedLen zlib => encodeCompressed 1 uncompressedLen zlib
  | .blobPointer size => 2 :: u64ToBeBytes (UInt64.ofNat size)
  | .tree uncompressedLen zlib => encodeCompressed 3 uncompressedLen zlib
  | .commit uncompressedLen zlib => encodeCompressed 4 uncompressedLen zlib
  | .tag uncompressedLen zlib => encodeCompressed 5 uncompressedLen zlib

/-- `decode_compressed`. -/
def decodeCompressed (rest : Bytes) : Except ValueError (Nat × Bytes) :=
  if rest.length < 8 then .error .truncated else .ok ((readU64Be rest).toNat, rest.drop 8)

/-- `ObjectRecord::decode`. -/
def decode : Bytes → Except ValueError ObjectRecord
  | [] => .error .empty
  | first :: rest =>
    if first = 1 then do
      let (uncompressedLen, zlib) ← decodeCompressed rest
      pure (.blobInline uncompressedLen zlib)
    else if first = 2 then
      if rest.length < 8 then .error .truncated
      else if rest.length = 8 then .ok (.blobPointer (readU64Be rest).toNat)
      else .error .trailingBytes
    else if first = 3 then do
      let (uncompressedLen, zlib) ← decodeCompressed rest
      pure (.tree uncompressedLen zlib)
    else if first = 4 then do
      let (uncompressedLen, zlib) ← decodeCompressed rest
      pure (.commit uncompressedLen zlib)
    else if first = 5 then do
      let (uncompressedLen, zlib) ← decodeCompressed rest
      pure (.tag uncompressedLen zlib)
    else .error (.unknownTag first)

theorem toNat_ofNat {n : Nat} (h : n < 2 ^ 64) : (UInt64.ofNat n).toNat = n := by
  rw [UInt64.toNat_ofNat']
  exact Nat.mod_eq_of_lt h

theorem decodeCompressed_encode {len : Nat} (h : len < 2 ^ 64) (zlib : Bytes) :
    decodeCompressed (u64ToBeBytes (UInt64.ofNat len) ++ zlib) = .ok (len, zlib) := by
  have hlen : ¬ (u64ToBeBytes (UInt64.ofNat len) ++ zlib).length < 8 := by
    rw [List.length_append, length_u64ToBeBytes]
    omega
  rw [decodeCompressed, if_neg hlen, readU64Be_u64ToBeBytes, toNat_ofNat h,
    List.drop_left' (length_u64ToBeBytes _)]

theorem decode_encode {record : ObjectRecord} (h : record.size < 2 ^ 64) : decode record.encode = .ok record := by
  cases record with
  | blobPointer size =>
    have hread : readU64Be (u64ToBeBytes (UInt64.ofNat size)) = UInt64.ofNat size := by
      rw [← List.append_nil (u64ToBeBytes _), readU64Be_u64ToBeBytes]
    have hsize : size < 2 ^ 64 := h
    simpa [encode, decode, length_u64ToBeBytes, hread] using hsize
  | blobInline len zlib | tree len zlib | commit len zlib | tag len zlib =>
    simp only [size] at h
    simp [encode, encodeCompressed, decode, decodeCompressed_encode h, bind, Except.bind, pure, Except.pure]

end ObjectRecord

/-! ## Ref targets -/

namespace RefTarget

/-- `RefTarget::encode`. -/
def encode : RefTarget → Bytes
  | .direct oid => 1 :: oid.bytes
  | .reference name => 2 :: asBytes name

/-- `RefTarget::decode`. -/
def decode : Bytes → Except ValueError RefTarget
  | [] => .error .empty
  | tag :: rest =>
    if tag = 1 then
      match ObjectId.tryFrom rest with
      | some oid => .ok (.direct oid)
      | none => .error .invalidObjectId
    else if tag = 2 then
      match fromUtf8 rest with
      | some name => .ok (.reference name)
      | none => .error .invalidUtf8
    else .error (.unknownTag tag)

@[simp] theorem decode_encode (target : RefTarget) : decode target.encode = .ok target := by
  cases target with
  | direct oid => simp [encode, decode, ObjectId.tryFrom_bytes]
  | reference name => simp [encode, decode]

end RefTarget

/-! ## Metadata -/

/-- A metadata-segment value: server-global or per-repo settings. -/
inductive MetaValue
  | utf8 (text : String)
  | u8 (value : UInt8)
  | u32 (value : UInt32)
  | raw (bytes : Bytes)
  deriving DecidableEq, Repr

namespace MetaValue

/-- `MetaValue::encode`. -/
def encode : MetaValue → Bytes
  | .utf8 text => 1 :: asBytes text
  | .u8 value => [2, value]
  | .u32 value => 3 :: u32ToBeBytes value
  | .raw bytes => 4 :: bytes

/-- `MetaValue::decode`. -/
def decode : Bytes → Except ValueError MetaValue
  | [] => .error .empty
  | tag :: rest =>
    if tag = 1 then
      match fromUtf8 rest with
      | some text => .ok (.utf8 text)
      | none => .error .invalidUtf8
    else if tag = 2 then
      match rest with
      | [] => .error .truncated
      | [value] => .ok (.u8 value)
      | _ => .error .trailingBytes
    else if tag = 3 then
      if rest.length < 4 then .error .truncated
      else if rest.length = 4 then .ok (.u32 (readU32Be rest))
      else .error .trailingBytes
    else if tag = 4 then .ok (.raw rest)
    else .error (.unknownTag tag)

@[simp] theorem decode_encode (value : MetaValue) : decode value.encode = .ok value := by
  cases value with
  | utf8 text => simp [encode, decode]
  | u8 value => simp [encode, decode]
  | u32 value =>
    have hread : readU32Be (u32ToBeBytes value) = value := by
      rw [← List.append_nil (u32ToBeBytes value), readU32Be_u32ToBeBytes]
    simp [encode, decode, CommitGraphRecord.length_u32ToBeBytes, hread]
  | raw bytes => simp [encode, decode]

theorem encode_injective : Function.Injective encode := by
  intro a b h
  have heq := congrArg decode h
  simpa using heq

end MetaValue

end Miscreant
