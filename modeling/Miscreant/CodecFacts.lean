/-
The codecs of the object, ref and metadata segments are canonical: a stored
value has one encoding, which is the only byte string that is read as it
(`values_canonical`).

A record's lengths are 64-bit integers, so the object codec is for the
records whose length is below `2 ^ 64`; what it reads always is.
-/
import Miscreant.Codec
import Miscreant.Lib.Canonical

namespace Miscreant

open Lib

/-! ## Object records -/

namespace ObjectRecord

theorem decodeCompressed_ok {rest : Bytes} {len : Nat} {zlib : Bytes} (h : decodeCompressed rest = .ok (len, zlib)) :
    len < 2 ^ 64 ∧ u64ToBeBytes (UInt64.ofNat len) ++ zlib = rest := by
  unfold decodeCompressed at h
  split at h
  · cases h
  · rename_i hlen
    cases h
    refine ⟨(readU64Be rest).toNat_lt, ?_⟩
    rw [UInt64.ofNat_toNat, u64ToBeBytes_readU64Be (not_lt.1 hlen), List.take_append_drop]

/-- A record of a tag that is followed by a length and a stream. -/
theorem compressed_ok {rest : Bytes} {record : ObjectRecord} {make : Nat → Bytes → ObjectRecord}
    (h : (do
      let (len, zlib) ← decodeCompressed rest
      pure (make len zlib)) = .ok record) :
    ∃ len zlib, record = make len zlib ∧ len < 2 ^ 64 ∧ u64ToBeBytes (UInt64.ofNat len) ++ zlib = rest := by
  cases hrest : decodeCompressed rest with
  | error e =>
    rw [hrest] at h
    cases h
  | ok found =>
    rw [hrest] at h
    cases h
    obtain ⟨hlen, hbytes⟩ := decodeCompressed_ok hrest
    exact ⟨found.1, found.2, rfl, hlen, hbytes⟩

theorem decode_ok {bytes : Bytes} {record : ObjectRecord} (h : decode bytes = .ok record) :
    record.size < 2 ^ 64 ∧ record.encode = bytes := by
  cases bytes with
  | nil => cases h
  | cons first rest =>
    rw [decode] at h
    split at h
    · rename_i hfirst
      obtain ⟨len, zlib, rfl, hlen, hrest⟩ := compressed_ok h
      exact ⟨hlen, by rw [encode, encodeCompressed, hrest, hfirst]⟩
    · split at h
      · rename_i hfirst
        split at h
        · cases h
        · split at h
          · rename_i hlen
            cases h
            refine ⟨(readU64Be rest).toNat_lt, ?_⟩
            rw [encode, UInt64.ofNat_toNat, u64ToBeBytes_readU64Be (le_of_eq hlen.symm),
              List.take_of_length_le (le_of_eq hlen), hfirst]
          · cases h
      · split at h
        · rename_i hfirst
          obtain ⟨len, zlib, rfl, hlen, hrest⟩ := compressed_ok h
          exact ⟨hlen, by rw [encode, encodeCompressed, hrest, hfirst]⟩
        · split at h
          · rename_i hfirst
            obtain ⟨len, zlib, rfl, hlen, hrest⟩ := compressed_ok h
            exact ⟨hlen, by rw [encode, encodeCompressed, hrest, hfirst]⟩
          · split at h
            · rename_i hfirst
              obtain ⟨len, zlib, rfl, hlen, hrest⟩ := compressed_ok h
              exact ⟨hlen, by rw [encode, encodeCompressed, hrest, hfirst]⟩
            · cases h

theorem canonical : Canonical (fun record : ObjectRecord => record.size < 2 ^ 64) encode decode :=
  .of_inverse (fun _ => decode_encode) fun _ _ => decode_ok

end ObjectRecord

/-! ## Ref targets -/

namespace RefTarget

theorem decode_ok {bytes : Bytes} {target : RefTarget} (h : decode bytes = .ok target) : target.encode = bytes := by
  cases bytes with
  | nil => cases h
  | cons tag rest =>
    rw [decode] at h
    split at h
    · rename_i htag
      split at h
      · rename_i oid hoid
        cases h
        rw [encode, ObjectId.bytes_of_tryFrom hoid, htag]
      · cases h
    · split at h
      · rename_i htag
        split at h
        · rename_i name hname
          cases h
          rw [encode, asBytes_fromUtf8 hname, htag]
        · cases h
      · cases h

theorem canonical : Canonical (fun _ => True) encode decode :=
  .of_inverse (fun target _ => decode_encode target) fun _ _ h => ⟨trivial, decode_ok h⟩

end RefTarget

/-! ## Metadata -/

namespace MetaValue

theorem decode_ok {bytes : Bytes} {value : MetaValue} (h : decode bytes = .ok value) : value.encode = bytes := by
  cases bytes with
  | nil => cases h
  | cons tag rest =>
    simp only [decode] at h
    split at h
    · rename_i htag
      split at h
      · rename_i text htext
        cases h
        rw [encode, asBytes_fromUtf8 htext, htag]
      · cases h
    · split at h
      · rename_i htag
        split at h
        · cases h
        · cases h
          rw [encode, htag]
        · cases h
      · split at h
        · rename_i htag
          split at h
          · cases h
          · split at h
            · rename_i hlen
              cases h
              rw [encode, u32ToBeBytes_readU32Be (le_of_eq hlen.symm), List.take_of_length_le (le_of_eq hlen), htag]
            · cases h
        · split at h
          · rename_i htag
            cases h
            rw [encode, htag]
          · cases h

theorem canonical : Canonical (fun _ => True) encode decode :=
  .of_inverse (fun value _ => decode_encode value) fun _ _ h => ⟨trivial, decode_ok h⟩

end MetaValue

/-- Each codec reads back what it writes, accepts nothing else, and reads no
value from two byte strings. -/
theorem values_canonical :
    Canonical (fun _ => True) MetaValue.encode MetaValue.decode ∧
    Canonical (fun record : ObjectRecord => record.size < 2 ^ 64) ObjectRecord.encode ObjectRecord.decode ∧
    Canonical (fun _ => True) RefTarget.encode RefTarget.decode :=
  ⟨MetaValue.canonical, ObjectRecord.canonical, RefTarget.canonical⟩

end Miscreant
