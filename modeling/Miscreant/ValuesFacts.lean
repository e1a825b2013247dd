/-
The commit-graph record's byte codec: a record of at most 255 parents is
read back as it was written, and one of more than 255 is not read back at
all, its parent count having been cut to a byte (`codec_lossless_iff`).
What is read was written: a byte string decodes to the record that encodes to
it (`encode_of_decode`).
-/
import Miscreant.Values

namespace Miscreant

theorem ObjectId.tryFrom_bytes (id : ObjectId) : ObjectId.tryFrom id.bytes = some id := by
  obtain ⟨k, b, hb⟩ := id
  cases k with
  | sha1 => simp [tryFrom, hb]
  | sha256 => simp [tryFrom, hb, HashKind.lenInBytes]

theorem ObjectId.bytes_of_tryFrom {bytes : Bytes} {id : ObjectId} (h : ObjectId.tryFrom bytes = some id) :
    id.bytes = bytes := by
  unfold tryFrom at h
  split at h
  · cases h
    rfl
  · split at h
    · cases h
      rfl
    · cases h

theorem readU32Be_u32ToBeBytes (n : UInt32) (rest : Bytes) : readU32Be (u32ToBeBytes n ++ rest) = n := by
  have hlt := n.toNat_lt
  apply UInt32.toNat_inj.1
  simp only [readU32Be, u32ToBeBytes, List.map_cons, List.map_nil, List.cons_append, List.nil_append, List.take,
    List.foldl, UInt8.toNat_ofNat', UInt32.toNat_ofNat']
  omega

theorem u32ToBeBytes_readU32Be {bytes : Bytes} (h : 4 ≤ bytes.length) : u32ToBeBytes (readU32Be bytes) = bytes.take 4 := by
  obtain ⟨a, b, c, d, rest, rfl⟩ : ∃ a b c d rest, bytes = a :: b :: c :: d :: rest := by
    match bytes, h with
    | a :: b :: c :: d :: rest, _ => exact ⟨a, b, c, d, rest, rfl⟩
  have ha := a.toNat_lt
  have hb := b.toNat_lt
  have hc := c.toNat_lt
  have hd := d.toNat_lt
  simp only [u32ToBeBytes, readU32Be, List.take, List.foldl, List.map_cons, List.map_nil, UInt32.toNat_ofNat',
    List.cons.injEq, and_true]
  refine ⟨?_, ?_, ?_, ?_⟩ <;> apply UInt8.toNat_inj.1 <;> rw [UInt8.toNat_ofNat'] <;> omega

namespace CommitGraphRecord

variable {k : HashKind} {r : CommitGraphRecord}

theorem length_flatMap_bytes {parents : List ObjectId} (hp : ∀ p ∈ parents, p.kind = k) :
    (parents.flatMap (·.bytes)).length = parents.length * k.lenInBytes := by
  induction parents with
  | nil => simp
  | cons p parents ih =>
    have hlen : p.bytes.length = k.lenInBytes := by rw [p.len, hp p (by simp)]
    rw [List.flatMap_cons, List.length_append, ih fun q hq => hp q (by simp [hq]), hlen, List.length_cons]
    rw [Nat.add_mul, Nat.one_mul, Nat.add_comm]

theorem decodeParents_bytes {parents : List ObjectId} (hp : ∀ p ∈ parents, p.kind = k) :
    decodeParents k.lenInBytes parents.length (parents.flatMap (·.bytes)) = .ok parents := by
  induction parents with
  | nil => rfl
  | cons p parents ih =>
    have hlen : p.bytes.length = k.lenInBytes := by rw [p.len, hp p (by simp)]
    have htake : (p.bytes ++ parents.flatMap (·.bytes)).take k.lenInBytes = p.bytes := by
      rw [← hlen, List.take_left]
    have hdrop : (p.bytes ++ parents.flatMap (·.bytes)).drop k.lenInBytes = parents.flatMap (·.bytes) := by
      rw [← hlen, List.drop_left]
    simp only [List.length_cons, List.flatMap_cons, decodeParents, htake, ObjectId.tryFrom_bytes, hdrop,
      ih fun q hq => hp q (by simp [hq])]

theorem length_u32ToBeBytes (n : UInt32) : (u32ToBeBytes n).length = 4 := rfl

/-- A decode of an encoded record, up to its length checks. -/
theorem decode_encode_eq (ht : r.rootTree.kind = k) (hp : ∀ p ∈ r.parents, p.kind = k) :
    decode r.encode k =
      if r.parents.length * k.lenInBytes < r.parents.length % 256 * k.lenInBytes then .error .truncated
      else if r.parents.length % 256 * k.lenInBytes < r.parents.length * k.lenInBytes then .error .trailingBytes
      else match decodeParents k.lenInBytes (r.parents.length % 256) (r.parents.flatMap (·.bytes)) with
        | .error e => .error e
        | .ok parents => .ok { r with parents } := by
  have hroot : r.rootTree.bytes.length = k.lenInBytes := by rw [r.rootTree.len, ht]
  have hlen : r.encode.length = 4 + k.lenInBytes + 1 + r.parents.length * k.lenInBytes := by
    simp only [encode, List.length_append, length_u32ToBeBytes, hroot, length_flatMap_bytes hp,
      List.length_singleton]
  have htree : (r.encode.drop 4).take k.lenInBytes = r.rootTree.bytes := by
    rw [encode, List.append_assoc, List.append_assoc, List.drop_left' (length_u32ToBeBytes _), ← hroot,
      List.take_left]
  have hhead : (u32ToBeBytes r.generation ++ r.rootTree.bytes).length = 4 + k.lenInBytes := by
    rw [List.length_append, length_u32ToBeBytes, hroot]
  have hcount : r.encode.getD (4 + k.lenInBytes) 0 = UInt8.ofNat r.parents.length := by
    rw [encode, List.append_assoc _ [_], ← hhead, List.getD_eq_getElem?_getD, List.getElem?_append_right le_rfl,
      Nat.sub_self]
    rfl
  have hparents : r.encode.drop (4 + k.lenInBytes + 1) = r.parents.flatMap (·.bytes) := by
    rw [encode, List.drop_left']
    rw [List.length_append, hhead, List.length_singleton]
  have hgen : readU32Be r.encode = r.generation := by
    rw [encode, List.append_assoc, List.append_assoc, readU32Be_u32ToBeBytes]
  have h1 : ¬ 4 + k.lenInBytes + 1 + r.parents.length * k.lenInBytes < 4 + k.lenInBytes + 1 := by omega
  simp only [decode, hlen, htree, ObjectId.tryFrom_bytes, hcount, hparents, hgen, h1, if_false,
    Nat.add_lt_add_iff_left, gt_iff_lt]
  rfl

theorem decode_encode (ht : r.rootTree.kind = k) (hp : ∀ p ∈ r.parents, p.kind = k)
    (hn : r.parents.length ≤ 255) : decode r.encode k = .ok r := by
  have hmod : r.parents.length % 256 = r.parents.length := Nat.mod_eq_of_lt (by omega)
  rw [decode_encode_eq ht hp, hmod, decodeParents_bytes hp]
  simp

theorem decode_encode_trailing (ht : r.rootTree.kind = k) (hp : ∀ p ∈ r.parents, p.kind = k)
    (hn : 255 < r.parents.length) : decode r.encode k = .error .trailingBytes := by
  have hwidth : 0 < k.lenInBytes := by cases k <;> simp [HashKind.lenInBytes]
  have hlt : r.parents.length % 256 * k.lenInBytes < r.parents.length * k.lenInBytes := by
    apply Nat.mul_lt_mul_of_pos_right _ hwidth
    omega
  rw [decode_encode_eq ht hp, if_neg (by omega), if_pos hlt]

theorem length_decodeParents {width : Nat} : ∀ {count : Nat} {bytes : Bytes} {parents : List ObjectId},
    decodeParents width count bytes = .ok parents → parents.length = count
  | 0, bytes, parents, h => by
    cases h
    rfl
  | count + 1, bytes, parents, h => by
    rw [decodeParents] at h
    split at h
    · cases h
    · split at h
      · cases h
      · rename_i rest hrest
        cases h
        rw [List.length_cons, length_decodeParents hrest]

/-- What decodes has at most 255 parents: they are counted in a byte. -/
theorem length_of_decode {bytes : Bytes} (h : decode bytes k = .ok r) : r.parents.length ≤ 255 := by
  unfold decode at h
  dsimp only at h
  split at h
  · cases h
  · split at h
    · cases h
    · split at h
      · cases h
      · split at h
        · cases h
        · split at h
          · cases h
          · rename_i parents hparents
            cases h
            have hlt := (bytes.getD (4 + k.lenInBytes) 0).toNat_lt
            have hlen := length_decodeParents hparents
            simp only at hlen ⊢
            omega

/-- The byte codec is faithful to a record exactly when its parents can be
counted in a byte. -/
theorem faithful_bytes_iff (ht : r.rootTree.kind = k) (hp : ∀ p ∈ r.parents, p.kind = k) :
    GraphCodec.bytes.Faithful k r ↔ r.parents.length ≤ 255 := by
  constructor
  · intro h
    by_contra hn
    have h' : decode r.encode k = .ok r := h
    rw [decode_encode_trailing ht hp (by omega)] at h'
    cases h'
  · exact decode_encode ht hp

/-- The parents read are the bytes they were read from. -/
theorem flatMap_decodeParents {width : Nat} : ∀ {count : Nat} {bytes : Bytes} {parents : List ObjectId},
    decodeParents width count bytes = .ok parents → bytes.length = count * width →
    parents.flatMap (·.bytes) = bytes
  | 0, bytes, parents, h, hlen => by
    cases h
    rw [Nat.zero_mul] at hlen
    rw [List.eq_nil_of_length_eq_zero hlen]
    rfl
  | count + 1, bytes, parents, h, hlen => by
    rw [decodeParents] at h
    split at h
    · cases h
    · rename_i oid hoid
      split at h
      · cases h
      · rename_i rest hrest
        cases h
        have hdrop : (bytes.drop width).length = count * width := by
          rw [List.length_drop, hlen, Nat.add_mul, Nat.one_mul, Nat.add_sub_cancel]
        rw [List.flatMap_cons, ObjectId.bytes_of_tryFrom hoid, flatMap_decodeParents hrest hdrop, List.take_append_drop]

/-- What decodes is the encoding of what it decodes to. -/
theorem encode_of_decode {bytes : Bytes} (h : decode bytes k = .ok r) : r.encode = bytes := by
  have hcount := (bytes.getD (4 + k.lenInBytes) 0).toNat_lt
  unfold decode at h
  dsimp only at h
  split at h
  · cases h
  · rename_i hheader
    split at h
    · cases h
    · rename_i rootTree hroot
      split at h
      · cases h
      · rename_i hshort
        split at h
        · cases h
        · rename_i hlong
          split at h
          · cases h
          · rename_i parents hparents
            cases h
            have hrest : (bytes.drop (4 + k.lenInBytes + 1)).length =
                (bytes.getD (4 + k.lenInBytes) 0).toNat * k.lenInBytes := by
              rw [List.length_drop]
              omega
            have hbyte : [bytes.getD (4 + k.lenInBytes) 0] = (bytes.drop (4 + k.lenInBytes)).take 1 := by
              have hlt : 4 + k.lenInBytes < bytes.length := by omega
              rw [List.getD_eq_getElem?_getD, List.getElem?_eq_getElem hlt, Option.getD_some, List.drop_eq_getElem_cons hlt, List.take_succ_cons, List.take_zero]
            have hsize : UInt8.ofNat parents.length = bytes.getD (4 + k.lenInBytes) 0 := by
              rw [length_decodeParents hparents, UInt8.ofNat_toNat]
            rw [encode, u32ToBeBytes_readU32Be (by omega), ObjectId.bytes_of_tryFrom hroot, hsize, hbyte,
              flatMap_decodeParents hparents hrest, ← List.take_add, ← List.take_add, List.take_append_drop]

/-- The codec of the commit-graph segment is lossless on records of at most
255 parents, and on no other; every byte string it accepts, it would write. -/
theorem codec_lossless_iff (k : HashKind) (r : CommitGraphRecord) (ht : r.rootTree.kind = k)
    (hp : ∀ p ∈ r.parents, p.kind = k) :
    (decode r.encode k = .ok r ↔ r.parents.length ≤ 255) ∧
      ∀ (bytes : Bytes) (r' : CommitGraphRecord), decode bytes k = .ok r' → r'.encode = bytes :=
  ⟨faithful_bytes_iff ht hp, fun _ _ h => encode_of_decode h⟩

/-- A commit of `n` parents. -/
def Sample.merge (n : Nat) : CommitGraphRecord where
  generation := 2
  rootTree := ⟨.sha1, List.replicate 20 0, rfl⟩
  parents := List.replicate n ⟨.sha1, List.replicate 20 1, rfl⟩

theorem Sample.kind_merge (n : Nat) : ∀ p ∈ (Sample.merge n).parents, p.kind = .sha1 := by
  intro p hp
  rw [List.eq_of_mem_replicate hp]

theorem codec_lossless_merge : decode (Sample.merge 2).encode .sha1 = .ok (Sample.merge 2) :=
  (codec_lossless_iff .sha1 (Sample.merge 2) rfl (Sample.kind_merge 2)).1.2 (by decide)

/-- A merge of 256 commits is not read back. -/
theorem codec_lossy_octopus : (Sample.merge 256).rootTree.kind = .sha1 ∧
    (∀ p ∈ (Sample.merge 256).parents, p.kind = .sha1) ∧
    decode (Sample.merge 256).encode .sha1 = .error .trailingBytes := by
  have hlen : (Sample.merge 256).parents.length = 256 := List.length_replicate ..
  exact ⟨rfl, Sample.kind_merge 256, decode_encode_trailing rfl (Sample.kind_merge 256) (by omega)⟩

end CommitGraphRecord

end Miscreant
