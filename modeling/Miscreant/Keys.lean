/-
Storage keys (`src/storage/keys.rs`): a fixed-width preamble of segment,
version and repository, then a suffix of the segment's own.

The preamble has one length, so a key or a scan prefix says which repository
and segment it is of (`preamble_inj`): a builder's keys are apart from those
of every other repository and every other segment.
-/
import Miscreant.Wire
import Mathlib.Data.List.Infix

namespace Miscreant

/-- The current key format version. -/
def KEY_VERSION : UInt8 := 1

/-- Length in bytes of the preamble. -/
def PREAMBLE_LEN : Nat := 1 + 1 + 8

/-- Opaque, fixed-width repository id assigned at repo creation. -/
structure RepoId where
  id : UInt64
  deriving DecidableEq, Repr

/-- Reserved id for server-global metadata. -/
def RepoId.GLOBAL : RepoId := ⟨0⟩

/-- The four segments every repository is namespaced into. -/
inductive Segment
  | metadata
  | object
  | ref
  | commitGraph
  deriving DecidableEq, Repr

/-- `Segment::as_u8`. -/
def Segment.asU8 : Segment → UInt8
  | .metadata => 0
  | .object => 1
  | .ref => 2
  | .commitGraph => 3

/-- Why a storage key could not be decoded. -/
inductive KeyError
  | tooShort (expected actual : Nat)
  | unsupportedVersion (version : UInt8)
  | unknownSegment (byte : UInt8)
  | wrongSegment (expected actual : Segment)
  | invalidUtf8
  | invalidObjectIdLen (expected actual : Nat)
  deriving DecidableEq, Repr

/-- `Segment::try_from`. -/
def Segment.tryFrom (value : UInt8) : Except KeyError Segment :=
  if value = 0 then .ok .metadata
  else if value = 1 then .ok .object
  else if value = 2 then .ok .ref
  else if value = 3 then .ok .commitGraph
  else .error (.unknownSegment value)

/-- `u64::to_be_bytes`. -/
def u64ToBeBytes (n : UInt64) : Bytes :=
  [56, 48, 40, 32, 24, 16, 8, 0].map fun shift => UInt8.ofNat (n.toNat / 2 ^ shift)

/-- `read_u64_be`, of at least eight bytes. -/
def readU64Be (bytes : Bytes) : UInt64 :=
  UInt64.ofNat ((bytes.take 8).foldl (fun n b => n * 256 + b.toNat) 0)

/-- `encode_preamble`. -/
def encodePreamble (repo : RepoId) (segment : Segment) : Bytes :=
  segment.asU8 :: KEY_VERSION :: u64ToBeBytes repo.id

/-- `decode_preamble`: the preamble's fields and the suffix. -/
def decodePreamble (bytes : Bytes) : Except KeyError (RepoId × Segment × Bytes) :=
  if bytes.length < PREAMBLE_LEN then .error (.tooShort PREAMBLE_LEN bytes.length)
  else if bytes.getD 1 0 ≠ KEY_VERSION then .error (.unsupportedVersion (bytes.getD 1 0))
  else
    match Segment.tryFrom (bytes.getD 0 0) with
    | .error e => .error e
    | .ok segment => .ok (⟨readU64Be (bytes.drop 2)⟩, segment, bytes.drop PREAMBLE_LEN)

/-- `meta_key`. -/
def metaKey (repo : RepoId) (name : String) : Bytes := encodePreamble repo .metadata ++ asBytes name

/-- `object_key`. -/
def objectKey (repo : RepoId) (oid : ObjectId) : Bytes := encodePreamble repo .object ++ oid.bytes

/-- `ref_key`. -/
def refKey (repo : RepoId) (name : String) : Bytes := encodePreamble repo .ref ++ asBytes name

/-- `commit_key`. -/
def commitKey (repo : RepoId) (oid : ObjectId) : Bytes := encodePreamble repo .commitGraph ++ oid.bytes

/-- `segment_prefix`. -/
def segmentPrefix (repo : RepoId) (segment : Segment) : Bytes := encodePreamble repo segment

/-- `ref_prefix`. -/
def refPrefix (repo : RepoId) (utf8Prefix : String) : Bytes := segmentPrefix repo .ref ++ asBytes utf8Prefix

/-- `expect_segment`. -/
def expectSegment (actual expected : Segment) : Except KeyError Unit :=
  if actual = expected then .ok () else .error (.wrongSegment expected actual)

/-- `decode_oid`. -/
def decodeOid (hashKind : HashKind) (bytes : Bytes) : Except KeyError ObjectId :=
  if bytes.length ≠ hashKind.lenInBytes then .error (.invalidObjectIdLen hashKind.lenInBytes bytes.length)
  else
    match ObjectId.tryFrom bytes with
    | some oid => .ok oid
    | none => .error (.invalidObjectIdLen hashKind.lenInBytes bytes.length)

/-- The suffix of a key that ends in a name. -/
def decodeName (bytes : Bytes) : Except KeyError String :=
  match fromUtf8 bytes with
  | none => .error .invalidUtf8
  | some name => .ok name

/-- The `decode_*_key` of a segment, by what decodes its suffix. -/
def decodeKey {α : Type} (segment : Segment) (decode : Bytes → Except KeyError α) (bytes : Bytes) :
    Except KeyError (RepoId × α) := do
  let (repo, actual, rest) ← decodePreamble bytes
  expectSegment actual segment
  let suffix ← decode rest
  .ok (repo, suffix)

/-- `decode_meta_key`. -/
def decodeMetaKey (bytes : Bytes) : Except KeyError (RepoId × String) := decodeKey .metadata decodeName bytes

/-- `decode_object_key`. -/
def decodeObjectKey (bytes : Bytes) (hashKind : HashKind) : Except KeyError (RepoId × ObjectId) :=
  decodeKey .object (decodeOid hashKind) bytes

/-- `decode_ref_key`. -/
def decodeRefKey (bytes : Bytes) : Except KeyError (RepoId × String) := decodeKey .ref decodeName bytes

/-- `decode_commit_key`. -/
def decodeCommitKey (bytes : Bytes) (hashKind : HashKind) : Except KeyError (RepoId × ObjectId) :=
  decodeKey .commitGraph (decodeOid hashKind) bytes

/-! ## Reading keys back -/

theorem length_u64ToBeBytes (n : UInt64) : (u64ToBeBytes n).length = 8 := rfl

theorem readU64Be_u64ToBeBytes (n : UInt64) (rest : Bytes) : readU64Be (u64ToBeBytes n ++ rest) = n := by
  have hlt := n.toNat_lt
  apply UInt64.toNat_inj.1
  simp only [readU64Be, u64ToBeBytes, List.map_cons, List.map_nil, List.cons_append, List.nil_append, List.take,
    List.foldl, UInt8.toNat_ofNat', UInt64.toNat_ofNat']
  omega

theorem u64ToBeBytes_injective : Function.Injective u64ToBeBytes := by
  intro n m h
  have heq := congrArg readU64Be h
  rwa [← List.append_nil (u64ToBeBytes n), ← List.append_nil (u64ToBeBytes m), readU64Be_u64ToBeBytes,
    readU64Be_u64ToBeBytes] at heq

theorem Segment.asU8_injective : Function.Injective Segment.asU8 := by
  intro a b h
  cases a <;> cases b <;> first | rfl | cases h

@[simp] theorem Segment.tryFrom_asU8 (segment : Segment) : Segment.tryFrom segment.asU8 = .ok segment := by
  cases segment <;> rfl

theorem length_encodePreamble (repo : RepoId) (segment : Segment) :
    (encodePreamble repo segment).length = PREAMBLE_LEN := rfl

/-- Keys with one suffix after their preambles are of one repository and
segment. -/
theorem preamble_inj {repo repo' : RepoId} {segment segment' : Segment} {rest rest' : Bytes}
    (h : encodePreamble repo segment ++ rest = encodePreamble repo' segment' ++ rest') :
    repo = repo' ∧ segment = segment' ∧ rest = rest' := by
  obtain ⟨hpre, hrest⟩ := List.append_inj h (by rw [length_encodePreamble, length_encodePreamble])
  obtain ⟨id⟩ := repo
  obtain ⟨id'⟩ := repo'
  simp only [encodePreamble, List.cons.injEq, true_and] at hpre
  have hid : id = id' := u64ToBeBytes_injective hpre.2
  exact ⟨by rw [hid], Segment.asU8_injective hpre.1, hrest⟩

theorem decodePreamble_encodePreamble (repo : RepoId) (segment : Segment) (rest : Bytes) :
    decodePreamble (encodePreamble repo segment ++ rest) = .ok (repo, segment, rest) := by
  have hlen : ¬ (encodePreamble repo segment ++ rest).length < PREAMBLE_LEN := by
    rw [List.length_append, length_encodePreamble]
    omega
  have hdrop : (encodePreamble repo segment ++ rest).drop PREAMBLE_LEN = rest := by
    rw [← length_encodePreamble repo segment, List.drop_left]
  have hrepo : (encodePreamble repo segment ++ rest).drop 2 = u64ToBeBytes repo.id ++ rest := rfl
  have hversion : ¬ (encodePreamble repo segment ++ rest).getD 1 0 ≠ KEY_VERSION := by
    simp [encodePreamble]
  have hsegment : (encodePreamble repo segment ++ rest).getD 0 0 = segment.asU8 := rfl
  rw [decodePreamble, if_neg hlen, if_neg hversion, hsegment, hrepo, hdrop, readU64Be_u64ToBeBytes]
  simp

theorem u64ToBeBytes_readU64Be {bytes : Bytes} (h : 8 ≤ bytes.length) : u64ToBeBytes (readU64Be bytes) = bytes.take 8 := by
  obtain ⟨a, b, c, d, e, f, g, i, rest, rfl⟩ :
      ∃ a b c d e f g i rest, bytes = a :: b :: c :: d :: e :: f :: g :: i :: rest := by
    match bytes, h with
    | a :: b :: c :: d :: e :: f :: g :: i :: rest, _ => exact ⟨a, b, c, d, e, f, g, i, rest, rfl⟩
  have ha := a.toNat_lt
  have hb := b.toNat_lt
  have hc := c.toNat_lt
  have hd := d.toNat_lt
  have he := e.toNat_lt
  have hf := f.toNat_lt
  have hg := g.toNat_lt
  have hi := i.toNat_lt
  simp only [u64ToBeBytes, readU64Be, List.take, List.foldl, List.map_cons, List.map_nil, UInt64.toNat_ofNat',
    List.cons.injEq, and_true]
  refine ⟨?_, ?_, ?_, ?_, ?_, ?_, ?_, ?_⟩ <;> apply UInt8.toNat_inj.1 <;> rw [UInt8.toNat_ofNat'] <;> omega

theorem Segment.asU8_of_tryFrom {value : UInt8} {segment : Segment} (h : Segment.tryFrom value = .ok segment) :
    segment.asU8 = value := by
  unfold Segment.tryFrom at h
  split_ifs at h with h0 h1 h2 h3 <;> cases h
  · exact h0.symm
  · exact h1.symm
  · exact h2.symm
  · exact h3.symm

/-- A preamble that is read is the one that would be written. -/
theorem encodePreamble_of_decode {bytes rest : Bytes} {repo : RepoId} {segment : Segment}
    (h : decodePreamble bytes = .ok (repo, segment, rest)) : encodePreamble repo segment ++ rest = bytes := by
  unfold decodePreamble at h
  split at h
  · cases h
  · rename_i hlen
    split at h
    · cases h
    · rename_i hversion
      split at h
      · cases h
      · rename_i segment' hsegment
        cases h
        obtain ⟨s, v, tail, rfl⟩ : ∃ s v tail, bytes = s :: v :: tail := by
          match bytes, hlen with
          | [], hlen => exact absurd (by decide) hlen
          | [_], hlen => exact absurd (by simp [PREAMBLE_LEN]) hlen
          | s :: v :: tail, _ => exact ⟨s, v, tail, rfl⟩
        have htail : 8 ≤ tail.length := by
          simp only [PREAMBLE_LEN, List.length_cons] at hlen
          omega
        have hv : v = KEY_VERSION := not_not.1 hversion
        have hs : segment.asU8 = s := Segment.asU8_of_tryFrom hsegment
        have hdrop : (s :: v :: tail).drop PREAMBLE_LEN = tail.drop 8 := rfl
        have hrepo : u64ToBeBytes (readU64Be ((s :: v :: tail).drop 2)) = tail.take 8 := u64ToBeBytes_readU64Be htail
        rw [encodePreamble, hrepo, hdrop, hs, hv, List.cons_append, List.cons_append, List.take_append_drop]

theorem expectSegment_ok {actual expected : Segment} (h : expectSegment actual expected = .ok ()) : actual = expected := by
  unfold expectSegment at h
  split at h
  · assumption
  · cases h

/-- What a key of a segment is read as. -/
theorem decodeKey_ok {α : Type} {bytes : Bytes} {segment : Segment} {decode : Bytes → Except KeyError α} {repo : RepoId}
    {a : α} : decodeKey segment decode bytes = .ok (repo, a) ↔
      ∃ rest, bytes = encodePreamble repo segment ++ rest ∧ decode rest = .ok a := by
  constructor
  · intro h
    unfold decodeKey at h
    cases hpre : decodePreamble bytes with
    | error e =>
      rw [hpre] at h
      cases h
    | ok parts =>
      obtain ⟨repo', actual, rest⟩ := parts
      simp only [hpre, bind, Except.bind] at h
      split at h
      · cases h
      · rename_i hseg
        split at h
        · cases h
        · rename_i suffix hsuffix
          cases h
          rw [← expectSegment_ok hseg]
          exact ⟨rest, (encodePreamble_of_decode hpre).symm, hsuffix⟩
  · intro h
    obtain ⟨rest, rfl, hrest⟩ := h
    simp only [decodeKey, decodePreamble_encodePreamble, expectSegment, hrest, bind, Except.bind, if_true]

theorem decodeName_ok {bytes : Bytes} {name : String} : decodeName bytes = .ok name ↔ bytes = asBytes name := by
  unfold decodeName
  constructor
  · intro h
    split at h
    · cases h
    · rename_i hname
      cases h
      exact (asBytes_fromUtf8 hname).symm
  · intro h
    rw [h, fromUtf8_asBytes]

theorem decodeOid_ok {bytes : Bytes} {k : HashKind} {oid : ObjectId} :
    decodeOid k bytes = .ok oid ↔ bytes = oid.bytes ∧ oid.kind = k := by
  have hwidth : ∀ {k k' : HashKind}, k.lenInBytes = k'.lenInBytes → k = k' := by
    intro k k' h
    cases k <;> cases k' <;> first | rfl | cases h
  constructor
  · intro h
    unfold decodeOid at h
    split at h
    · cases h
    · rename_i hlen
      split at h
      · rename_i hoid
        cases h
        have hbytes := ObjectId.bytes_of_tryFrom hoid
        refine ⟨hbytes.symm, hwidth ?_⟩
        rw [← oid.len, hbytes, not_not.1 hlen]
      · cases h
  · intro h
    obtain ⟨rfl, rfl⟩ := h
    rw [decodeOid, if_neg (not_not.2 oid.len), ObjectId.tryFrom_bytes]

/-- The key whose suffix is a name, and no other, is read as that name. -/
theorem decodeKey_name {bytes : Bytes} {segment : Segment} {repo : RepoId} {name : String} :
    decodeKey segment decodeName bytes = .ok (repo, name) ↔ encodePreamble repo segment ++ asBytes name = bytes := by
  simp only [decodeKey_ok, decodeName_ok]
  constructor
  · intro h
    obtain ⟨rest, hbytes, hrest⟩ := h
    rw [hbytes, hrest]
  · intro h
    exact ⟨asBytes name, h.symm, rfl⟩

/-- The key whose suffix is an id, and no other, is read as that id. -/
theorem decodeKey_oid {bytes : Bytes} {segment : Segment} {k : HashKind} {repo : RepoId} {oid : ObjectId} :
    decodeKey segment (decodeOid k) bytes = .ok (repo, oid) ↔
      encodePreamble repo segment ++ oid.bytes = bytes ∧ oid.kind = k := by
  simp only [decodeKey_ok, decodeOid_ok]
  constructor
  · intro h
    obtain ⟨rest, hbytes, hrest, hkind⟩ := h
    exact ⟨by rw [hbytes, hrest], hkind⟩
  · intro h
    exact ⟨oid.bytes, h.1.symm, rfl, h.2⟩

/-! ## Keys of a repository -/

/-- The key is one of the repository's. -/
def IsKeyOf (repo : RepoId) (key : Bytes) : Prop := ∃ segment rest, key = encodePreamble repo segment ++ rest

theorem isKeyOf_metaKey (repo : RepoId) (name : String) : IsKeyOf repo (metaKey repo name) := ⟨_, _, rfl⟩

theorem isKeyOf_objectKey (repo : RepoId) (oid : ObjectId) : IsKeyOf repo (objectKey repo oid) := ⟨_, _, rfl⟩

theorem isKeyOf_refKey (repo : RepoId) (name : String) : IsKeyOf repo (refKey repo name) := ⟨_, _, rfl⟩

theorem isKeyOf_commitKey (repo : RepoId) (oid : ObjectId) : IsKeyOf repo (commitKey repo oid) := ⟨_, _, rfl⟩

theorem IsKeyOf.unique {repo repo' : RepoId} {key : Bytes} (h : IsKeyOf repo key) (h' : IsKeyOf repo' key) :
    repo = repo' := by
  obtain ⟨segment, rest, rfl⟩ := h
  obtain ⟨segment', rest', heq⟩ := h'
  exact (preamble_inj heq).1

/-- What starts with a scan prefix of the repository is a key of it. -/
theorem isKeyOf_of_refPrefix {repo : RepoId} {utf8Prefix : String} {key : Bytes}
    (h : (refPrefix repo utf8Prefix).isPrefixOf key) : IsKeyOf repo key := by
  obtain ⟨rest, hrest⟩ := List.isPrefixOf_iff_prefix.1 h
  exact ⟨.ref, asBytes utf8Prefix ++ rest, by rw [← hrest, refPrefix, segmentPrefix, List.append_assoc]⟩

theorem isKeyOf_of_segmentPrefix {repo : RepoId} {segment : Segment} {key : Bytes}
    (h : (segmentPrefix repo segment).isPrefixOf key) : IsKeyOf repo key := by
  obtain ⟨rest, hrest⟩ := List.isPrefixOf_iff_prefix.1 h
  exact ⟨segment, rest, hrest.symm⟩

@[simp] theorem metaKey_inj {repo repo' : RepoId} {name name' : String} :
    metaKey repo name = metaKey repo' name' ↔ repo = repo' ∧ name = name' := by
  constructor
  · intro h
    obtain ⟨hrepo, -, hname⟩ := preamble_inj h
    exact ⟨hrepo, asBytes_injective hname⟩
  · intro h
    rw [h.1, h.2]

@[simp] theorem refKey_inj {repo repo' : RepoId} {name name' : String} :
    refKey repo name = refKey repo' name' ↔ repo = repo' ∧ name = name' := by
  constructor
  · intro h
    obtain ⟨hrepo, -, hname⟩ := preamble_inj h
    exact ⟨hrepo, asBytes_injective hname⟩
  · intro h
    rw [h.1, h.2]

@[simp] theorem objectKey_inj {repo repo' : RepoId} {oid oid' : ObjectId} :
    objectKey repo oid = objectKey repo' oid' ↔ repo = repo' ∧ oid = oid' := by
  constructor
  · intro h
    obtain ⟨hrepo, -, hoid⟩ := preamble_inj h
    exact ⟨hrepo, ObjectId.bytes_injective hoid⟩
  · intro h
    rw [h.1, h.2]

@[simp] theorem commitKey_inj {repo repo' : RepoId} {oid oid' : ObjectId} :
    commitKey repo oid = commitKey repo' oid' ↔ repo = repo' ∧ oid = oid' := by
  constructor
  · intro h
    obtain ⟨hrepo, -, hoid⟩ := preamble_inj h
    exact ⟨hrepo, ObjectId.bytes_injective hoid⟩
  · intro h
    rw [h.1, h.2]

theorem metaKey_ne_refKey (repo repo' : RepoId) (name name' : String) : metaKey repo name ≠ refKey repo' name' := by
  intro h
  exact nomatch (preamble_inj h).2.1

/-- A ref key starts with a scan prefix when it is of that repository and its
name starts so. -/
theorem refPrefix_isPrefixOf {repo repo' : RepoId} {p name : String} :
    refPrefix repo p <+: refKey repo' name ↔ repo' = repo ∧ asBytes p <+: asBytes name := by
  constructor
  · intro h
    obtain ⟨rest, hrest⟩ := h
    rw [refPrefix, segmentPrefix, List.append_assoc] at hrest
    obtain ⟨hrepo, -, hname⟩ := preamble_inj hrest
    exact ⟨hrepo.symm, rest, hname⟩
  · intro h
    obtain ⟨rfl, rest, hrest⟩ := h
    exact ⟨rest, by rw [refPrefix, segmentPrefix, refKey, ← hrest, List.append_assoc]⟩

end Miscreant
