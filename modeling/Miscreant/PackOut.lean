/-
Pack serialization (`src/git/pack_out.rs`): the entries handed to the pack
writer, with the search for offset deltas among the blobs of a name group.

Every index into a slice or a vector is checked, so a function that indexes is
partial here: `none` is an index out of range. Counters and timings
(`DeltaStats`) are left out.
-/
import Miscreant.ObjectDb
import Miscreant.Lib.GitDelta
import Miscreant.Lib.Pktline

namespace Miscreant

open Lib

namespace PackOut

def MIN_DELTA_BLOB_SIZE : Nat := 512
def MAX_DELTA_BLOB_SIZE : Nat := 2 * 1024 * 1024
/-- At most this many inflated blobs are considered as bases. -/
def DELTA_WINDOW : Nat := 8
def MAX_DELTA_CACHE_BYTES : Nat := 8 * 1024 * 1024
/-- A delta that saves less is not sent. -/
def MIN_DELTA_SAVINGS : Nat := 32
/-- The least match that is copied, and the window of the block hash. -/
def MIN_COPY : Nat := 16
/-- At most this many offsets are indexed for a tag. -/
def MAX_BLOCK_MATCHES : Nat := 4
/-- An entry of the index lies within this many slots of its home. -/
def PROBE_WINDOW : Nat := 8
def HASH_BASE : UInt64 := 0x9e3779b97f4a7c15

/-- `wrapping_pow`. -/
def wrappingPow (base : UInt64) : Nat → UInt64
  | 0 => 1
  | n + 1 => wrappingPow base n * base

def HASH_TOP : UInt64 := wrappingPow HASH_BASE (MIN_COPY - 1)

/-! ## Slices -/

/-- `xs[i..j]`. -/
def slice {α : Type} (xs : List α) (i j : Nat) : Option (List α) :=
  if i ≤ j ∧ j ≤ xs.length then some ((xs.drop i).take (j - i)) else none

/-- `xs[i..]`. -/
def sliceFrom {α : Type} (xs : List α) (i : Nat) : Option (List α) := slice xs i xs.length

/-! ## Instructions -/

/-- `encode_size`, of what is left of the size with `fuel` for the loop. -/
def encodeSizeFrom : Nat → Nat → Bytes
  | 0, _ => []
  | fuel + 1, size =>
    if size / 128 ≠ 0 then UInt8.ofNat (size % 128 + 128) :: encodeSizeFrom fuel (size / 128)
    else [UInt8.ofNat (size % 128)]

/-- `encode_size`: a `u64` takes at most ten turns. -/
def encodeSize (size : Nat) (out : Bytes) : Bytes := out ++ encodeSizeFrom 10 size

/-- `append_insert`. -/
def appendInsert (out bytes : Bytes) : Bytes :=
  (Pktline.chunks 127 bytes).foldl (fun out chunk =>
    if chunk = [] then out else out ++ [UInt8.ofNat chunk.length] ++ chunk) out

/-- The loops of `append_copy` over the bytes of a number: a byte that is not
zero sets its bit in the command and goes into the payload. -/
def copyFields (value : Nat) (fields : List GitDelta.Field) (start : UInt8 × Bytes) : UInt8 × Bytes :=
  fields.foldl (fun (command, payload) (bit, shift) =>
    let byte := UInt8.ofNat (value / 2 ^ shift % 256)
    if byte ≠ 0 then (command ||| bit, payload ++ [byte]) else (command, payload)) start

/-- One instruction of `append_copy`. -/
def copyInstr (offset chunkLen : Nat) : Bytes :=
  let start := copyFields offset GitDelta.OFFSET_FIELDS (0x80, [])
  let (command, payload) := if chunkLen ≠ 0x10000 then copyFields chunkLen GitDelta.SIZE_FIELDS start else start
  command :: payload

/-- `append_copy`. -/
def appendCopy (out : Bytes) (offset len : Nat) : Bytes :=
  if len ≠ 0 then
    let chunkLen := min len 0x10000
    appendCopy (out ++ copyInstr offset chunkLen) (offset + chunkLen) (len - chunkLen)
  else out
termination_by len

/-! ## The block index -/

/-- `block_hash`. -/
def blockHash (window : Bytes) : UInt64 := window.foldl (fun hash byte => hash * HASH_BASE + byte.toUInt64) 0

/-- `roll_hash`. -/
def rollHash (hash : UInt64) (outByte inByte : UInt8) : UInt64 :=
  (hash - outByte.toUInt64 * HASH_TOP) * HASH_BASE + inByte.toUInt64

/-- `u64::trailing_zeros`, of the `n` bits left. -/
def trailingZerosFrom : Nat → Nat → Nat
  | 0, _ => 0
  | n + 1, x => if x % 2 = 0 then 1 + trailingZerosFrom n (x / 2) else 0

/-- `u64::trailing_zeros`. -/
def trailingZeros (x : Nat) : Nat := trailingZerosFrom 64 x

/-- `u64::from_le_bytes`. -/
def leWord : Bytes → Nat
  | [] => 0
  | byte :: bytes => byte.toNat + 256 * leWord bytes

/-- The byte loop of `common_prefix`. -/
def commonBytes : Bytes → Bytes → Nat
  | x :: a, y :: b => if x = y then 1 + commonBytes a b else 0
  | _, _ => 0

/-- `common_prefix`, of what is left of the slices: a word at a time, then
byte by byte. -/
def commonPrefix (a b : Bytes) : Nat :=
  if 8 ≤ min a.length b.length then
    let x := leWord (a.take 8)
    let y := leWord (b.take 8)
    if x ≠ y then trailingZeros (x ^^^ y) / 8 else 8 + commonPrefix (a.drop 8) (b.drop 8)
  else commonBytes a b
termination_by a.length
decreasing_by
  simp only [List.length_drop]
  omega

/-- `BlockIndex`: packed entries `tag << 32 | offset + 1`, zero being a free
slot. -/
structure BlockIndex where
  slots : List UInt64
  /-- The right shift that turns a mixed fingerprint into its home slot. -/
  shift : Nat

/-- `BlockIndex::home_of`. -/
def BlockIndex.homeOf (index : BlockIndex) (fingerprint : UInt64) : Nat :=
  (fingerprint * HASH_BASE).toNat / 2 ^ index.shift

/-- `BlockIndex::window_of`: the probe window and the tag of a fingerprint. -/
def BlockIndex.windowOf (index : BlockIndex) (fingerprint : UInt64) : Option (List UInt64 × UInt64) :=
  let home := index.homeOf fingerprint
  (slice index.slots home (home + PROBE_WINDOW)).map fun window => (window, fingerprint >>> 32)

/-- The loop of `BlockIndex::insert`, with `n` slots left to probe. -/
def insertFrom (tag : UInt64) (offset : Nat) (slots : List UInt64) : Nat → Nat → Nat → Option (List UInt64)
  | 0, _, _ => some slots
  | n + 1, slot, duplicates =>
    match slots[slot]? with
    | none => none
    | some entry =>
      if entry = 0 then some (slots.set slot ((tag <<< 32) ||| (UInt64.ofNat offset + 1)))
      else if entry >>> 32 = tag then
        if MAX_BLOCK_MATCHES ≤ duplicates + 1 then some slots
        else insertFrom tag offset slots n (slot + 1) (duplicates + 1)
      else insertFrom tag offset slots n (slot + 1) duplicates

/-- `BlockIndex::insert`. -/
def BlockIndex.insert (index : BlockIndex) (fingerprint : UInt64) (offset : Nat) : Option BlockIndex :=
  (insertFrom (fingerprint >>> 32) offset index.slots PROBE_WINDOW (index.homeOf fingerprint) 0).map fun slots =>
    { index with slots }

/-- The blocks of `block_index`, each at its offset. -/
def insertBlocks (base : Bytes) : List Nat → BlockIndex → Option BlockIndex
  | [], index => some index
  | offset :: offsets, index => do
    let window ← slice base offset (offset + MIN_COPY)
    let index ← index.insert (blockHash window) offset
    insertBlocks base offsets index

/-- `block_index`. -/
def blockIndex (base : Bytes) : Option BlockIndex :=
  let blocks := base.length / MIN_COPY
  let homes := max (blocks * 4).nextPowerOfTwo PROBE_WINDOW
  let index : BlockIndex := ⟨List.replicate (homes + PROBE_WINDOW) 0, 64 - trailingZeros homes⟩
  if base.length < MIN_COPY then some index
  else insertBlocks base ((List.range ((base.length - MIN_COPY) / MIN_COPY + 1)).map (· * MIN_COPY)) index

/-! ## Deltas -/

/-- One entry of the probe window, and the best match so far. -/
def tryEntry (base target : Bytes) (tag : UInt64) (cursor : Nat) (entry : UInt64) (best : Option (Nat × Nat)) :
    Option (Option (Nat × Nat)) :=
  if entry >>> 32 ≠ tag ∨ entry.toUInt32 = 0 then some best
  else do
    let offset := (entry.toUInt32 - 1).toNat
    let a ← sliceFrom base offset
    let b ← sliceFrom target cursor
    let len := commonPrefix a b
    pure (if MIN_COPY ≤ len ∧ (∀ m ∈ best, m.2 < len) then some (offset, len) else best)

/-- The match at the cursor: of the offsets the index nominates, the first
with the longest common run. -/
def bestMatch (base target : Bytes) (tag : UInt64) (cursor : Nat) :
    List UInt64 → Option (Nat × Nat) → Option (Option (Nat × Nat))
  | [], best => some best
  | entry :: window, best => do
    let best ← tryEntry base target tag cursor entry best
    bestMatch base target tag cursor window best

/-- The locals of the loop of `make_delta`. -/
structure Scan where
  out : Bytes
  cursor : Nat
  insertStart : Nat
  hash : UInt64
  primed : Bool

/-- The match `make_delta` looks up at its cursor, and the hash there. -/
def Scan.lookup (base target : Bytes) (index : BlockIndex) (s : Scan) : Option (UInt64 × Option (Nat × Nat)) := do
  let hash ← if s.primed then some s.hash else (slice target s.cursor (s.cursor + MIN_COPY)).map blockHash
  let (window, tag) ← index.windowOf hash
  let nominated := window.any fun entry => entry >>> 32 = tag
  let best ← if nominated then bestMatch base target tag s.cursor window none else some none
  pure (hash, best)

/-- The cursor moved past a match, or by one byte. -/
def Scan.advance (target : Bytes) (s : Scan) (hash : UInt64) : Option (Nat × Nat) → Option Scan
  | some (offset, len) => do
    let pending ← slice target s.insertStart s.cursor
    pure { out := appendCopy (appendInsert s.out pending) offset len
           cursor := s.cursor + len
           insertStart := s.cursor + len
           hash
           primed := false }
  | none => do
    let arriving := s.cursor + MIN_COPY
    let hash ← if arriving < target.length then do
        let outByte ← target[s.cursor]?
        let inByte ← target[arriving]?
        pure (rollHash hash outByte inByte)
      else some hash
    pure { s with cursor := s.cursor + 1, hash, primed := true }

/-- The loop of `make_delta`, with `fuel` for the recursion. -/
def makeDeltaFrom (base target : Bytes) (index : BlockIndex) (maxSize : Nat) : Nat → Scan → Option (Option Bytes)
  | 0, _ => none
  | fuel + 1, s =>
    if s.cursor + MIN_COPY ≤ target.length then
      if maxSize < s.out.length + (s.cursor - s.insertStart) then some none
      else do
        let (hash, best) ← s.lookup base target index
        let s ← s.advance target hash best
        makeDeltaFrom base target index maxSize fuel s
    else do
      let rest ← sliceFrom target s.insertStart
      let out := appendInsert s.out rest
      pure (if out.length ≤ maxSize then some out else none)

/-- `make_delta`. -/
def makeDelta (base target : Bytes) (index : BlockIndex) (maxSize : Nat) : Option (Option Bytes) :=
  makeDeltaFrom base target index maxSize (target.length + 1)
    ⟨encodeSize target.length (encodeSize base.length []), 0, 0, 0, false⟩

/-! ## Entries -/

/-- `PackEntry`: an object ready to pack. -/
structure PackEntry where
  id : ObjectId
  kind : Kind
  decompressedSize : Nat
  zlib : Bytes
  /-- The planner's hash of the path of a blob that may be sent as a delta. -/
  deltaGroup : Option UInt32
  deriving DecidableEq, Repr

/-- `output::entry::Kind`. -/
inductive EntryKind
  | base (kind : Kind)
  | deltaRef (objectIndex : Nat)
  deriving DecidableEq, Repr

/-- `output::Entry`: what the pack writer is handed. -/
structure Entry where
  id : ObjectId
  kind : EntryKind
  decompressedSize : Nat
  compressedData : Bytes
  deriving DecidableEq, Repr

/-- `PackOutError`, less the errors of the output. -/
inductive PackOutError (ε : Type)
  | input (e : ε)
  | corruptZlib (oid : ObjectId)
  | truncated (written expected : UInt32)
  deriving DecidableEq, Repr

/-- `full_entry`. -/
def fullEntry (object : PackEntry) : Entry where
  id := object.id
  kind := .base object.kind
  decompressedSize := object.decompressedSize
  compressedData := object.zlib

/-! ## The candidates -/

/-- `DeltaCandidate`: a blob sent in full, at its index in the pack. -/
structure DeltaCandidate where
  entryIndex : Nat
  group : UInt32
  body : Bytes
  deriving DecidableEq, Repr

/-- The bytes a run of candidates retains. -/
def retained (entries : List DeltaCandidate) : Nat := (entries.map fun c => c.body.length).sum

theorem retained_cons (c : DeltaCandidate) (entries : List DeltaCandidate) :
    retained (c :: entries) = c.body.length + retained entries := by
  simp [retained]

/-- `DeltaCandidates`, oldest first: bounded in bytes and in number. -/
structure DeltaCandidates where
  entries : List DeltaCandidate
  bytes : Nat
  bytes_eq : bytes = retained entries
  bytes_le : bytes ≤ MAX_DELTA_CACHE_BYTES
  length_le : entries.length ≤ DELTA_WINDOW

/-- `DeltaCandidates::default`. -/
def DeltaCandidates.empty : DeltaCandidates := ⟨[], 0, rfl, Nat.zero_le _, Nat.zero_le _⟩

/-- `DeltaCandidates::matching`. -/
def DeltaCandidates.matching (candidates : DeltaCandidates) (group : UInt32) : List DeltaCandidate :=
  candidates.entries.filter fun c => c.group = group

/-- The loop of `DeltaCandidates::insert`: the oldest go until a body of `len`
bytes fits. -/
def evict (len : Nat) : List DeltaCandidate → Nat → List DeltaCandidate × Nat
  | [], bytes => ([], bytes)
  | c :: entries, bytes =>
    if MAX_DELTA_CACHE_BYTES < bytes + len ∨ DELTA_WINDOW ≤ entries.length + 1 then
      evict len entries (bytes - c.body.length)
    else (c :: entries, bytes)

theorem evict_spec (len : Nat) : ∀ (entries : List DeltaCandidate) (bytes : Nat), bytes = retained entries →
    (evict len entries bytes).1 <:+ entries ∧ (evict len entries bytes).2 = retained (evict len entries bytes).1 ∧
    (evict len entries bytes).1.length < DELTA_WINDOW ∧
    (len ≤ MAX_DELTA_CACHE_BYTES → (evict len entries bytes).2 + len ≤ MAX_DELTA_CACHE_BYTES)
  | [], bytes, h => by
    subst h
    exact ⟨List.suffix_refl _, rfl, (by decide : 0 < DELTA_WINDOW), fun hlen => by simpa [evict, retained] using hlen⟩
  | c :: entries, bytes, h => by
    have hcons := retained_cons c entries
    rw [evict]
    split
    · obtain ⟨hsuffix, hrest⟩ := evict_spec len entries (bytes - c.body.length) (by omega)
      exact ⟨hsuffix.trans (List.suffix_cons ..), hrest⟩
    · rename_i hfits
      rw [not_or, not_lt, not_le] at hfits
      exact ⟨List.suffix_refl _, h, hfits.2, fun _ => hfits.1⟩

/-- `DeltaCandidates::insert`. -/
def DeltaCandidates.insert (candidates : DeltaCandidates) (entryIndex : Nat) (group : UInt32) (body : Bytes) :
    DeltaCandidates :=
  if h : MAX_DELTA_CACHE_BYTES < body.length then candidates
  else
    let kept := evict body.length candidates.entries candidates.bytes
    have hkept := evict_spec body.length candidates.entries candidates.bytes candidates.bytes_eq
    { entries := kept.1 ++ [⟨entryIndex, group, body⟩]
      bytes := kept.2 + body.length
      bytes_eq := by simp [kept, retained, hkept.2.1]
      bytes_le := hkept.2.2.2 (not_lt.1 h)
      length_le := by
        rw [List.length_append]
        exact hkept.2.2.1 }

/-! ## Writing -/

/-- The candidate loop of `delta_or_full`: each delta accepted tightens the
budget. -/
def bestDelta (body : Bytes) : List DeltaCandidate → Nat → Option (Nat × Bytes) → Option (Option (Nat × Bytes))
  | [], _, best => some best
  | c :: candidates, budget, best => do
    let index ← blockIndex c.body
    match ← makeDelta c.body body index budget with
    | some delta => bestDelta body candidates (delta.length - 1) (some (c.entryIndex, delta))
    | none => bestDelta body candidates budget best

/-- The end of `delta_or_full`: the delta goes out if it saves enough, and the
blob becomes a candidate otherwise. -/
def deltaEntry (zlib : Zlib) (object : PackEntry) (entryIndex : Nat) (group : UInt32) (body : Bytes)
    (candidates : DeltaCandidates) (best : Option (Nat × Bytes)) : Entry × DeltaCandidates :=
  let full := (fullEntry object, candidates.insert entryIndex group body)
  match best with
  | none => full
  | some (baseIndex, delta) =>
    let compressed := zlib.deflate delta 6
    if compressed.length + MIN_DELTA_SAVINGS < object.zlib.length then
      (⟨object.id, .deltaRef baseIndex, delta.length, compressed⟩, candidates)
    else full

variable {ε : Type}

/-- `delta_or_full`. -/
def deltaOrFull (zlib : Zlib) (object : PackEntry) (entryIndex : Nat) (candidates : DeltaCandidates) :
    Option (Except (PackOutError ε) (Entry × DeltaCandidates)) :=
  match object.deltaGroup with
  | none => some (.ok (fullEntry object, candidates))
  | some group =>
    if object.kind ≠ .blob ∨
        ¬ (MIN_DELTA_BLOB_SIZE ≤ object.decompressedSize ∧ object.decompressedSize ≤ MAX_DELTA_BLOB_SIZE) then
      some (.ok (fullEntry object, candidates))
    else
      match zlib.inflate object.zlib object.decompressedSize with
      | none => some (.error (.corruptZlib object.id))
      | some body =>
        (bestDelta body (candidates.matching group) (body.length / 2) none).map fun best =>
          .ok (deltaEntry zlib object entryIndex group body candidates best)

/-- The entries the pack writer draws, and how many were counted when the
input ended; `written` wraps. -/
def handEntries (zlib : Zlib) (ofsDeltas : Bool) : List (Except ε PackEntry) → UInt32 → DeltaCandidates →
    Option (List Entry × Except (PackOutError ε) UInt32)
  | [], written, _ => some ([], .ok written)
  | .error e :: _, _, _ => some ([], .error (.input e))
  | .ok object :: objects, written, candidates =>
    (if ofsDeltas then deltaOrFull zlib object written.toNat candidates
      else some (.ok (fullEntry object, candidates))).bind fun
    | .error e => some ([], .error e)
    | .ok (entry, candidates) =>
      (handEntries zlib ofsDeltas objects (written + 1) candidates).map fun (entries, result) =>
        (entry :: entries, result)

/-- `write_pack_with_options`: the entries handed to a writer that takes them
all, and the result, of which the checksum is the writer's. -/
def writePackWithOptions (zlib : Zlib) (ofsDeltas : Bool) (objects : List (Except ε PackEntry)) (numObjects : UInt32) :
    Option (List Entry × Except (PackOutError ε) Unit) :=
  (handEntries zlib ofsDeltas objects 0 .empty).map fun (entries, result) =>
    (entries, match result with
      | .error e => .error e
      | .ok written => if written ≠ numObjects then .error (.truncated written numObjects) else .ok ())

end PackOut

end Miscreant
