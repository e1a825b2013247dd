/-
The disk cache in front of the object store
(`src/storage/part_cache/cached_store.rs`, `src/storage/part_cache/storage.rs`
and the entries of `src/storage/part_cache/storage_fs.rs`).

An object is cached in parts of one size, a file each, beside a file of its
head. A read takes the head from its file or with one request to the object
store, whose answer is saved; then each part its range touches, from its file
or with a request of its own. Calls under way for the same head, range or part
share one request (`Miscreant.SingleFlight`).

The file system and the object store are outside: which reads and writes of
files fail and what the object store answers is a parameter (`World`), one
operation after another. Hit and miss counts are answered, not recorded.
-/
import Miscreant.SingleFlight
import Miscreant.Values
import Miscreant.Lib.Prog
import Miscreant.Lib.Slice

namespace Miscreant

open Lib

/-! ## Ranges -/

/-- `Range<u64>`. -/
structure ByteRange where
  start : Nat
  stop : Nat
  deriving DecidableEq, Repr

/-- `GetRange`, and its mirror `GetRangeKey`. -/
inductive GetRange
  | bounded (range : ByteRange)
  | offset (offset : Nat)
  | suffix (suffix : Nat)
  deriving DecidableEq, Repr

inductive InvalidGetRange
  | startTooLarge (requested length : Nat)
  | inconsistent (start stop : Nat)
  deriving DecidableEq, Repr

def InvalidGetRange.message : InvalidGetRange → String
  | startTooLarge requested length => s!"Range start too large, requested: {requested}, length: {length}"
  | inconsistent start stop => s!"Range started at {start} and ended at {stop}"

/-- A multiple of `alignment` at or above `n`. -/
def divCeilMul (n alignment : Nat) : Nat := (n + alignment - 1) / alignment * alignment

/-- `align_range`. The end fits a `u64` where the range is inside an object;
of a request it may not (`alignGetRange`). -/
def alignRange (range : ByteRange) (alignment : Nat) : ByteRange :=
  ⟨range.start - range.start % alignment, divCeilMul range.stop alignment⟩

/-- The concrete offsets of a range of an object of `objectSize` bytes. -/
def canonicalizeRange (range : Option GetRange) (objectSize : Nat) : Except InvalidGetRange ByteRange :=
  match range with
  | none => .ok ⟨0, objectSize⟩
  | some (.bounded range) =>
    if objectSize ≤ range.start then .error (.startTooLarge range.start objectSize)
    else if range.stop ≤ range.start then .error (.inconsistent range.start range.stop)
    else .ok ⟨range.start, min range.stop objectSize⟩
  | some (.offset offset) =>
    if objectSize ≤ offset then .error (.startTooLarge offset objectSize) else .ok ⟨offset, objectSize⟩
  | some (.suffix suffix) => .ok ⟨objectSize - suffix, objectSize⟩

/-! ## Heads -/

/-- `object_store::Attribute`. -/
inductive Attribute
  | cacheControl
  | contentDisposition
  | contentEncoding
  | contentLanguage
  | contentType
  | storageClass
  | metadata (key : String)
  deriving DecidableEq, Repr

/-- `Attributes`, in the order they are iterated over. -/
abbrev Attributes := List (Attribute × String)

/-- `ObjectMeta`; the time is in nanoseconds from the epoch. -/
structure ObjectMeta where
  location : String
  lastModified : Int
  size : Nat
  eTag : Option String
  version : Option String
  deriving DecidableEq, Repr

/-- What is written to a head file. -/
structure LocalCacheHead where
  location : String
  lastModified : String
  size : Nat
  eTag : Option String
  version : Option String
  attributes : List (String × String)
  deriving DecidableEq, Repr

/-- The crates a head goes through: `chrono`, `object_store`'s paths and
`serde_json`. -/
structure HeadCodec where
  toRfc3339 : Int → String
  parseTime : String → Option Int
  pathFrom : String → String
  toJson : LocalCacheHead → Bytes
  fromJson : Bytes → Option LocalCacheHead

/-- The key an attribute is saved under; a storage class is not saved. -/
def Attribute.name : Attribute → Option String
  | cacheControl => some "Cache-Control"
  | contentDisposition => some "Content-Disposition"
  | contentEncoding => some "Content-Encoding"
  | contentLanguage => some "Content-Language"
  | contentType => some "Content-Type"
  | metadata key => some key
  | storageClass => none

def Attribute.ofName (key : String) : Attribute :=
  if key = "Cache-Control" then .cacheControl
  else if key = "Content-Disposition" then .contentDisposition
  else if key = "Content-Encoding" then .contentEncoding
  else if key = "Content-Language" then .contentLanguage
  else if key = "Content-Type" then .contentType
  else .metadata key

/-- `HashMap::insert`, on the entries. -/
def insertEntry {κ : Type} [DecidableEq κ] (key : κ) (value : String) (map : List (κ × String)) : List (κ × String) :=
  map.filter (fun entry => entry.1 ≠ key) ++ [(key, value)]

/-- `LocalCacheHead::from`. -/
def LocalCacheHead.ofMeta (codec : HeadCodec) (info : ObjectMeta) (attributes : Attributes) : LocalCacheHead where
  location := info.location
  lastModified := codec.toRfc3339 info.lastModified
  size := info.size
  eTag := info.eTag
  version := info.version
  attributes := attributes.foldl
    (fun map entry => match entry.1.name with
      | some key => insertEntry key entry.2 map
      | none => map) []

/-- `LocalCacheHead::meta`. -/
def LocalCacheHead.info (codec : HeadCodec) (head : LocalCacheHead) : ObjectMeta where
  location := codec.pathFrom head.location
  lastModified := (codec.parseTime head.lastModified).getD 0
  size := head.size
  eTag := head.eTag
  version := head.version

/-- `LocalCacheHead::attributes`. -/
def LocalCacheHead.attrs (head : LocalCacheHead) : Attributes :=
  head.attributes.foldl (fun map entry => insertEntry (Attribute.ofName entry.1) entry.2 map) []

/-! ## File names -/

/-- `{:09}`. -/
def zeroPadded (n : Nat) : String :=
  String.ofList (List.replicate (9 - (Nat.toDigits 10 n).length) '0' ++ Nat.toDigits 10 n)

/-- `FsCacheEntry::make_part_path`. -/
def makePartPath (rootFolder location : String) (partNumber partSize : Nat) : String :=
  let partSizeName :=
    if partSize % (1024 * 1024) = 0 then s!"{partSize / (1024 * 1024)}mb" else s!"{partSize / 1024}kb"
  rootFolder ++ "/" ++ location ++ "/" ++ "_part" ++ partSizeName ++ "-" ++ zeroPadded partNumber

/-- `FsCacheEntry::make_head_path`. -/
def makeHeadPath (rootFolder location : String) : String := rootFolder ++ "/" ++ location ++ "/" ++ "_head"

/-- The file `atomic_write` writes before it renames it to `path`: the names
above have no extension to replace. -/
def tmpPath (path suffix : String) : String := path ++ "." ++ "_tmp" ++ suffix

/-! ## Operations -/

structure GetOptions where
  range : Option GetRange
  head : Bool
  deriving DecidableEq, Repr

/-- What the object store answers: the body comes in chunks, and may break
off. -/
structure GetResult where
  info : ObjectMeta
  attributes : Attributes
  range : ByteRange
  chunks : List Bytes
  failure : Option String

structure PutResult where
  eTag : Option String
  version : Option String
  deriving DecidableEq, Repr

/-- The three groups of calls under way. -/
inductive Flight
  | head
  | prefetch
  | part
  deriving DecidableEq, Repr

/-- What the calls of a group are told apart by. -/
def Flight.Key : Flight → Type
  | head => String
  | prefetch => String × Option GetRange
  | part => String × Nat

/-- What they share. -/
def Flight.Val : Flight → Type
  | head => ObjectMeta × Attributes
  | prefetch => ObjectMeta × Attributes
  | part => Bytes

instance : (f : Flight) → DecidableEq f.Key
  | .head => inferInstanceAs (DecidableEq String)
  | .prefetch => inferInstanceAs (DecidableEq (String × Option GetRange))
  | .part => inferInstanceAs (DecidableEq (String × Nat))

/-- What a call does to its group (`Miscreant.SingleFlight`). -/
inductive FlightOp (K T : Type)
  | enter (key : K)
  | poll (cell : Nat)
  | settle (cell : Nat) (value : Option T)
  | leave (key : K) (cell : Nat)

def FlightOp.Ans {K T : Type} : FlightOp K T → Type
  | enter _ => Nat
  | poll _ => FlightPoll T
  | settle _ _ => Unit
  | leave _ _ => Unit

def FlightOp.apply {K T : Type} [DecidableEq K] : (o : FlightOp K T) → SingleFlight K T → o.Ans × SingleFlight K T
  | .enter key, s => s.enter key
  | .poll cell, s => s.poll cell
  | .settle cell value, s => ((), s.settle cell value)
  | .leave key cell, s => ((), s.leave key cell)

/-- What the cache asks of the file system, of the object store, and of the
groups of calls under way. -/
inductive CacheOp
  | readFile (path : String)
  | writeFile (path : String) (buf : Bytes)
  | removeFile (path : String)
  | getOpts (location : String) (options : GetOptions)
  | putOpts (location : String) (payload : List Bytes) (attributes : Attributes)
  | flight (f : Flight) (o : FlightOp f.Key f.Val)

def CacheOp.Ans : CacheOp → Type
  | readFile _ => Except Unit (Option Bytes)
  | writeFile _ _ => Except Unit Unit
  | removeFile _ => Unit
  | getOpts _ _ => Except String GetResult
  | putOpts _ _ _ => Except String PutResult
  | flight _ o => o.Ans

def cacheSig : Sig := ⟨CacheOp, CacheOp.Ans⟩

/-- The files of the cache, the calls under way, and the operations so
far. -/
structure PartCacheState where
  files : String → Option Bytes
  flights : (f : Flight) → SingleFlight f.Key f.Val
  clock : Nat

/-- No file, and no call. -/
def PartCacheState.empty : PartCacheState := ⟨fun _ => none, fun _ => .new, 0⟩

/-- What a write of a file comes to: it is skipped when the evictor is behind,
and may fail before or after the rename. -/
structure WriteOutcome where
  written : Bool
  ok : Bool
  deriving DecidableEq, Repr

/-- What the outside does, by the number of operations before. -/
structure World where
  readFails : Nat → String → Bool
  write : Nat → String → WriteOutcome
  get : Nat → String → GetOptions → Except String GetResult
  put : Nat → String → Except String PutResult

def PartCacheState.tick (s : PartCacheState) : PartCacheState := { s with clock := s.clock + 1 }

/-- An operation run at once. A file is replaced by a rename, so it is read
whole or not at all. -/
def World.handler (w : World) : Handler cacheSig PartCacheState
  | .readFile path, s => (if w.readFails s.clock path then .error () else .ok (s.files path), s.tick)
  | .writeFile path buf, s =>
    let outcome := w.write s.clock path
    (if outcome.ok then .ok () else .error (),
      { s.tick with files := if outcome.written then Function.update s.files path (some buf) else s.files })
  | .removeFile path, s => ((), { s.tick with files := Function.update s.files path none })
  | .getOpts location options, s => (w.get s.clock location options, s.tick)
  | .putOpts location _ _, s => (w.put s.clock location, s.tick)
  | .flight f o, s =>
    let (ans, flights) := o.apply (s.flights f)
    (ans, { s.tick with flights := Function.update s.flights f flights })

/-! ## The cache -/

/-- What a read fails with; `panic` is an assertion that does not hold. -/
inductive CacheError
  | upstream (error : String)
  | disk
  | range (error : InvalidGetRange)
  | panic
  deriving DecidableEq, Repr

abbrev CacheProg (α : Type) := Prog cacheSig CacheError α

inductive PartCacheError
  | invalidPartSize (size : Nat)
  deriving DecidableEq, Repr

def PartCacheError.message : PartCacheError → String
  | invalidPartSize size => s!"part size must be a positive multiple of 1024 bytes, got {size}"

structure CachedObjectStore where
  codec : HeadCodec
  rootFolder : String
  partSizeBytes : Nat
  cachePuts : Bool
  valid : 0 < partSizeBytes ∧ 1024 ∣ partSizeBytes

/-- Where a head or a part was read from. -/
inductive ReadResultSource
  | disk
  | upstream
  deriving DecidableEq, Repr

structure PrefetchedHead where
  info : ObjectMeta
  attributes : Attributes
  headSource : ReadResultSource

/-- What `cached_get_opts` answers: the body is a stream, read part by part
as it is asked for. -/
structure CachedGet where
  location : String
  info : ObjectMeta
  attributes : Attributes
  range : ByteRange
  parts : List (Nat × ByteRange)
  headSource : ReadResultSource
  deriving DecidableEq, Repr

namespace CachedObjectStore

def new (codec : HeadCodec) (rootFolder : String) (partSizeBytes : Nat) (cachePuts : Bool) :
    Except PartCacheError CachedObjectStore :=
  if h : 0 < partSizeBytes ∧ 1024 ∣ partSizeBytes then .ok ⟨codec, rootFolder, partSizeBytes, cachePuts, h⟩
  else .error (.invalidPartSize partSizeBytes)

def readFile (path : String) : CacheProg (Option Bytes) :=
  Prog.op (S := cacheSig) (CacheOp.readFile path) fun
    | .ok content => Prog.ret content
    | .error _ => Prog.fail .disk

/-- `FsCacheEntry::atomic_write`. -/
def atomicWrite (path : String) (buf : Bytes) : CacheProg Unit :=
  Prog.op (S := cacheSig) (CacheOp.writeFile path buf) fun
    | .ok _ => Prog.ret ()
    | .error _ => Prog.fail .disk

/-- `ObjectStore::get_opts` of the wrapped store. -/
def upstreamGet (location : String) (options : GetOptions) : CacheProg GetResult :=
  Prog.op (S := cacheSig) (CacheOp.getOpts location options) fun
    | .ok result => Prog.ret result
    | .error e => Prog.fail (.upstream e)

/-- `ObjectStore::put_opts` of the wrapped store. -/
def upstreamPut (location : String) (payload : List Bytes) (attributes : Attributes) : CacheProg PutResult :=
  Prog.op (S := cacheSig) (CacheOp.putOpts location payload attributes) fun
    | .ok result => Prog.ret result
    | .error e => Prog.fail (.upstream e)

/-- `.ok()`: a failure is ignored, a panic is not. -/
def ok {α : Type} (p : CacheProg α) : CacheProg Unit := do
  match ← (p.attempt : CacheProg _) with
  | .error .panic => Prog.fail .panic
  | _ => Prog.ret ()

/-- `SingleFlight::call`, polled `polls` times. A failure or a panic of `func`
gives the permit and the guard back. -/
def call (polls : Nat) (f : Flight) (key : f.Key) (func : CacheProg f.Val) : CacheProg f.Val :=
  Prog.op (S := cacheSig) (CacheOp.flight f (.enter key)) fun (cell : Nat) => do
    let result ← Prog.loop (fun (_ : Unit) =>
      Prog.op (S := cacheSig) (CacheOp.flight f (.poll cell)) fun
        | .ready value => Prog.ret (.inr (.ok value))
        | .pending => Prog.ret (.inl ())
        | .run => do
          match ← (func.attempt : CacheProg _) with
          | .ok value =>
            Prog.op (S := cacheSig) (CacheOp.flight f (.settle cell (some value))) fun _ =>
              Prog.ret (.inr (.ok value))
          | .error e =>
            Prog.op (S := cacheSig) (CacheOp.flight f (.settle cell none)) fun _ => Prog.ret (.inr (.error e)))
      polls ()
    Prog.op (S := cacheSig) (CacheOp.flight f (.leave key cell)) fun _ => Prog.ofExcept result

variable (self : CachedObjectStore) (polls : Nat)

def partPath (location : String) (partNumber : Nat) : String :=
  makePartPath self.rootFolder location partNumber self.partSizeBytes

def headPath (location : String) : String := makeHeadPath self.rootFolder location

/-! ### The entry of an object -/

/-- `FsCacheEntry::read_head`. -/
def readHead (location : String) : CacheProg (Option (ObjectMeta × Attributes)) := do
  match ← readFile (self.headPath location) with
  | none => Prog.ret none
  | some content =>
    match self.codec.fromJson content with
    | none => Prog.fail .disk
    | some head => Prog.ret (some (head.info self.codec, head.attrs))

/-- `FsCacheEntry::save_head`: a head that can be read is left as it is. -/
def saveHead (location : String) (info : ObjectMeta) (attributes : Attributes) : CacheProg Unit := do
  match ← ((self.readHead location).attempt : CacheProg _) with
  | .ok (some _) => Prog.ret ()
  | _ => atomicWrite (self.headPath location) (self.codec.toJson (.ofMeta self.codec info attributes))

/-- `FsCacheEntry::save_part`. -/
def savePart (location : String) (partNumber : Nat) (buf : Bytes) : CacheProg Unit :=
  atomicWrite (self.partPath location partNumber) buf

/-- `FsCacheEntry::read_part`: the bytes are all there, or the read fails. -/
def readPartFile (location : String) (partNumber : Nat) (rangeInPart : ByteRange) : CacheProg (Option Bytes) := do
  match ← readFile (self.partPath location partNumber) with
  | none => Prog.ret none
  | some content =>
    if rangeInPart.stop ≤ rangeInPart.start ∨ rangeInPart.stop ≤ content.length then
      Prog.ret (some (slice content rangeInPart.start rangeInPart.stop))
    else Prog.fail .disk

/-! ### Saving -/

/-- The full parts in the buffer are saved; answers what is left, and the next
part number. -/
def drain (location : String) (buffer : Bytes) (partNumber : Nat) : CacheProg (Bytes × Nat) :=
  Prog.loop (fun (buffer, partNumber) =>
    if self.partSizeBytes ≤ buffer.length then do
      self.savePart location partNumber (buffer.take self.partSizeBytes)
      Prog.ret (.inl (buffer.drop self.partSizeBytes, partNumber + 1))
    else Prog.ret (.inr (buffer, partNumber)))
    (buffer.length + 1) (buffer, partNumber)

/-- The loop of `save_parts_stream`, with its buffer, part number and byte
count. -/
def savePartsFrom (location : String) (failure : Option String) :
    List Bytes → Bytes → Nat → Nat → CacheProg Nat
  | [], buffer, partNumber, total =>
    match failure with
    | some e => Prog.fail (.upstream e)
    | none => do
      if buffer ≠ [] then self.savePart location partNumber buffer
      Prog.ret total
  | chunk :: chunks, buffer, partNumber, total => do
    let (buffer, partNumber) ← self.drain location (buffer ++ chunk) partNumber
    savePartsFrom location failure chunks buffer partNumber (total + chunk.length)

/-- `save_parts_stream`: the stream's chunks, then its failure if it has
one. -/
def savePartsStream (location : String) (chunks : List Bytes) (failure : Option String) (startPartNumber : Nat) :
    CacheProg Nat :=
  self.savePartsFrom location failure chunks [] startPartNumber 0

/-- `save_get_result`, with its two assertions. -/
def saveGetResult (location : String) (result : GetResult) : CacheProg Nat :=
  if self.partSizeBytes ∣ result.range.start ∧
      (self.partSizeBytes ∣ result.range.stop ∨ result.range.stop = result.info.size) then do
    self.saveHead location result.info result.attributes
    let _ ← self.savePartsStream location result.chunks result.failure (result.range.start / self.partSizeBytes)
    Prog.ret result.info.size
  else Prog.fail .panic

/-! ### Reading -/

/-- `align_get_range`. An end that no `u64` holds wraps; where overflow is
checked, the source panics there. -/
def alignGetRange : GetRange → GetRange
  | .bounded bounded =>
    let aligned := alignRange bounded self.partSizeBytes
    .bounded ⟨aligned.start, aligned.stop % 2 ^ 64⟩
  | .suffix suffix => .suffix ((alignRange ⟨0, suffix⟩ self.partSizeBytes).stop % 2 ^ 64)
  | .offset offset => .offset (offset - offset % self.partSizeBytes)

/-- The end of a request, rounded up to whole parts, is a `u64`. -/
def Rounds : Option GetRange → Prop
  | some (.bounded range) => divCeilMul range.stop self.partSizeBytes < 2 ^ 64
  | some (.suffix suffix) => divCeilMul suffix self.partSizeBytes < 2 ^ 64
  | _ => True

instance : (range : Option GetRange) → Decidable (self.Rounds range)
  | some (.bounded range) => inferInstanceAs (Decidable (divCeilMul range.stop self.partSizeBytes < 2 ^ 64))
  | some (.suffix suffix) => inferInstanceAs (Decidable (divCeilMul suffix self.partSizeBytes < 2 ^ 64))
  | some (.offset _) => .isTrue trivial
  | none => .isTrue trivial

/-- `split_range_into_parts`: the ids of the parts, with the range inside
each. -/
def splitRangeIntoParts (range : ByteRange) : List (Nat × ByteRange) :=
  let rangeAligned := alignRange range self.partSizeBytes
  let startPart := rangeAligned.start / self.partSizeBytes
  let endPart := rangeAligned.stop / self.partSizeBytes
  let parts := (List.range' startPart (endPart - startPart)).map fun partId =>
    (partId, (⟨0, self.partSizeBytes⟩ : ByteRange))
  let parts := parts.modify 0 fun part => (part.1, ⟨range.start % self.partSizeBytes, part.2.stop⟩)
  if self.partSizeBytes ∣ range.stop then parts
  else parts.modify (parts.length - 1) fun part => (part.1, ⟨part.2.start, range.stop % self.partSizeBytes⟩)

/-- `cached_head`. -/
def cachedHead (location : String) (admitOnMiss : Bool) : CacheProg (ObjectMeta × Attributes) := do
  match ← ((self.readHead location).attempt : CacheProg _) with
  | .ok (some head) => Prog.ret head
  | _ =>
    call polls .head location do
      let result ← upstreamGet location ⟨none, true⟩
      if admitOnMiss then ok (self.saveGetResult location result)
      Prog.ret (result.info, result.attributes)

/-- `maybe_prefetch_range`. -/
def maybePrefetchRange (location : String) (range : Option GetRange) : CacheProg PrefetchedHead := do
  match ← ((self.readHead location).attempt : CacheProg _) with
  | .ok (some head) => Prog.ret ⟨head.1, head.2, .disk⟩
  | _ =>
    let range := range.map self.alignGetRange
    let head ← call polls .prefetch (location, range) do
      let result ← upstreamGet location ⟨range, false⟩
      ok (self.saveGetResult location result)
      Prog.ret (result.info, result.attributes)
    Prog.ret ⟨head.1, head.2, .upstream⟩

/-- The whole body, or the failure it breaks off with. -/
def body (result : GetResult) : CacheProg Bytes :=
  match result.failure with
  | some e => Prog.fail (.upstream e)
  | none => Prog.ret result.chunks.flatten

/-- `Bytes::slice`, which panics out of bounds. -/
def sliceBytes (bytes : Bytes) (range : ByteRange) : CacheProg Bytes :=
  if range.start ≤ range.stop ∧ range.stop ≤ bytes.length then Prog.ret (slice bytes range.start range.stop)
  else Prog.fail .panic

/-- `read_part`. -/
def readPart (location : String) (partId : Nat) (rangeInPart : ByteRange) (forceRefresh : Bool) :
    CacheProg (Bytes × ReadResultSource) := do
  let cached ←
    if forceRefresh then Prog.ret (.ok none)
    else ((self.readPartFile location partId rangeInPart).attempt : CacheProg (Except CacheError (Option Bytes)))
  match cached with
  | .ok (some bytes) => Prog.ret (bytes, .disk)
  | _ =>
    let bytes ← call polls .part (location, partId) do
      let result ← upstreamGet location
        ⟨some (.bounded ⟨partId * self.partSizeBytes, (partId + 1) * self.partSizeBytes⟩), false⟩
      let bytes ← body result
      ok (self.saveHead location result.info result.attributes)
      ok (self.savePart location partId bytes)
      Prog.ret bytes
    let bytes ← sliceBytes bytes rangeInPart
    Prog.ret (bytes, .upstream)

/-- `cached_get_opts`, up to the body. -/
def cachedGetOpts (location : String) (range : Option GetRange) : CacheProg CachedGet := do
  let head ← self.maybePrefetchRange polls location range
  let range ← Prog.ofExcept ((canonicalizeRange range head.info.size).mapError .range)
  Prog.ret ⟨location, head.info, head.attributes, range, self.splitRangeIntoParts range, head.headSource⟩

/-- The next items of the body's stream, with the hits recorded. -/
def nextParts (forceRefresh : Bool) (get : CachedGet) (parts : List (Nat × ByteRange)) :
    CacheProg (List (Bool × Bytes)) :=
  Prog.forEach (fun part => do
    let (bytes, partSource) ← self.readPart polls get.location part.1 part.2 forceRefresh
    Prog.ret (decide (get.headSource = .disk ∧ partSource = .disk), bytes)) parts

/-- A `get_opts` of which the first `items` items are read. -/
def getOpts (location : String) (range : Option GetRange) (forceRefresh : Bool) (items : Nat) :
    CacheProg (CachedGet × List (Bool × Bytes)) := do
  let get ← self.cachedGetOpts polls location range
  let parts ← self.nextParts polls forceRefresh get (get.parts.take items)
  Prog.ret (get, parts)

/-! ### Writing -/

/-- `build_head`. -/
def buildHead (location : String) (size : Nat) (result : PutResult) : ObjectMeta :=
  ⟨location, 0, size, result.eTag, result.version⟩

/-- `cached_put_opts`. -/
def cachedPutOpts (location : String) (payload : List Bytes) (attributes : Attributes) : CacheProg PutResult :=
  if !self.cachePuts then upstreamPut location payload attributes
  else do
    let result ← upstreamPut location payload attributes
    ok (self.savePartsStream location payload none 0)
    ok (self.saveHead location (buildHead location payload.flatten.length result) attributes)
    Prog.ret result

/-- What a deletion or an eviction does to the files. -/
def removeFiles (paths : List String) : CacheProg Unit := do
  let _ ← Prog.forEach (fun path => Prog.op (S := cacheSig) (CacheOp.removeFile path) fun _ => Prog.ret ()) paths
  Prog.ret ()

end CachedObjectStore

end Miscreant
