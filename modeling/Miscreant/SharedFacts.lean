/-
Object content in the store all repositories share.

A record and the stream behind it hold an object's kind and body (`Holds`),
whichever instance wrote them: an offloaded blob's path is its id's alone, so
the stream there is one of the same body, at whatever level the last writer
compressed it.
-/
import Miscreant.Repo
import Miscreant.RegistryFacts
import Miscreant.UpdateRefsFacts

namespace Miscreant

open Lib

namespace Slate

/-! ## Blob paths -/

theorem length_toHex_toList (oid : ObjectId) : oid.toHex.toList.length = 2 * oid.kind.lenInBytes := by
  rw [ObjectId.toHex, String.toList_ofList, ← oid.len]
  induction oid.bytes with
  | nil => rfl
  | cons b bytes ih =>
    rw [List.flatMap_cons, List.length_append, ih, List.length_cons]
    simp only [hexByte, List.length_map, List.length_cons, List.length_nil]
    omega

theorem toHex_injective : Function.Injective ObjectId.toHex := by
  intro a b h
  have heq := congrArg (fun text => ObjectId.fromHex (asBytes text)) h
  simpa using heq

/-- Different objects have different paths. -/
theorem blobPath_injective : Function.Injective blobPath := by
  intro a b h
  have hlen : ∀ oid : ObjectId, (oid.toHex.toList.take 2).length = 2 := by
    intro oid
    have hwidth : 2 ≤ oid.toHex.toList.length := by
      rw [length_toHex_toList]
      cases oid.kind <;> decide
    rw [List.length_take]
    omega
  have hlist := congrArg String.toList h
  simp only [blobPath, String.toList_append, String.toList_ofList, List.append_assoc] at hlist
  have hrest := List.append_cancel_left (List.append_cancel_left hlist)
  obtain ⟨htake, hdrop⟩ := List.append_inj hrest (by rw [hlen, hlen])
  have hdrop := List.append_cancel_left hdrop
  refine toHex_injective (String.toList_inj.1 ?_)
  rw [← List.take_append_drop 2 a.toHex.toList, htake, hdrop, List.take_append_drop]

/-! ## Objects held -/

/-- The zlib stream behind a record. -/
def streamAt (blobs : String → Option Bytes) (oid : ObjectId) : ObjectRecord → Option Bytes
  | .blobPointer _ => blobs (blobPath oid)
  | .blobInline _ bytes | .tree _ bytes | .commit _ bytes | .tag _ bytes => some bytes

/-- The record is that of the object `kind`, `body`. -/
structure Holds (zlib : Zlib) (blobs : String → Option Bytes) (oid : ObjectId) (kind : Kind) (body : Bytes)
    (record : ObjectRecord) : Prop where
  kind : record.kind = kind
  size : record.size = body.length
  bound : body.length < 2 ^ 64
  stream : ∃ bytes, streamAt blobs oid record = some bytes ∧ zlib.inflate bytes body.length = some body

variable {zlib : Zlib} {s : Slate} {repo : RepoId} {oid : ObjectId} {kind : Kind} {body : Bytes}
  {record : ObjectRecord}

theorem Holds.decode {blobs : String → Option Bytes} (h : Holds zlib blobs oid kind body record) :
    ObjectRecord.decode record.encode = .ok record :=
  ObjectRecord.decode_encode (by rw [h.size]; exact h.bound)

theorem run_get {ε : Type} (key : Bytes) :
    (get key : SlateProg ε _).run handler s = some (.ok (s.kv.data.get key), s) := rfl

theorem run_blobGet {ε : Type} (oid : ObjectId) :
    (blobGet oid : SlateProg ε _).run handler s = some (.ok (s.blobs (blobPath oid)), s) := rfl

theorem run_getDecoded {α : Type} {key bytes : Bytes} {decode : Bytes → Except ValueError α} {a : α}
    (hget : s.kv.data.get key = some bytes) (hdec : decode bytes = .ok a) :
    (getDecoded key decode).run handler s = some (.ok (some a), s) := by
  rw [getDecoded, Prog.run_bind_ok (run_get key), hget]
  simp [hdec, Except.map, Except.mapError, Prog.ofExcept]

theorem run_getDecoded_none {α : Type} {key : Bytes} {decode : Bytes → Except ValueError α}
    (hget : s.kv.data.get key = none) : (getDecoded key decode).run handler s = some (.ok none, s) := by
  rw [getDecoded, Prog.run_bind_ok (run_get key), hget]
  rfl

theorem run_stream {bytes : Bytes} (h : streamAt s.blobs oid record = some bytes) :
    (ObjectDb.stream oid record).run handler s = some (.ok (record.size, bytes), s) := by
  cases record with
  | blobPointer size =>
    have hget : s.blobs (blobPath oid) = some bytes := h
    rw [ObjectDb.stream, Prog.run_bind_ok (run_blobGet oid), hget]
    rfl
  | blobInline len b | tree len b | commit len b | tag len b =>
    cases h
    rfl

/-- What the readers answer of an object that is held. -/
structure Reads (zlib : Zlib) (s : Slate) (repo : RepoId) (oid : ObjectId) (kind : Kind) (body : Bytes) : Prop where
  get : (ObjectDb.get zlib repo oid).run handler s = some (.ok (some (kind, body)), s)
  size : (ObjectDb.size repo oid).run handler s = some (.ok (some (kind, body.length)), s)
  compressed : ∃ bytes, (ObjectDb.readCompressed repo oid).run handler s =
    some (.ok (some (kind, body.length, bytes)), s) ∧ zlib.inflate bytes body.length = some body
  known : (ObjectDb.exists_ repo oid : SlateProg ObjectError Bool).run handler s = some (.ok true, s)

/-- What they answer of one that is not. -/
structure Misses (zlib : Zlib) (s : Slate) (repo : RepoId) (oid : ObjectId) : Prop where
  get : (ObjectDb.get zlib repo oid).run handler s = some (.ok none, s)
  size : (ObjectDb.size repo oid).run handler s = some (.ok none, s)
  compressed : (ObjectDb.readCompressed repo oid).run handler s = some (.ok none, s)
  known : (ObjectDb.exists_ repo oid : SlateProg ObjectError Bool).run handler s = some (.ok false, s)

theorem Holds.reads (h : Holds zlib s.blobs oid kind body record)
    (hget : s.kv.data.get (objectKey repo oid) = some record.encode) : Reads zlib s repo oid kind body := by
  obtain ⟨bytes, hstream, hinflate⟩ := h.stream
  have hrecord : ((getObject repo oid).mapErr ObjectError.store).run handler s = some (.ok (some record), s) := by
    rw [Prog.run_mapErr, getObject, run_getDecoded hget h.decode]
    rfl
  have hrun := run_stream hstream
  refine ⟨?_, ?_, ⟨bytes, ?_, hinflate⟩, ?_⟩
  · rw [ObjectDb.get, Prog.run_bind_ok hrecord]
    refine (Prog.run_bind_ok hrun).trans ?_
    simp only [h.size, hinflate, h.kind]
    rfl
  · rw [ObjectDb.size, Prog.run_bind_ok hrecord, ← h.size, ← h.kind]
    rfl
  · rw [ObjectDb.readCompressed, Prog.run_bind_ok hrecord]
    refine (Prog.run_bind_ok hrun).trans ?_
    rw [h.size, h.kind]
    rfl
  · rw [ObjectDb.exists_, objectExists, Prog.run_bind_ok (run_get _), hget]
    rfl

theorem misses (hget : s.kv.data.get (objectKey repo oid) = none) : Misses zlib s repo oid := by
  have hrecord : ((getObject repo oid).mapErr ObjectError.store).run handler s = some (.ok none, s) := by
    rw [Prog.run_mapErr, getObject, run_getDecoded_none hget]
    rfl
  refine ⟨?_, ?_, ?_, ?_⟩
  · rw [ObjectDb.get, Prog.run_bind_ok hrecord]
    rfl
  · rw [ObjectDb.size, Prog.run_bind_ok hrecord]
    rfl
  · rw [ObjectDb.readCompressed, Prog.run_bind_ok hrecord]
    rfl
  · rw [ObjectDb.exists_, objectExists, Prog.run_bind_ok (run_get _), hget]
    rfl

/-! ## Puts -/

/-- What a put of an object does to the streams: nothing, or a blob's stream
is written under its id. -/
def BlobsAfter (zlib : Zlib) (oid : ObjectId) (kind : Kind) (body : Bytes) (blobs blobs' : String → Option Bytes) :
    Prop :=
  blobs' = blobs ∨
    kind = .blob ∧ ∃ level, blobs' = Function.update blobs (blobPath oid) (some (zlib.deflate body level))

/-- A record goes on holding its object when another put of the same content
writes its stream anew. -/
theorem Holds.after {blobs blobs' : String → Option Bytes} {oid' : ObjectId} {kind' : Kind} {body' : Bytes}
    (h : Holds zlib blobs oid kind body record) (hb : BlobsAfter zlib oid' kind' body' blobs blobs')
    (hsame : oid = oid' → body = body') : Holds zlib blobs' oid kind body record := by
  refine ⟨h.kind, h.size, h.bound, ?_⟩
  rcases hb with rfl | ⟨-, level, rfl⟩
  · exact h.stream
  · obtain ⟨bytes, hstream, hinflate⟩ := h.stream
    cases record with
    | blobPointer size =>
      by_cases heq : oid = oid'
      · refine ⟨zlib.deflate body' level, ?_, ?_⟩
        · simp [streamAt, heq]
        · rw [hsame heq]
          exact zlib.inflate_deflate body' level
      · refine ⟨bytes, ?_, hinflate⟩
        have hne : blobPath oid ≠ blobPath oid' := fun hp => heq (blobPath_injective hp)
        rw [streamAt, Function.update_of_ne hne]
        exact hstream
    | blobInline len b | tree len b | commit len b | tag len b => exact ⟨bytes, hstream, hinflate⟩

theorem run_recordFor {ε : Type} (zlib : Zlib) (db : ObjectDb) (oid : ObjectId) (kind : Kind) (body : Bytes)
    (hlen : body.length < 2 ^ 64) (s : Slate) :
    ∃ record blobs, (db.recordFor zlib oid kind body : SlateProg ε _).run handler s =
      some (.ok record, { s with blobs }) ∧ BlobsAfter zlib oid kind body s.blobs blobs ∧
        Holds zlib blobs oid kind body record := by
  have hinline : ∃ bytes, some (db.compress zlib body) = some bytes ∧ zlib.inflate bytes body.length = some body :=
    ⟨_, rfl, zlib.inflate_deflate body _⟩
  cases kind with
  | blob =>
    by_cases hbig : db.inlineThreshold < body.length
    · refine ⟨.blobPointer body.length, Function.update s.blobs (blobPath oid) (some (db.compress zlib body)), ?_,
        .inr ⟨rfl, _, rfl⟩, rfl, rfl, hlen, _, ?_, zlib.inflate_deflate body db.compressionLevel⟩
      · rw [ObjectDb.recordFor, if_pos hbig]
        rfl
      · simp [streamAt, ObjectDb.compress]
    · refine ⟨.blobInline body.length (db.compress zlib body), s.blobs, ?_, .inl rfl, rfl, rfl, hlen, hinline⟩
      rw [ObjectDb.recordFor, if_neg hbig]
      rfl
  | tree => exact ⟨.tree body.length (db.compress zlib body), s.blobs, rfl, .inl rfl, rfl, rfl, hlen, hinline⟩
  | commit => exact ⟨.commit body.length (db.compress zlib body), s.blobs, rfl, .inl rfl, rfl, rfl, hlen, hinline⟩
  | tag => exact ⟨.tag body.length (db.compress zlib body), s.blobs, rfl, .inl rfl, rfl, rfl, hlen, hinline⟩

/-- A put of an object the repository has a record of does nothing; any other
writes a record that holds it. -/
theorem run_put {ε : Type} (zlib : Zlib) (db : ObjectDb) (repo : RepoId) (oid : ObjectId) (kind : Kind) (body : Bytes)
    (hlen : body.length < 2 ^ 64) (durability : Durability) (s : Slate) :
    ∃ s', (db.put zlib repo oid kind body durability : SlateProg ε _).run handler s = some (.ok (), s') ∧
      (((s.kv.data.get (objectKey repo oid)).isSome ∧ s' = s) ∨
        s.kv.data.get (objectKey repo oid) = none ∧ ∃ record blobs,
          s' = ⟨s.kv.commit [(objectKey repo oid, some record.encode)], blobs⟩ ∧
          BlobsAfter zlib oid kind body s.blobs blobs ∧ Holds zlib blobs oid kind body record) := by
  have hknown : (objectExists repo oid : SlateProg ε _).run handler s =
      some (.ok (s.kv.data.get (objectKey repo oid)).isSome, s) := rfl
  rw [ObjectDb.put, Prog.run_bind_ok hknown]
  cases hget : s.kv.data.get (objectKey repo oid) with
  | some bytes => exact ⟨s, rfl, .inl ⟨rfl, rfl⟩⟩
  | none =>
    obtain ⟨record, blobs, hrun, hb, hholds⟩ := run_recordFor (ε := ε) zlib db oid kind body hlen s
    exact ⟨_, Prog.run_bind_ok hrun, .inr ⟨rfl, record, blobs, rfl, hb, hholds⟩⟩

/-- Every record holds the content of its id. -/
def ContentKept (zlib : Zlib) (content : ObjectId → Option (Kind × Bytes)) (s : Slate) : Prop :=
  ∀ repo oid bytes, s.kv.data.get (objectKey repo oid) = some bytes →
    ∃ kind body record, content oid = some (kind, body) ∧ bytes = record.encode ∧
      Holds zlib s.blobs oid kind body record

theorem get_commit_single {kv : Kv Bytes Bytes} {key value : Bytes} (key' : Bytes) :
    (kv.commit [(key, some value)]).data.get key' = if key' = key then some value else kv.data.get key' := by
  refine (get_setKey kv.data (key, some value) key').trans ?_
  congr

theorem ContentKept.put {content : ObjectId → Option (Kind × Bytes)} (h : ContentKept zlib content s)
    {blobs : String → Option Bytes} (hc : content oid = some (kind, body))
    (hb : BlobsAfter zlib oid kind body s.blobs blobs) (hholds : Holds zlib blobs oid kind body record) :
    ContentKept zlib content ⟨s.kv.commit [(objectKey repo oid, some record.encode)], blobs⟩ := by
  intro repo' oid' bytes hget
  rw [get_commit_single] at hget
  split at hget
  · rename_i heq
    cases hget
    obtain ⟨-, rfl⟩ := objectKey_inj.1 heq
    exact ⟨kind, body, record, hc, rfl, hholds⟩
  · obtain ⟨kind', body', record', hc', rfl, hholds'⟩ := h repo' oid' bytes hget
    refine ⟨kind', body', record', hc', rfl, hholds'.after hb fun heq => ?_⟩
    rw [heq, hc] at hc'
    cases hc'
    rfl

/-- A call of `ObjectDb::put` through one of the instances. Its body is a
slice, whose length is a 64-bit integer. -/
structure PutCall where
  db : ObjectDb
  repo : RepoId
  oid : ObjectId
  kind : Kind
  body : Bytes
  durability : Durability
  addressable : body.length < 2 ^ 64

/-- The call itself. -/
def PutCall.prog (zlib : Zlib) (c : PutCall) : SlateProg ObjectError Unit :=
  c.db.put zlib c.repo c.oid c.kind c.body c.durability

/-- Calls one after another. -/
def putCalls (zlib : Zlib) : List PutCall → SlateProg ObjectError Unit
  | [] => pure ()
  | c :: calls => do
    c.prog zlib
    putCalls zlib calls

/-- The content the calls give an id. -/
def contentOf (calls : List PutCall) (oid : ObjectId) : Option (Kind × Bytes) :=
  (calls.find? fun c => c.oid = oid).map fun c => (c.kind, c.body)

/-- Each id is always put with the same kind and body. -/
def ContentAddressed (calls : List PutCall) : Prop :=
  ∀ c ∈ calls, ∀ c' ∈ calls, c.oid = c'.oid → c.kind = c'.kind ∧ c.body = c'.body

theorem ContentAddressed.contentOf {calls : List PutCall} (h : ContentAddressed calls) {c : PutCall} (hc : c ∈ calls) :
    contentOf calls c.oid = some (c.kind, c.body) := by
  unfold Slate.contentOf
  cases hfind : calls.find? fun c' => c'.oid = c.oid with
  | none => exact absurd (List.find?_eq_none.1 hfind c hc) (by simp)
  | some c' =>
    have hoid : c'.oid = c.oid := by simpa using List.find?_some hfind
    obtain ⟨hkind, hbody⟩ := h c' (List.mem_of_find?_eq_some hfind) c hc hoid
    simp [hkind, hbody]

/-- The repositories' records are those of the calls. -/
def RecordsOf (calls : List PutCall) (s : Slate) : Prop :=
  ∀ repo oid, (s.kv.data.get (objectKey repo oid)).isSome ↔ ∃ c ∈ calls, c.repo = repo ∧ c.oid = oid

theorem run_putCalls {content : ObjectId → Option (Kind × Bytes)} : ∀ {calls done : List PutCall} {s : Slate},
    (∀ c ∈ calls, content c.oid = some (c.kind, c.body)) → ContentKept zlib content s → RecordsOf done s →
    ∃ s', (putCalls zlib calls).run handler s = some (.ok (), s') ∧ ContentKept zlib content s' ∧
      RecordsOf (done ++ calls) s'
  | [], done, s, _, hkept, hrec => ⟨s, rfl, hkept, by simpa using hrec⟩
  | c :: calls, done, s, hc, hkept, hrec => by
    obtain ⟨s₁, hrun, hs₁⟩ := run_put (ε := ObjectError) zlib c.db c.repo c.oid c.kind c.body c.addressable
      c.durability s
    have hstep : ContentKept zlib content s₁ ∧ RecordsOf (done ++ [c]) s₁ := by
      rcases hs₁ with ⟨hsome, rfl⟩ | ⟨-, record, blobs, rfl, hb, hholds⟩
      · refine ⟨hkept, fun repo oid => ?_⟩
        rw [hrec repo oid]
        constructor
        · intro h
          obtain ⟨c', hc', hat⟩ := h
          exact ⟨c', by simp [hc'], hat⟩
        · intro h
          obtain ⟨c', hc', hat⟩ := h
          rcases List.mem_append.1 hc' with hc' | hc'
          · exact ⟨c', hc', hat⟩
          · obtain rfl := List.mem_singleton.1 hc'
            obtain ⟨rfl, rfl⟩ := hat
            exact (hrec _ _).1 hsome
      · refine ⟨hkept.put (hc c (by simp)) hb hholds, fun repo oid => ?_⟩
        rw [get_commit_single]
        split
        · rename_i heq
          obtain ⟨rfl, rfl⟩ := objectKey_inj.1 heq
          simp only [Option.isSome_some, true_iff]
          exact ⟨c, by simp, rfl, rfl⟩
        · rename_i hne
          rw [hrec repo oid]
          constructor
          · intro h
            obtain ⟨c', hc', hat⟩ := h
            exact ⟨c', by simp [hc'], hat⟩
          · intro h
            obtain ⟨c', hc', hat⟩ := h
            rcases List.mem_append.1 hc' with hc' | hc'
            · exact ⟨c', hc', hat⟩
            · obtain rfl := List.mem_singleton.1 hc'
              exact absurd (by rw [hat.1, hat.2]) hne
    have hcalls : ∀ c' ∈ calls, content c'.oid = some (c'.kind, c'.body) :=
      fun c' hc' => hc c' (List.mem_cons_of_mem c hc')
    obtain ⟨s', hrest, hkept', hrec'⟩ := run_putCalls hcalls hstep.1 hstep.2
    exact ⟨s', (Prog.run_bind_ok hrun).trans hrest, hkept', by simpa using hrec'⟩

end Slate

open Slate

/-- **Object content survives every mix of writers.** -/
theorem content_survives (zlib : Zlib) (calls : List PutCall) (hsame : ContentAddressed calls) :
    ∃ s, (putCalls zlib calls).run Slate.handler Slate.empty = some (.ok (), s) ∧
      (∀ c ∈ calls, Reads zlib s c.repo c.oid c.kind c.body) ∧
      (∀ repo oid, (∀ c ∈ calls, ¬ (c.repo = repo ∧ c.oid = oid)) → Misses zlib s repo oid) ∧
      ∀ repo oid bytes size, s.kv.data.get (objectKey repo oid) = some bytes →
        ObjectRecord.decode bytes = .ok (.blobPointer size) → (s.blobs (blobPath oid)).isSome := by
  have hempty : ContentKept zlib (contentOf calls) Slate.empty := fun _ _ _ h => nomatch h
  have hnone : RecordsOf [] Slate.empty := by
    intro repo oid
    simp [Slate.empty, Kv.empty]
  obtain ⟨s, hrun, hkept, hrec⟩ := run_putCalls (fun c hc => hsame.contentOf hc) hempty hnone
  rw [List.nil_append] at hrec
  refine ⟨s, hrun, fun c hc => ?_, fun repo oid hno => ?_, fun repo oid bytes size hget hdec => ?_⟩
  · obtain ⟨bytes, hget⟩ := Option.isSome_iff_exists.1 ((hrec c.repo c.oid).2 ⟨c, hc, rfl, rfl⟩)
    obtain ⟨kind, body, record, hcontent, rfl, hholds⟩ := hkept c.repo c.oid bytes hget
    cases (hsame.contentOf hc).symm.trans hcontent
    exact hholds.reads hget
  · refine misses (Option.not_isSome_iff_eq_none.1 fun hsome => ?_)
    obtain ⟨c, hc, hat⟩ := (hrec repo oid).1 hsome
    exact hno c hc hat
  · obtain ⟨kind, body, record, -, rfl, hholds⟩ := hkept repo oid bytes hget
    cases hholds.decode.symm.trans hdec
    obtain ⟨bytes, hstream, -⟩ := hholds.stream
    exact Option.isSome_iff_exists.2 ⟨bytes, hstream⟩

/-- A blob that one repository offloads and another holds inline. -/
theorem content_survives_sample :
    ∃ s, Reads storedZlib s ⟨1⟩ Sample.blobId .blob Sample.blobBody ∧
      Reads storedZlib s ⟨2⟩ Sample.blobId .blob Sample.blobBody ∧ Misses storedZlib s ⟨3⟩ Sample.blobId := by
  have hlen : Sample.blobBody.length < 2 ^ 64 := by decide
  have hsame : ContentAddressed [⟨⟨0, 6⟩, ⟨1⟩, Sample.blobId, .blob, Sample.blobBody, .durable, hlen⟩,
      ⟨⟨1000, 1⟩, ⟨2⟩, Sample.blobId, .blob, Sample.blobBody, .durable, hlen⟩] := by
    intro c hc c' hc' _
    have hall : ∀ c ∈ [(⟨⟨0, 6⟩, ⟨1⟩, Sample.blobId, .blob, Sample.blobBody, .durable, hlen⟩ : PutCall),
        ⟨⟨1000, 1⟩, ⟨2⟩, Sample.blobId, .blob, Sample.blobBody, .durable, hlen⟩],
        c.kind = .blob ∧ c.body = Sample.blobBody := by simp
    obtain ⟨hkind, hbody⟩ := hall c hc
    obtain ⟨hkind', hbody'⟩ := hall c' hc'
    exact ⟨hkind.trans hkind'.symm, hbody.trans hbody'.symm⟩
  obtain ⟨s, -, hreads, hmisses, -⟩ := content_survives storedZlib _ hsame
  refine ⟨s, hreads _ (List.mem_cons_self ..), hreads _ (List.mem_cons_of_mem _ (List.mem_cons_self ..)), ?_⟩
  refine hmisses ⟨3⟩ Sample.blobId fun c hc hat => ?_
  have hrepo : c.repo = ⟨1⟩ ∨ c.repo = ⟨2⟩ := by
    simp only [List.mem_cons, List.not_mem_nil, or_false] at hc
    rcases hc with rfl | rfl
    · exact .inl rfl
    · exact .inr rfl
  rw [hat.1] at hrepo
  exact absurd hrepo (by decide)

end Miscreant
