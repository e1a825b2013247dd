/-
What a fetch delivers.

The lookups of a plan find its objects (`run_feedObjects`), the entries of the
pack stand for them whether deltas are used or not (`handEntries_resolves`),
and the client reads them back from the response (`fetch_delivers`).
-/
import Miscreant.PackStreamFacts
import Miscreant.PlanFacts

namespace Miscreant

open Lib

open ReceivePack (Response)

namespace UploadPack

/-! ## Lookups -/

section Lookups

variable {E : Env} {db : E.Db} {ε : Type}

/-- An object of the store, ready to pack. -/
structure ReadyFor (E : Env) (db : E.Db) (object : ScheduledObject) (found : PackOut.PackEntry) : Prop where
  id : found.id = object.oid
  content : ∃ body, E.objectAt db object.oid = some (found.kind, body) ∧ PackOut.Inflates E.zlib found body

theorem run_stream {oid : ObjectId} {record : ObjectRecord} {len : Nat} {zlib : Bytes}
    (h : streamAt db oid record = some (len, zlib)) :
    len = record.size ∧ (ObjectDb.stream E oid record).run Db.handler db = some (.ok (len, zlib), db) := by
  cases record with
  | blobPointer size =>
    obtain ⟨bytes, hbytes, heq⟩ := Option.map_eq_some_iff.1 h
    cases heq
    refine ⟨rfl, ?_⟩
    rw [ObjectDb.stream, Prog.run_bind_ok (run_blobGet db oid), hbytes]
    rfl
  | blobInline | tree | commit | tag =>
    cases h
    exact ⟨rfl, rfl⟩

theorem run_readCompressed (hdb : Intact E db) {oid : ObjectId} {kind : Kind} {body : Bytes}
    (ho : E.objectAt db oid = some (kind, body)) :
    ∃ zlib, (ObjectDb.readCompressed E oid).run Db.handler db = some (.ok (some (kind, body.length, zlib)), db) ∧
      E.zlib.inflate zlib body.length = some body := by
  obtain ⟨record, hrecord⟩ := Option.isSome_iff_exists.1 (objectAt_isSome (by rw [ho]; rfl))
  have hsize := hdb.size oid record kind body hrecord ho
  have hkind := objectAt_kind hrecord ho
  rw [Env.objectAt, hrecord, Option.bind_some] at ho
  obtain ⟨⟨len, zlib⟩, hstream, hinflate⟩ := Option.bind_eq_some_iff.1 ho
  obtain ⟨content, hinflate, heq⟩ := Option.map_eq_some_iff.1 hinflate
  cases heq
  obtain ⟨rfl, hrun⟩ := run_stream hstream
  rw [hsize] at hrun hinflate
  refine ⟨zlib, ?_, hinflate⟩
  rw [ObjectDb.readCompressed, Prog.run_bind_ok (run_getObject db oid), hrecord]
  dsimp only
  rw [Prog.run_bind_ok hrun]
  rfl

theorem run_feedObjects (hdb : Intact E db) : ∀ {objects : List ScheduledObject},
    (∀ object ∈ objects, (E.objectAt db object.oid).isSome) →
    ∃ found, (feedObjects E objects : E.Prog ε _).run Db.handler db = some (.ok (found.map .ok), db) ∧
      List.Forall₂ (ReadyFor E db) objects found
  | [], _ => ⟨[], rfl, .nil⟩
  | object :: objects, h => by
    obtain ⟨⟨kind, body⟩, ho⟩ := Option.isSome_iff_exists.1 (h object (List.mem_cons_self ..))
    obtain ⟨zlib, hread, hinflate⟩ := run_readCompressed hdb ho
    obtain ⟨found, hrest, hready⟩ := run_feedObjects hdb fun o hmem => h o (List.mem_cons_of_mem _ hmem)
    refine ⟨⟨object.oid, kind, body.length, zlib, object.deltaGroup⟩ :: found, ?_,
      .cons ⟨rfl, body, ho, hinflate, rfl⟩ hready⟩
    have hattempt : ((ObjectDb.readCompressed E object.oid).attempt : E.Prog ε _).run Db.handler db =
        some (.ok (.ok (some (kind, body.length, zlib))), db) := by
      rw [Prog.run_attempt, hread]
      rfl
    rw [feedObjects, Prog.run_bind_ok hattempt]
    dsimp only
    rw [Prog.run_bind_ok hrest]
    rfl

end Lookups

/-! ## Entries -/

section Entries

variable {ε : Type} {zlib : Zlib}

/-- What an object ready to pack stands for. -/
def contentOf (zlib : Zlib) (object : PackOut.PackEntry) : Option (ObjectId × Kind × Bytes) :=
  (zlib.inflate object.zlib object.decompressedSize).map fun body => (object.id, object.kind, body)

theorem handEntries_full : ∀ (found : List PackOut.PackEntry) (written : UInt32) (candidates : PackOut.DeltaCandidates),
    PackOut.handEntries zlib false (found.map (Except.ok (ε := ε))) written candidates =
      some (found.map PackOut.fullEntry, .ok (written + UInt32.ofNat found.length))
  | [], written, candidates => by
    have hzero : written + UInt32.ofNat 0 = written := UInt32.add_zero written
    rw [List.length_nil, hzero]
    rfl
  | object :: found, written, candidates => by
    rw [List.map_cons, PackOut.handEntries_full_cons, handEntries_full found, Option.map_some, List.length_cons,
      Nat.add_comm found.length, UInt32.ofNat_add, UInt32.add_assoc]
    rfl

theorem resolveAll_full : ∀ (found : List PackOut.PackEntry) (done : List (Option (ObjectId × Kind × Bytes))),
    PackOut.resolveAll zlib (found.map PackOut.fullEntry) done = done ++ found.map (contentOf zlib)
  | [], done => (List.append_nil done).symm
  | object :: found, done => by
    have hresolve : PackOut.resolve zlib done (PackOut.fullEntry object) = contentOf zlib object := by
      unfold PackOut.resolve contentOf PackOut.fullEntry
      cases zlib.inflate object.zlib object.decompressedSize <;> rfl
    rw [List.map_cons, PackOut.resolveAll, hresolve, resolveAll_full found, List.append_assoc]
    rfl

/-- The entries of a pack stand for the objects, sent in full or as deltas. -/
theorem handEntries_resolves (ofsDeltas : Bool) {found : List PackOut.PackEntry} (hlen : found.length < 2 ^ 32)
    (h : ∀ object ∈ found, ∃ body, PackOut.Inflates zlib object body) :
    ∃ entries, PackOut.handEntries zlib ofsDeltas (found.map (Except.ok (ε := ε))) 0 .empty =
        some (entries, .ok (UInt32.ofNat found.length)) ∧
      PackOut.resolveAll zlib entries [] = found.map (contentOf zlib) := by
  have hfull := @handEntries_full ε zlib found 0 .empty
  rw [UInt32.zero_add] at hfull
  cases ofsDeltas with
  | false => exact ⟨_, hfull, by rw [resolveAll_full, List.nil_append]⟩
  | true =>
    have hobjects : ∀ object, Except.ok (ε := ε) object ∈ found.map Except.ok →
        ∃ body, PackOut.Inflates zlib object body := by
      intro object hmem
      obtain ⟨object', hmem, heq⟩ := List.mem_map.1 hmem
      exact Except.ok.inj heq ▸ h object' hmem
    obtain ⟨full, delta, result, hfull', hdelta, hsame⟩ := @PackOut.handEntries_spec ε zlib
      (found.map Except.ok) 0 [] [] .empty .empty rfl (by simpa using hlen) hobjects
      ⟨rfl, fun _ hc => nomatch hc⟩
    cases hfull'.symm.trans hfull
    exact ⟨delta, hdelta, by rw [hsame.resolve_eq, resolveAll_full, List.nil_append]⟩

end Entries

/-! ## Responses -/

/-- A line of text. -/
def textLine (text : String) : Pktline.PacketLine := .data (asBytes text)

/-- The packets before the pack. -/
def leadPackets (done : Bool) (common : List ObjectId) : List Pktline.PacketLine :=
  if done then [] else (acknowledgments common).map textLine ++ [.delimiter]

theorem mem_acknowledgments {common : List ObjectId} {text : String} (h : text ∈ acknowledgments common) :
    text = "acknowledgments\n" ∨ text = "NAK\n" ∨ text = "ready\n" ∨
      ∃ oid : ObjectId, text = "ACK " ++ oid.toHex ++ "\n" := by
  unfold acknowledgments at h
  rcases List.mem_append.1 h with h | h
  · rcases List.mem_append.1 h with h | h
    · exact .inl (List.mem_singleton.1 h)
    · split at h
      · exact .inr (.inl (List.mem_singleton.1 h))
      · obtain ⟨oid, -, rfl⟩ := List.mem_map.1 h
        exact .inr (.inr (.inr ⟨oid, rfl⟩))
  · exact .inr (.inr (.inl (List.mem_singleton.1 h)))

theorem length_ackLine (oid : ObjectId) :
    (asBytes ("ACK " ++ oid.toHex ++ "\n")).length = 2 * oid.kind.lenInBytes + 5 := by
  have hack : (asBytes "ACK ").length = 4 := by decide
  have hlf : (asBytes "\n").length = 1 := by decide
  simp only [asBytes_append, List.length_append, ObjectId.length_toHex, hack, hlf]
  omega

theorem fits_acknowledgments {common : List ObjectId} : ∀ text ∈ acknowledgments common, Pktline.Fits (asBytes text) := by
  intro text h
  unfold Pktline.Fits
  rcases mem_acknowledgments h with rfl | rfl | rfl | ⟨oid, rfl⟩
  · decide
  · decide
  · decide
  · have hlen := length_ackLine oid
    have hkind : oid.kind.lenInBytes ≤ 32 := by cases oid.kind <;> decide
    exact ⟨List.ne_nil_of_length_pos (by omega), by unfold Pktline.MAX_DATA_LEN; omega⟩

theorem fits_leadPackets (done : Bool) (common : List ObjectId) : ∀ p ∈ leadPackets done common, p.Fits := by
  intro p hp
  unfold leadPackets at hp
  split at hp
  · cases hp
  · rcases List.mem_append.1 hp with hp | hp
    · obtain ⟨text, htext, rfl⟩ := List.mem_map.1 hp
      exact fits_acknowledgments text htext
    · rw [List.mem_singleton.1 hp]
      trivial

/-- The client does not take a line of the negotiation for the start of the
pack. -/
theorem ne_packfile_of_lead {done : Bool} {common : List ObjectId} :
    ∀ p ∈ leadPackets done common, p ≠ textLine "packfile\n" := by
  intro p hp heq
  unfold leadPackets at hp
  split at hp
  · cases hp
  · rcases List.mem_append.1 hp with hp | hp
    · obtain ⟨text, htext, rfl⟩ := List.mem_map.1 hp
      have htext' : text = "packfile\n" := asBytes_injective (Pktline.PacketLine.data.inj heq)
      subst htext'
      rcases mem_acknowledgments htext with h | h | h | ⟨oid, h⟩
      · exact absurd h (by decide)
      · exact absurd h (by decide)
      · exact absurd h (by decide)
      · have hlen := length_ackLine oid
        rw [← h] at hlen
        have hkind : 20 ≤ oid.kind.lenInBytes := by cases oid.kind <;> decide
        have hpackfile : (asBytes "packfile\n").length = 9 := by decide
        omega
    · rw [List.mem_singleton.1 hp] at heq
      cases heq

theorem negotiationPrefix_eq (done : Bool) (common : List ObjectId) :
    negotiationPrefix done common =
      .ok (Pktline.encodeAll (leadPackets done common ++ [textLine "packfile\n"])) := by
  have hpackfile : Pktline.Fits (asBytes "packfile\n") := by
    unfold Pktline.Fits
    decide
  have hlines : ∀ l ∈ (acknowledgments common).map asBytes, Pktline.Fits l := by
    intro l hl
    obtain ⟨text, htext, rfl⟩ := List.mem_map.1 hl
    exact fits_acknowledgments text htext
  unfold negotiationPrefix leadPackets
  rw [Pktline.encodeAll_append]
  cases done with
  | true => exact Pktline.dataToWrite_fits hpackfile []
  | false =>
    rw [if_neg Bool.false_ne_true, if_neg Bool.false_ne_true, Pktline.writeAll_data hlines]
    refine (Pktline.dataToWrite_fits hpackfile _).trans ?_
    rw [Pktline.encodeAll_append, Pktline.encodeAll, List.flatMap_map, List.flatMap_map]
    rfl

/-- The response to a fetch as the client reads it: the packets before the
pack, and what the side bands carry after its line. -/
def readFetch (body : Bytes) : Option (List Pktline.PacketLine × Pktline.Received) :=
  (Pktline.readPackets body).bind fun packets =>
    match packets.span (· ≠ textLine "packfile\n") with
    | (_, []) => none
    | (lead, _ :: stream) => (Pktline.demux stream).map (lead, ·)

theorem readFetch_eq {done : Bool} {common : List ObjectId} {stream : List Pktline.PacketLine}
    (h : ∀ p ∈ stream, p.Fits) :
    readFetch (Pktline.encodeAll (leadPackets done common ++ [textLine "packfile\n"]) ++ Pktline.encodeAll stream) =
      (Pktline.demux stream).map (leadPackets done common, ·) := by
  have hfits : ∀ p ∈ leadPackets done common ++ textLine "packfile\n" :: stream, p.Fits := by
    intro p hp
    rcases List.mem_append.1 hp with hp | hp
    · exact fits_leadPackets done common p hp
    · rcases List.mem_cons.1 hp with rfl | hp
      · unfold textLine Pktline.PacketLine.Fits Pktline.Fits
        decide
      · exact h p hp
  have hspan : (leadPackets done common ++ textLine "packfile\n" :: stream).span (· ≠ textLine "packfile\n") =
      (leadPackets done common, textLine "packfile\n" :: stream) := by
    have hlead : ∀ p ∈ leadPackets done common, decide (p ≠ textLine "packfile\n") = true := fun p hp =>
      decide_eq_true (ne_packfile_of_lead p hp)
    rw [List.span_eq_takeWhile_dropWhile, List.takeWhile_append_of_pos hlead, List.dropWhile_append_of_pos hlead,
      List.takeWhile_cons_of_neg (by simp), List.dropWhile_cons_of_neg (by simp), List.append_nil]
  rw [← Pktline.encodeAll_append, List.append_assoc, List.singleton_append, readFetch, Pktline.readPackets_encoded hfits,
    Option.bind_some, hspan]

/-! ## Delivery -/

section Delivery

variable {E : Env} {db db' : E.Db} {ε : Type}

/-- The entries of a pack stand for the objects of a plan, as the store has
them. -/
def StandsFor (E : Env) (db : E.Db) (objects : List ScheduledObject) (entries : List PackOut.Entry) : Prop :=
  PackOut.resolveAll E.zlib entries [] =
    objects.map fun object => (E.objectAt db object.oid).map fun (kind, body) => (object.oid, kind, body)

/-- All of a plan's pack came over the side bands, and an end with no error. -/
structure Whole (E : Env) (db : E.Db) (G : PackBytes) (objectHash : HashKind) (objects : List ScheduledObject)
    (noProgress : Bool) (r : Pktline.Received) : Prop where
  pack : ∃ entries, r.data = G.pack (UInt32.ofNat objects.length) objectHash entries ∧ StandsFor E db objects entries
  error : r.error = none
  ended : r.ended = true
  quiet : noProgress = true → r.progress = []

/-- The client reads, in the response to a fetch, what the negotiation says,
and all of the pack. -/
def Delivers (E : Env) (db : E.Db) (G : PackBytes) (objectHash : HashKind) (args : FetchArgs) (plan : PackPlan)
    (response : Response) : Prop :=
  response.status = 200 ∧ ∃ r, readFetch response.body = some (leadPackets args.done plan.common, r) ∧
    Whole E db G objectHash plan.objects args.noProgress r

theorem contentOf_ready {object : ScheduledObject} {found : PackOut.PackEntry} (h : ReadyFor E db object found) :
    contentOf E.zlib found = (E.objectAt db object.oid).map fun (kind, body) => (object.oid, kind, body) := by
  obtain ⟨body, ho, hinflates⟩ := h.content
  rw [contentOf, hinflates.1, ho, h.id]
  rfl

theorem map_contentOf {objects : List ScheduledObject} {found : List PackOut.PackEntry}
    (h : List.Forall₂ (ReadyFor E db) objects found) :
    found.map (contentOf E.zlib) =
      objects.map fun object => (E.objectAt db object.oid).map fun (kind, body) => (object.oid, kind, body) := by
  induction h with
  | nil => rfl
  | cons hready _ ih => rw [List.map_cons, List.map_cons, contentOf_ready hready, ih]

theorem inflates_of_ready {objects : List ScheduledObject} {found : List PackOut.PackEntry}
    (h : List.Forall₂ (ReadyFor E db) objects found) : ∀ p ∈ found, ∃ body, PackOut.Inflates E.zlib p body := by
  induction h with
  | nil => exact fun _ hp => nomatch hp
  | cons hready _ ih =>
    intro p hp
    rcases List.mem_cons.1 hp with rfl | hp
    · obtain ⟨body, -, hinflates⟩ := hready.content
      exact ⟨body, hinflates⟩
    · exact ih p hp

/-- The entries of objects that are there. -/
theorem handEntries_ready (hdb : Intact E db) {objects : List ScheduledObject} (hlen : objects.length < 2 ^ 32)
    (hobjects : ∀ object ∈ objects, (E.objectAt db object.oid).isSome) (ofsDeltas : Bool) :
    ∃ (found : List PackOut.PackEntry) (entries : List PackOut.Entry),
      (feedObjects E objects : E.Prog ε _).run Db.handler db = some (.ok (found.map .ok), db) ∧
      PackOut.handEntries (ε := FetchObjectError) E.zlib ofsDeltas (found.map .ok) 0 .empty =
        some (entries, .ok (UInt32.ofNat objects.length)) ∧ StandsFor E db objects entries := by
  obtain ⟨found, hfeed, hready⟩ := @run_feedObjects E db ε hdb objects hobjects
  have hcount : found.length = objects.length := hready.length_eq.symm
  obtain ⟨entries, hhand, hresolve⟩ := @handEntries_resolves FetchObjectError E.zlib ofsDeltas found
    (hcount ▸ hlen) (inflates_of_ready hready)
  exact ⟨found, entries, hfeed, hcount ▸ hhand, hresolve.trans (map_contentOf hready)⟩

/-- The response with the pack of objects that are there, over side bands. -/
theorem run_streamPackResponse (hdb : Intact E db) (G : PackBytes) (objectHash : HashKind)
    {objects : List ScheduledObject} (hlen : objects.length < 2 ^ 32)
    (hobjects : ∀ object ∈ objects, (E.objectAt db object.oid).isSome) (lead : Bytes) (noProgress ofsDeltas : Bool) :
    ∃ stream r, (streamPackResponse E G objectHash objects lead true noProgress ofsDeltas : E.Prog ε _).run Db.handler
        db = some (.ok ⟨200, RESULT_CONTENT_TYPE, lead ++ Pktline.encodeAll stream⟩, db) ∧
      (∀ p ∈ stream, p.Fits) ∧ Pktline.demux stream = some r ∧ Whole E db G objectHash objects noProgress r := by
  obtain ⟨found, entries, hfeed, hhand, hstands⟩ := @handEntries_ready E db ε hdb objects hlen hobjects ofsDeltas
  obtain ⟨pieces, hstream, hfits, -, hwhole⟩ := streamPack_packets G (UInt32.ofNat objects.length) objectHash
    noProgress hhand
  refine ⟨streamPackets (UInt32.ofNat objects.length) noProgress pieces (.ok (UInt32.ofNat objects.length)), _, ?_,
    fits_streamPackets _ _ hfits _, demux_packets .., ?_⟩
  · rw [streamPackResponse, Prog.run_bind_ok hfeed, hstream, ← flatten_sent]
    rfl
  · rw [received, if_pos rfl]
    refine ⟨⟨entries, hwhole _ rfl, hstands⟩, rfl, rfl, ?_⟩
    rintro rfl
    rfl

/-- The same without side bands: the pack is the rest of the response. -/
theorem run_streamPackResponse_raw (hdb : Intact E db) (G : PackBytes) (objectHash : HashKind)
    {objects : List ScheduledObject} (hlen : objects.length < 2 ^ 32)
    (hobjects : ∀ object ∈ objects, (E.objectAt db object.oid).isSome) (lead : Bytes) (noProgress ofsDeltas : Bool) :
    ∃ entries, (streamPackResponse E G objectHash objects lead false noProgress ofsDeltas : E.Prog ε _).run Db.handler
        db = some (.ok ⟨200, RESULT_CONTENT_TYPE,
          lead ++ G.pack (UInt32.ofNat objects.length) objectHash entries⟩, db) ∧ StandsFor E db objects entries := by
  obtain ⟨found, entries, hfeed, hhand, hstands⟩ := @handEntries_ready E db ε hdb objects hlen hobjects ofsDeltas
  obtain ⟨tx, hstream, -, hwhole⟩ := streamPack_raw G (UInt32.ofNat objects.length) objectHash noProgress hhand
  refine ⟨entries, ?_, hstands⟩
  rw [streamPackResponse, Prog.run_bind_ok hfeed, hstream, ← hwhole _ rfl]
  rfl

/-- A fetch whose plan is made. -/
theorem run_fetch (hdb : Intact E db') (G : PackBytes) (objectHash : HashKind) {fuel : Nat} {args : List String}
    {parsed : FetchArgs} (hargs : FetchArgs.parse args = .ok parsed) (hne : parsed.wants ≠ []) {plan : PackPlan}
    (hplan : (planPack E fuel parsed.wants parsed.haves parsed.filter parsed.ofsDelta).run Db.handler db =
      some (.ok plan, db'))
    (hlen : plan.objects.length < 2 ^ 32) (hobjects : ∀ object ∈ plan.objects, (E.objectAt db' object.oid).isSome) :
    ∃ response, (fetch E G fuel objectHash args : E.Prog ε _).run Db.handler db = some (.ok response, db') ∧
      Delivers E db' G objectHash parsed plan response := by
  obtain ⟨stream, r, hstream, hfits, hdemux, hwhole⟩ := @run_streamPackResponse E db' ε hdb G objectHash plan.objects
    hlen hobjects (Pktline.encodeAll (leadPackets parsed.done plan.common ++ [textLine "packfile\n"]))
    parsed.noProgress parsed.ofsDelta
  have hattempt : ((planPack E fuel parsed.wants parsed.haves parsed.filter parsed.ofsDelta).attempt :
      E.Prog ε _).run Db.handler db = some (.ok (.ok plan), db') := by
    rw [Prog.run_attempt, hplan]
    rfl
  have hread := @readFetch_eq parsed.done plan.common stream hfits
  rw [hdemux, Option.map_some] at hread
  have hdelivers : Delivers E db' G objectHash parsed plan ⟨200, RESULT_CONTENT_TYPE, _⟩ := ⟨rfl, r, hread, hwhole⟩
  refine ⟨_, ?_, hdelivers⟩
  rw [fetch, hargs]
  dsimp only
  rw [if_neg (by rwa [List.isEmpty_iff]), Prog.run_bind_ok hattempt]
  dsimp only
  rw [if_neg (Nat.not_le.2 hlen), negotiationPrefix_eq]
  exact hstream

/-- What is selected and collected is there. -/
theorem objectAt_of_listed (hdb : Indexed E db) (ht : TreesTyped E db) {wants haves : List ObjectId}
    (hobj : ∀ w ∈ wants, (E.objectAt db w).isSome) {chains : List TagChain} {s : Walker.Select}
    (hchains : List.Forall₂ (E.PeelsToCommit db) (E.wantsOf db .commit .tag wants) chains)
    (hturn : Discovery.Turn (E.infoAt db) (chains.map (·.target)) haves s) {x : ObjectId} {P : Prop}
    (hx : x ∈ s.toSend ++ (chains.flatMap (·.tags)).eraseDups ∨
      (∃ r ∈ E.rootTrees db (s.toSend ++ (chains.flatMap (·.tags)).eraseDups), E.InTree db r x) ∧ P ∨
      x ∈ E.wantsOf db .tree .blob wants) : (E.objectAt db x).isSome := by
  rcases hx with hsent | ⟨⟨root, hroot, hin⟩, -⟩ | hdirect
  · obtain ⟨kind, body, ho, -⟩ := sendable_selected hdb hchains hturn x hsent
    rw [ho]
    rfl
  · exact objectAt_of_inTree ht (Walker.treeAt_of_mem_rootTrees ht hroot) hin
  · exact hobj x ((mem_wantsOf hobj).1 hdirect).1

/-- What is planned is there. -/
theorem exists_plan (hdb : Indexed E db) (ht : TreesTyped E db) {wants : List ObjectId}
    (hw : ∀ w ∈ wants, E.Fetchable db w) (haves : List ObjectId) (filter : FilterSpec) (ofsDeltas : Bool) :
    ∃ N, ∀ fuel ≥ N, ∃ plan, (planPack E fuel wants haves filter ofsDeltas).run Db.handler db = some (.ok plan, db) ∧
      ∀ object ∈ plan.objects, (E.objectAt db object.oid).isSome := by
  have hobj := fun w hwants => objectAt_of_fetchable (hw w hwants)
  by_cases hsome : ∃ w ∈ wants, Walker.Sendable E db w
  · obtain ⟨chains, hchains, N, hN⟩ := run_planPack_history hdb ht hw hsome haves filter ofsDeltas
    refine ⟨N, fun fuel hfuel => ?_⟩
    obtain ⟨plan, s, haveObjects, hrun, hturn, -, -, -, -, hmem⟩ := hN fuel hfuel
    exact ⟨plan, hrun, fun object hobject =>
      objectAt_of_listed hdb ht hobj hchains hturn ((hmem object.oid).1 (List.mem_map_of_mem hobject))⟩
  · have hnone : ∀ w ∈ wants, ¬ Walker.Sendable E db w := fun w hwants hs => hsome ⟨w, hwants, hs⟩
    refine ⟨0, fun fuel _ => ⟨_, run_planPack_direct hdb hw hnone fuel haves filter ofsDeltas, fun object hobject => ?_⟩⟩
    have hmem := List.mem_map_of_mem (f := ScheduledObject.oid) hobject
    rw [map_oid_plainSchedule, List.mem_eraseDups] at hmem
    exact hobj _ ((mem_wantsOf hobj).1 hmem).1

/-- A fetch delivers what it plans. In a repository whose commits are indexed
and whose trees are typed, a request for ids that can be fetched is planned
with fuel enough, and unless there are more objects than a pack can have, the
client reads them all from the response, as the store has them. -/
theorem fetch_delivers (hdb : Indexed E db) (ht : TreesTyped E db) (G : PackBytes) (objectHash : HashKind)
    {args : List String} {parsed : FetchArgs} (hargs : FetchArgs.parse args = .ok parsed) (hne : parsed.wants ≠ [])
    (hw : ∀ w ∈ parsed.wants, E.Fetchable db w) :
    ∃ N, ∀ fuel ≥ N, ∃ plan,
      E.run (planPack E fuel parsed.wants parsed.haves parsed.filter parsed.ofsDelta) db = some (.ok plan, db) ∧
      (plan.objects.length < 2 ^ 32 → ∃ response,
        E.run (fetch E G fuel objectHash args : E.Prog ε _) db = some (.ok response, db) ∧
        Delivers E db G objectHash parsed plan response ∧
        ∀ object ∈ plan.objects, (E.objectAt db object.oid).isSome) := by
  obtain ⟨N, hN⟩ := exists_plan hdb ht hw parsed.haves parsed.filter parsed.ofsDelta
  refine ⟨N, fun fuel hfuel => ?_⟩
  obtain ⟨plan, hplan, hobjects⟩ := hN fuel hfuel
  refine ⟨plan, hplan, fun hlen => ?_⟩
  obtain ⟨response, hrun, hdelivers⟩ := @run_fetch E db db ε hdb.toIntact G objectHash fuel args parsed hargs hne plan
    hplan hlen hobjects
  exact ⟨response, hrun, hdelivers, hobjects⟩

end Delivery

end UploadPack

/-! The sample repository is asked for its tag, a client having its root. -/

namespace Sample

/-- A pack with the streams of its entries and no checksum. -/
def packBytes : UploadPack.PackBytes where
  header := fun count _ => ascii "PACK" ++ [0, 0, 0, 2] ++ u32ToBeBytes count
  entry := fun _ entry => [entry.compressedData]
  trailer := fun objectHash _ => List.replicate objectHash.lenInBytes 0

def fetchArgs : List String := ["want " ++ tagId.toHex, "have " ++ rootId.toHex, "ofs-delta", "done"]

theorem parse_fetchArgs :
    UploadPack.FetchArgs.parse fetchArgs = .ok ⟨[tagId], [rootId], true, false, true, .none⟩ := by
  decide +kernel

theorem fetchable_tag : ∀ w ∈ [tagId], env.Fetchable db w := by
  intro w hw
  rw [List.mem_singleton.1 hw]
  exact .inr ⟨_, peels_tag⟩

/-- A plan for the tag has objects of the repository, each once. -/
theorem length_plan_tag : ∃ N, ∀ fuel ≥ N, ∀ plan db',
    env.run (UploadPack.planPack env fuel [tagId] [rootId] .none true) Sample.db = some (.ok plan, db') →
      plan.objects.length < 2 ^ 32 := by
  have hsend : ∃ w ∈ [tagId], Walker.Sendable env Sample.db w := ⟨tagId, List.mem_singleton_self _, peels_tag.sendable⟩
  obtain ⟨chains, -, N₁, hhistory⟩ := UploadPack.run_planPack_history indexed typed fetchable_tag hsend [rootId] .none true
  obtain ⟨N₂, hpresent⟩ := UploadPack.exists_plan indexed typed fetchable_tag [rootId] .none true
  refine ⟨max N₁ N₂, fun fuel hfuel plan db' hrun => ?_⟩
  obtain ⟨plan₁, -, -, hrun₁, -, -, -, -, hnodup, -⟩ := hhistory fuel (by omega)
  obtain ⟨plan₂, hrun₂, hobjects⟩ := hpresent fuel (by omega)
  cases hrun.symm.trans hrun₁
  cases hrun.symm.trans hrun₂
  have hsub : plan.objects.map (·.oid) ⊆ Sample.objects.map (·.1) := by
    intro x hx
    obtain ⟨object, hobject, rfl⟩ := List.mem_map.1 hx
    obtain ⟨kb, hkb⟩ := Option.isSome_iff_exists.1 (hobjects object hobject)
    exact List.mem_map.2 ⟨(object.oid, kb), mem_of_objectAt hkb, rfl⟩
  have hle := (hnodup.subperm hsub).length_le
  rw [List.length_map] at hle
  exact hle.trans_lt (by decide)

end Sample

open Sample UploadPack in
theorem UploadPack.fetch_delivers_sample : ∃ N, ∀ fuel ≥ N, ∃ plan response,
    env.run (planPack env fuel [tagId] [rootId] .none true) Sample.db = some (.ok plan, Sample.db) ∧
      env.run (fetch env packBytes fuel .sha1 fetchArgs : env.Prog Empty _) Sample.db =
        some (.ok response, Sample.db) ∧
      Delivers env Sample.db packBytes .sha1 ⟨[tagId], [rootId], true, false, true, .none⟩ plan response := by
  obtain ⟨N₁, hN⟩ := @fetch_delivers env Sample.db Empty Sample.indexed Sample.typed packBytes .sha1 _ _ parse_fetchArgs
    (by simp) fetchable_tag
  obtain ⟨N₂, hshort⟩ := length_plan_tag
  refine ⟨max N₁ N₂, fun fuel hfuel => ?_⟩
  obtain ⟨plan, hplan, hresponse⟩ := hN fuel (by omega)
  obtain ⟨response, hrun, hdelivers, -⟩ := hresponse (hshort fuel (by omega) plan _ hplan)
  exact ⟨plan, response, hplan, hrun, hdelivers⟩

end Miscreant
