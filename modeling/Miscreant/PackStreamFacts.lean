/-
The stream of a pack: what the client reads of it.

Whatever the lookups find, the writer does not panic, and what it has sent is
a run of packets that the client can tell apart (`streamPack_received`). The
pack on the data band is whole, or an error follows it.
-/
import Miscreant.FetchResponse
import Miscreant.PackOutFacts
import Miscreant.ReceivePackFacts
import Miscreant.Lib.SideBand

namespace Miscreant

open Lib

open ReceivePack (MAX_BAND_DATA CHANNEL_DATA)

/-! ## Behind earlier messages -/

/-- A sender that had sent other messages before. -/
def Sender.behind (earlier : List Bytes) (tx : Sender) : Sender := { tx with sent := earlier ++ tx.sent }

/-- A writer whose sender had sent other messages before. -/
def Writer.behind (earlier : List Bytes) (w : Writer) : Writer := { w with tx := w.tx.behind earlier }

section Behind

variable (frame : Framing) (earlier : List Bytes)

theorem Sender.send_behind (tx : Sender) (data : Bytes) :
    (tx.behind earlier).send frame data = ((tx.send frame data).1, (tx.send frame data).2.behind earlier) := by
  unfold Sender.send Sender.blockingSend
  cases frame data with
  | error e => rfl
  | ok message =>
    cases hconnected : tx.connected with
    | false => simp [Sender.behind, hconnected]
    | true => simp [Sender.behind, hconnected]

theorem sendFull_behind (tx : Sender) (buf : Bytes) :
    sendFull frame (tx.behind earlier) buf =
      ((sendFull frame tx buf).1, (sendFull frame tx buf).2.1.behind earlier, (sendFull frame tx buf).2.2) := by
  induction hn : buf.length using Nat.strong_induction_on generalizing tx buf with
  | _ n ih =>
    rw [sendFull, sendFull]
    split
    · rename_i hle
      have hdrop : (buf.drop MAX_BAND_DATA).length < n := by
        simp only [List.length_drop, MAX_BAND_DATA] at hle ⊢
        omega
      rw [Sender.send_behind]
      cases hsend : tx.send frame (buf.take MAX_BAND_DATA) with
      | mk outcome tx' =>
        cases outcome with
        | error e => rfl
        | ok _ => exact ih _ hdrop tx' _ rfl
    · rfl

theorem Writer.write_behind (w : Writer) (data : Bytes) :
    (w.behind earlier).write frame data = ((w.write frame data).1, (w.write frame data).2.behind earlier) := by
  have hsend := sendFull_behind frame earlier w.tx (w.buf ++ data)
  unfold Writer.write
  rw [show (w.behind earlier).tx = w.tx.behind earlier from rfl, show (w.behind earlier).buf = w.buf from rfl, hsend]
  cases hrun : sendFull frame w.tx (w.buf ++ data) with
  | mk outcome rest => cases outcome <;> rfl

theorem Writer.flush_behind (w : Writer) :
    (w.behind earlier).flush frame = ((w.flush frame).1, (w.flush frame).2.behind earlier) := by
  unfold Writer.flush
  rw [show (w.behind earlier).buf = w.buf from rfl, show (w.behind earlier).tx = w.tx.behind earlier from rfl]
  split
  · rfl
  · rw [Sender.send_behind]
    rfl

end Behind

namespace UploadPack

section Behind

variable (frame : Framing) (earlier : List Bytes)

theorem writeAllTo_behind : ∀ (w : Writer) (pieces : List Bytes),
    writeAllTo frame (w.behind earlier) pieces =
      ((writeAllTo frame w pieces).1, (writeAllTo frame w pieces).2.behind earlier)
  | _, [] => rfl
  | w, data :: rest => by
    rw [writeAllTo, writeAllTo, Writer.write_behind]
    cases hwrite : w.write frame data with
    | mk outcome w' =>
      cases outcome with
      | error e => rfl
      | ok n => exact writeAllTo_behind w' rest

end Behind

/-! ## The pack -/

theorem exists_deltaOrFull {ε : Type} (zlib : Zlib) (object : PackOut.PackEntry) (entryIndex : Nat)
    (candidates : PackOut.DeltaCandidates) :
    ∃ result, (PackOut.deltaOrFull zlib object entryIndex candidates : Option (Except (PackOut.PackOutError ε) _)) =
      some result := by
  unfold PackOut.deltaOrFull
  split
  · exact ⟨_, rfl⟩
  · rename_i group _
    split
    · exact ⟨_, rfl⟩
    · split
      · exact ⟨_, rfl⟩
      · rename_i body _
        obtain ⟨best, hbest, -⟩ := @PackOut.bestDelta_selects body (candidates.matching group) (body.length / 2)
          (candidates.exists_delta group body)
        exact ⟨_, by rw [hbest, Option.map_some]⟩

/-- No index is out of range, whatever the objects are. -/
theorem exists_handEntries {ε : Type} (zlib : Zlib) (ofsDeltas : Bool) :
    ∀ (objects : List (Except ε PackOut.PackEntry)) (written : UInt32) (candidates : PackOut.DeltaCandidates),
      ∃ entries ended, PackOut.handEntries zlib ofsDeltas objects written candidates = some (entries, ended)
  | [], written, _ => ⟨[], .ok written, rfl⟩
  | .error e :: _, _, _ => ⟨[], .error (.input e), rfl⟩
  | .ok object :: objects, written, candidates => by
    have hentry : ∃ result, (if ofsDeltas then PackOut.deltaOrFull zlib object written.toNat candidates
        else some (.ok (PackOut.fullEntry object, candidates)) : Option (Except (PackOut.PackOutError ε) _)) =
          some result := by
      split
      · exact exists_deltaOrFull ..
      · exact ⟨_, rfl⟩
    obtain ⟨result, hresult⟩ := hentry
    rw [PackOut.handEntries, hresult, Option.bind_some]
    cases result with
    | error e => exact ⟨[], .error e, rfl⟩
    | ok next =>
      obtain ⟨entry, candidates⟩ := next
      obtain ⟨entries, ended, hrest⟩ := exists_handEntries zlib ofsDeltas objects (written + 1) candidates
      refine ⟨entry :: entries, ended, ?_⟩
      dsimp only
      rw [hrest, Option.map_some]

theorem holds_writeAllTo {frame : Framing} (hframe : Frames frame) : ∀ {w : Writer} {data : Bytes} (pieces : List Bytes),
    w.Holds frame data → ∃ w', writeAllTo frame w pieces = (.ok (), w') ∧ w'.Holds frame (data ++ pieces.flatten)
  | w, data, [], h => ⟨w, rfl, by rwa [List.flatten_nil, List.append_nil]⟩
  | w, data, piece :: pieces, h => by
    obtain ⟨w₁, hwrite, h₁⟩ := h.write hframe piece
    obtain ⟨w', hrest, h'⟩ := holds_writeAllTo hframe pieces h₁
    refine ⟨w', ?_, ?_⟩
    · rw [writeAllTo, hwrite]
      exact hrest
    · rwa [List.flatten_cons, ← List.append_assoc]

/-- How the writing of a pack ends, once the input has. -/
def packOutcome (count : UInt32) : Except (PackOut.PackOutError FetchObjectError) UInt32 → Except PackWriteError Unit
  | .error e => .error (.pack e)
  | .ok written => if written ≠ count then .error (.pack (.truncated written count)) else .ok ()

/-- What a writer has sent of a pack: the front of it, and all of it if the
input came to its end. -/
theorem writePackTo_holds {frame : Framing} (hframe : Frames frame) (G : PackBytes) {zlib : Zlib} {ofsDeltas : Bool}
    (objectHash : HashKind) {objects : List (Except FetchObjectError PackOut.PackEntry)} {entries : List PackOut.Entry}
    {ended : Except (PackOut.PackOutError FetchObjectError) UInt32}
    (h : PackOut.handEntries zlib ofsDeltas objects 0 .empty = some (entries, ended)) (count : UInt32) :
    ∃ w sent, writePackTo frame G zlib ofsDeltas objectHash objects count .new = some (packOutcome count ended, w) ∧
      w.tx.Holds frame sent ∧ sent <+: G.pack count objectHash entries ∧
      (∀ written, ended = .ok written → sent = G.pack count objectHash entries) := by
  obtain ⟨w₁, hwrites, h₁⟩ := holds_writeAllTo hframe (G.writes count objectHash entries) Writer.holds_new
  rw [List.nil_append] at h₁
  rw [writePackTo, h, Option.map_some]
  dsimp only
  rw [hwrites]
  cases ended with
  | error e =>
    obtain ⟨sent, htx, hsplit⟩ := h₁.split
    refine ⟨w₁, sent, rfl, htx, ?_, nofun⟩
    exact List.IsPrefix.trans ⟨w₁.buf, hsplit⟩ (List.prefix_append ..)
  | ok written =>
    obtain ⟨w₂, htrailer, h₂⟩ :=
      holds_writeAllTo hframe [G.trailer objectHash (G.writes count objectHash entries).flatten] h₁
    obtain ⟨w₃, hflush, h₃, hempty⟩ := h₂.flush hframe
    obtain ⟨sent, htx, hsplit⟩ := h₃.split
    have hsent : sent = G.pack count objectHash entries := by
      rw [hempty, List.append_nil, List.flatten_singleton] at hsplit
      exact hsplit
    refine ⟨w₃, sent, ?_, htx, hsent ▸ List.prefix_rfl, fun _ _ => hsent⟩
    dsimp only
    rw [htrailer]
    dsimp only
    rw [hflush]
    dsimp only
    by_cases hcount : written ≠ count
    · rw [if_pos hcount, packOutcome, if_pos hcount]
    · rw [if_neg hcount, packOutcome, if_neg hcount]

/-- A pack written after other messages. -/
theorem writePackTo_behind (frame : Framing) (G : PackBytes) (zlib : Zlib) (ofsDeltas : Bool) (objectHash : HashKind)
    (objects : List (Except FetchObjectError PackOut.PackEntry)) (count : UInt32) (earlier : List Bytes) (w : Writer) :
    writePackTo frame G zlib ofsDeltas objectHash objects count (w.behind earlier) =
      (writePackTo frame G zlib ofsDeltas objectHash objects count w).map fun r => (r.1, r.2.behind earlier) := by
  unfold writePackTo
  rw [Option.map_map]
  congr 1
  funext handed
  obtain ⟨entries, ended⟩ := handed
  dsimp only [Function.comp_apply]
  rw [writeAllTo_behind]
  cases writeAllTo frame w (G.writes count objectHash entries) with
  | mk outcome w₁ =>
    cases outcome with
    | error e => rfl
    | ok _ =>
      cases ended with
      | error e => rfl
      | ok written =>
        dsimp only
        rw [writeAllTo_behind]
        cases writeAllTo frame w₁ [G.trailer objectHash (G.writes count objectHash entries).flatten] with
        | mk outcome w₂ =>
          cases outcome with
          | error e => rfl
          | ok _ =>
            dsimp only
            rw [Writer.flush_behind]
            cases w₂.flush frame with
            | mk outcome w₃ =>
              cases outcome with
              | error e => rfl
              | ok _ =>
                dsimp only
                split <;> rfl

/-! ## Lines of text -/

theorem length_asBytes_le (text : String) : (asBytes text).length ≤ 4 * text.length := by
  rw [← String.ofList_toList (s := text), asBytes_ofList, String.length_ofList]
  induction text.toList with
  | nil => exact Nat.zero_le _
  | cons c cs ih =>
    have hc := c.utf8Size_le_four
    rw [List.flatMap_cons, List.length_append, String.length_utf8EncodeChar, List.length_cons]
    omega

theorem length_toString_le (n : UInt32) : (asBytes (toString n)).length ≤ 40 := by
  have hdigits : (toString n).length ≤ 10 :=
    (Nat.length_repr_le_iff (by decide)).2 (lt_trans n.toNat_lt (by decide))
  have hle := length_asBytes_le (toString n)
  omega

/-- A text that a side-band packet can carry. -/
def FitsBand (text : String) : Prop := asBytes text ≠ [] ∧ (asBytes text).length < Pktline.MAX_DATA_LEN

theorem fitsBand_count (before after : String) (n : UInt32) (hne : asBytes before ≠ [])
    (hlen : (asBytes before).length + (asBytes after).length ≤ 100) : FitsBand (before ++ toString n ++ after) := by
  have hdigits := length_toString_le n
  refine ⟨?_, ?_⟩
  · rw [asBytes_append, asBytes_append, List.append_assoc]
    exact List.append_ne_nil_of_left_ne_nil hne _
  · simp only [asBytes_append, List.length_append, Pktline.MAX_DATA_LEN]
    omega

theorem fits_band {channel : UInt8} {piece : Bytes} (h : piece.length < Pktline.MAX_DATA_LEN) :
    (Pktline.band channel piece).Fits :=
  ⟨List.cons_ne_nil _ _, h⟩

/-! ## Packets -/

/-- Packets sent one by one. -/
def sendPackets (tx : Sender) (packets : List Pktline.PacketLine) : Sender :=
  { tx with sent := tx.sent ++ packets.map Pktline.encode }

theorem sendBand_eq {tx : Sender} (htx : tx.connected = true) (channel : UInt8) {text : String} (h : FitsBand text) :
    sendBand tx channel text = sendPackets tx [Pktline.band channel (asBytes text)] := by
  unfold sendBand Sender.send Sender.blockingSend
  dsimp only
  rw [Pktline.bandToWrite_fits h.1 h.2]
  dsimp only
  rw [if_pos htx]
  rfl

/-- The packet of a line of progress, unless the client wants none. -/
def progressPackets (noProgress : Bool) (text : String) : List Pktline.PacketLine :=
  if noProgress then [] else [Pktline.band CHANNEL_PROGRESS (asBytes text)]

theorem sendProgress_eq {tx : Sender} (htx : tx.connected = true) (noProgress : Bool) {text : String}
    (h : FitsBand text) : sendProgress tx noProgress text = sendPackets tx (progressPackets noProgress text) := by
  unfold sendProgress progressPackets
  split
  · rw [sendPackets, List.map_nil, List.append_nil]
  · exact sendBand_eq htx _ h

/-- Messages that carry data are packets of the data band. -/
theorem packets_of_carries {messages : List Bytes} {data : Bytes} (h : Carries bandFraming messages data) :
    ∃ pieces : List Bytes, messages = (pieces.map (Pktline.band 1)).map Pktline.encode ∧ pieces.flatten = data ∧
      ∀ p ∈ pieces.map (Pktline.band 1), p.Fits := by
  obtain ⟨pieces, hall, hpieces, hflat⟩ := h
  have hfits : ∀ piece ∈ pieces, piece.length < Pktline.MAX_DATA_LEN := by
    intro piece hpiece
    have hle := (hpieces piece hpiece).2
    simp only [Pktline.MAX_DATA_LEN, MAX_BAND_DATA] at hle ⊢
    omega
  refine ⟨pieces, ?_, hflat, ?_⟩
  · clear hflat
    rw [List.map_map]
    induction hall with
    | nil => rfl
    | @cons piece message pieces messages hmessage hall ih =>
      have hne := (hpieces piece (List.mem_cons_self ..)).1
      have hband := @Pktline.bandToWrite_fits CHANNEL_DATA piece hne (hfits piece (List.mem_cons_self ..)) []
      cases hband.symm.trans hmessage
      rw [List.map_cons, ← ih (fun p hp => hpieces p (List.mem_cons_of_mem _ hp))
        (fun p hp => hfits p (List.mem_cons_of_mem _ hp))]
      rfl
  · intro p hp
    obtain ⟨piece, hpiece, rfl⟩ := List.mem_map.1 hp
    exact fits_band (hfits piece hpiece)

/-! ## The stream -/

section Stream

variable (G : PackBytes) (zlib : Zlib) (objects : List (Except FetchObjectError PackOut.PackEntry)) (count : UInt32)
  (objectHash : HashKind) (noProgress ofsDeltas : Bool)

theorem FetchObjectError.class_ne_client (e : FetchObjectError) (reason : String) : e.class ≠ .client reason := by
  cases e with
  | objects e => exact e.class_ne_client reason
  | missing oid => exact nofun

/-- An error is not shown to the client. -/
theorem PackOutError.class_ne_client (e : PackOut.PackOutError FetchObjectError) (reason : String) :
    e.class ≠ .client reason := by
  cases e with
  | input e => exact FetchObjectError.class_ne_client e reason
  | corruptZlib | truncated => exact nofun

/-- The text before the pack, and the one after it. -/
def packing : String := "packing " ++ toString count ++ " objects\n"
def packed : String := "packed " ++ toString count ++ " objects\n"

theorem fitsBand_packing : FitsBand (packing count) :=
  fitsBand_count "packing " " objects\n" count (by decide) (by decide)

theorem fitsBand_packed : FitsBand (packed count) :=
  fitsBand_count "packed " " objects\n" count (by decide) (by decide)

theorem fitsBand_internalError : FitsBand "internal error" := by
  unfold FitsBand
  decide

/-- What follows the pieces of the pack. -/
def lastPackets (ended : Except (PackOut.PackOutError FetchObjectError) UInt32) : List Pktline.PacketLine :=
  if ended = .ok count then progressPackets noProgress (packed count) ++ [.flush]
  else [Pktline.band CHANNEL_ERROR (asBytes "internal error")]

/-- The packets of a stream, with the pack in `pieces`. -/
def streamPackets (pieces : List Bytes) (ended : Except (PackOut.PackOutError FetchObjectError) UInt32) :
    List Pktline.PacketLine :=
  progressPackets noProgress (packing count) ++ pieces.map (Pktline.band 1) ++ lastPackets count noProgress ended

variable {count} in
theorem packOutcome_error {ended : Except (PackOut.PackOutError FetchObjectError) UInt32} (h : ended ≠ .ok count) :
    ∃ e, packOutcome count ended = .error (.pack e) := by
  cases ended with
  | error e => exact ⟨e, rfl⟩
  | ok written =>
    have hne : written ≠ count := fun heq => h (heq ▸ rfl)
    exact ⟨.truncated written count, if_pos hne⟩

/-- No error says more to the client. -/
theorem endPack_error (tx : Sender) (e : PackOut.PackOutError FetchObjectError) :
    endPack tx count noProgress (.error (.pack e)) = sendBand tx CHANNEL_ERROR "internal error" := by
  have hclass : (PackWriteError.pack e).class = e.class := rfl
  simp only [endPack, hclass]
  split
  · rename_i reason heq
    exact absurd heq (PackOutError.class_ne_client e reason)
  · rfl
  · rfl

theorem endPack_eq {tx : Sender} (htx : tx.connected = true)
    (ended : Except (PackOut.PackOutError FetchObjectError) UInt32) :
    endPack tx count noProgress (packOutcome count ended) = sendPackets tx (lastPackets count noProgress ended) := by
  unfold lastPackets
  by_cases hended : ended = .ok count
  · have hpacked := sendProgress_eq htx noProgress (fitsBand_packed count)
    unfold packed at hpacked
    rw [hended, packOutcome, if_neg (not_not.2 rfl), if_pos rfl, endPack]
    rw [hpacked, Sender.blockingSend, if_pos (show (sendPackets tx _).connected = true from htx)]
    simp only [sendPackets, List.map_append, List.append_assoc]
    rfl
  · obtain ⟨e, he⟩ := packOutcome_error hended
    rw [if_neg hended, he, endPack_error]
    exact sendBand_eq htx _ fitsBand_internalError

variable {zlib objects ofsDeltas}

/-- The packets of a stream. -/
theorem streamPack_packets {entries : List PackOut.Entry}
    {ended : Except (PackOut.PackOutError FetchObjectError) UInt32}
    (h : PackOut.handEntries zlib ofsDeltas objects 0 .empty = some (entries, ended)) :
    ∃ pieces : List Bytes, streamPack G zlib objects ⟨[], true⟩ count objectHash true noProgress ofsDeltas =
        some (sendPackets ⟨[], true⟩ (streamPackets count noProgress pieces ended)) ∧
      (∀ p ∈ pieces.map (Pktline.band 1), p.Fits) ∧ pieces.flatten <+: G.pack count objectHash entries ∧
      (∀ written, ended = .ok written → pieces.flatten = G.pack count objectHash entries) := by
  obtain ⟨w, sent, hwrite, hholds, hsent, hwhole⟩ := writePackTo_holds frames_band G objectHash h count
  obtain ⟨pieces, hmessages, hflat, hfits⟩ := packets_of_carries hholds.carries
  refine ⟨pieces, ?_, hfits, hflat ▸ hsent, fun written hended => hflat ▸ hwhole written hended⟩
  unfold streamPackets
  have hpacking := @sendProgress_eq ⟨[], true⟩ rfl noProgress _ (fitsBand_packing count)
  -- The writer goes on after the line of progress.
  generalize hearlier : progressPackets noProgress (packing count) = earlier at hpacking ⊢
  have hnew : (⟨sendPackets ⟨[], true⟩ earlier, [], 0⟩ : Writer) = Writer.new.behind (earlier.map Pktline.encode) := by
    simp [Writer.behind, Writer.new, Sender.behind, sendPackets]
  have hconnected : (w.behind (earlier.map Pktline.encode)).tx.connected = true := hholds.connected
  unfold packing at hpacking
  rw [streamPack, if_pos rfl]
  dsimp only
  rw [hpacking, hnew, writePackTo_behind, hwrite, Option.map_some, Option.map_some]
  dsimp only
  rw [endPack_eq count noProgress hconnected]
  simp only [sendPackets, Writer.behind, Sender.behind, hmessages, hholds.connected, List.map_append, List.nil_append,
    List.append_assoc]

theorem deltaEntry_id (object : PackOut.PackEntry) (entryIndex : Nat) (group : UInt32) (body : Bytes)
    (candidates : PackOut.DeltaCandidates) (best : Option (Nat × Bytes)) :
    (PackOut.deltaEntry zlib object entryIndex group body candidates best).1.id = object.id := by
  unfold PackOut.deltaEntry
  split
  · rfl
  · dsimp only
    split <;> rfl

theorem deltaOrFull_id {ε : Type} {object : PackOut.PackEntry} {entryIndex : Nat}
    {candidates candidates' : PackOut.DeltaCandidates} {entry : PackOut.Entry}
    (h : (PackOut.deltaOrFull zlib object entryIndex candidates : Option (Except (PackOut.PackOutError ε) _)) =
      some (.ok (entry, candidates'))) : entry.id = object.id := by
  unfold PackOut.deltaOrFull at h
  split at h
  · cases h
    rfl
  · split at h
    · cases h
      rfl
    · split at h
      · cases h
      · obtain ⟨best, -, hbest⟩ := Option.map_eq_some_iff.1 h
        have hentry := congrArg Prod.fst (Except.ok.inj hbest)
        rw [← show _ = entry from hentry]
        exact deltaEntry_id ..

/-- An input that came to its end was found whole. -/
theorem handEntries_ok {ε : Type} : ∀ {objects : List (Except ε PackOut.PackEntry)} {written n : UInt32}
    {candidates : PackOut.DeltaCandidates} {entries : List PackOut.Entry},
    PackOut.handEntries zlib ofsDeltas objects written candidates = some (entries, .ok n) →
    ∃ found : List PackOut.PackEntry, objects = found.map .ok ∧ entries.map (·.id) = found.map (·.id) ∧
      n = written + UInt32.ofNat found.length
  | [], written, n, candidates, entries, h => by
    cases h
    exact ⟨[], rfl, rfl, by simp⟩
  | .error e :: _, written, n, candidates, entries, h => by cases h
  | .ok object :: objects, written, n, candidates, entries, h => by
    rw [PackOut.handEntries, Option.bind_eq_some_iff] at h
    obtain ⟨result, hresult, h⟩ := h
    cases result with
    | error e => cases h
    | ok next =>
      obtain ⟨entry, candidates'⟩ := next
      obtain ⟨⟨entries', ended⟩, hrest, h⟩ := Option.map_eq_some_iff.1 h
      cases h
      obtain ⟨found, rfl, hids, hn⟩ := handEntries_ok hrest
      have hid : entry.id = object.id := by
        split at hresult
        · exact deltaOrFull_id hresult
        · cases hresult
          rfl
      refine ⟨object :: found, rfl, by rw [List.map_cons, List.map_cons, hid, hids], ?_⟩
      rw [hn, List.length_cons, Nat.add_comm, UInt32.ofNat_add, UInt32.add_assoc]
      rfl

theorem progressPackets_eq (noProgress : Bool) (text : String) :
    progressPackets noProgress text = (if noProgress then [] else [asBytes text]).map (Pktline.band 2) := by
  cases noProgress <;> rfl

theorem fits_progressPackets (noProgress : Bool) {text : String} (h : FitsBand text) :
    ∀ p ∈ progressPackets noProgress text, p.Fits := by
  intro p hp
  rw [progressPackets_eq] at hp
  obtain ⟨piece, hpiece, rfl⟩ := List.mem_map.1 hp
  split at hpiece
  · cases hpiece
  · rw [List.mem_singleton.1 hpiece]
    exact fits_band h.2

theorem fits_lastPackets (ended : Except (PackOut.PackOutError FetchObjectError) UInt32) :
    ∀ p ∈ lastPackets count noProgress ended, p.Fits := by
  intro p hp
  unfold lastPackets at hp
  split at hp
  · rcases List.mem_append.1 hp with hp | hp
    · exact fits_progressPackets noProgress (fitsBand_packed count) p hp
    · rw [List.mem_singleton.1 hp]
      trivial
  · rw [List.mem_singleton.1 hp]
    exact fits_band fitsBand_internalError.2

/-- What the client has after a stream. -/
def received (data : Bytes) (ended : Except (PackOut.PackOutError FetchObjectError) UInt32) : Pktline.Received :=
  if ended = .ok count then
    ⟨data, if noProgress then [] else [asBytes (packing count), asBytes (packed count)], none, true⟩
  else ⟨data, if noProgress then [] else [asBytes (packing count)], some (asBytes "internal error"), false⟩

theorem demux_packets (pieces : List Bytes) (ended : Except (PackOut.PackOutError FetchObjectError) UInt32) :
    Pktline.demux (streamPackets count noProgress pieces ended) =
      some (received count noProgress pieces.flatten ended) := by
  unfold received streamPackets
  have hstart := progressPackets_eq noProgress (packing count)
  have hend := progressPackets_eq noProgress (packed count)
  rw [Pktline.demux, List.foldlM_append, List.foldlM_append, hstart, Pktline.foldlM_progress rfl, Option.bind_eq_bind,
    Option.bind_some, Pktline.foldlM_band rfl, Option.bind_some, lastPackets]
  by_cases hended : ended = .ok count
  · rw [if_pos hended, if_pos hended, List.foldlM_append, hend, Pktline.foldlM_progress rfl,
      Option.bind_eq_bind, Option.bind_some, List.foldlM_cons, Pktline.Received.add_flush rfl]
    cases noProgress <;> rfl
  · rw [if_neg hended, if_neg hended, List.foldlM_cons, CHANNEL_ERROR, Pktline.Received.add_error rfl]
    cases noProgress <;> rfl

theorem fits_streamPackets {pieces : List Bytes} (h : ∀ p ∈ pieces.map (Pktline.band 1), p.Fits)
    (ended : Except (PackOut.PackOutError FetchObjectError) UInt32) :
    ∀ p ∈ streamPackets count noProgress pieces ended, p.Fits := by
  intro p hp
  rcases List.mem_append.1 hp with hp | hp
  · rcases List.mem_append.1 hp with hp | hp
    · exact fits_progressPackets noProgress (fitsBand_packing count) p hp
    · exact h p hp
  · exact fits_lastPackets count noProgress ended p hp

theorem flatten_sent (packets : List Pktline.PacketLine) :
    (sendPackets ⟨[], true⟩ packets).sent.flatten = Pktline.encodeAll packets := by
  rw [sendPackets, List.nil_append, ← List.flatMap_def]
  rfl

/-- The client reads the packets of a stream. -/
theorem received_packets {pieces : List Bytes} (h : ∀ p ∈ pieces.map (Pktline.band 1), p.Fits)
    (ended : Except (PackOut.PackOutError FetchObjectError) UInt32) :
    (Pktline.readPackets (sendPackets ⟨[], true⟩ (streamPackets count noProgress pieces ended)).sent.flatten).bind
        Pktline.demux = some (received count noProgress pieces.flatten ended) := by
  rw [flatten_sent, Pktline.readPackets_encoded (fits_streamPackets count noProgress h ended), Option.bind_some,
    demux_packets]

/-- What is sent without side bands. -/
theorem streamPack_raw {entries : List PackOut.Entry} {ended : Except (PackOut.PackOutError FetchObjectError) UInt32}
    (h : PackOut.handEntries zlib ofsDeltas objects 0 .empty = some (entries, ended)) :
    ∃ tx, streamPack G zlib objects ⟨[], true⟩ count objectHash false noProgress ofsDeltas = some tx ∧
      tx.sent.flatten <+: G.pack count objectHash entries ∧
      (∀ written, ended = .ok written → tx.sent.flatten = G.pack count objectHash entries) := by
  obtain ⟨w, sent, hwrite, hholds, hsent, hwhole⟩ := writePackTo_holds frames_raw G objectHash h count
  have hflat : w.tx.sent.flatten = sent := by
    obtain ⟨pieces, hall, -, hflat⟩ := hholds.carries
    have heq : pieces = w.tx.sent := List.forall₂_eq_eq_eq ▸ hall.imp fun _ _ h => Except.ok.inj h
    rw [← heq, hflat]
  refine ⟨w.tx, ?_, hflat ▸ hsent, fun written hended => hflat ▸ hwhole written hended⟩
  have hnew : (⟨⟨[], true⟩, [], 0⟩ : Writer) = .new := rfl
  rw [streamPack, if_neg Bool.false_ne_true, hnew, hwrite, Option.map_some]

variable (zlib objects ofsDeltas)

/-- Whatever the lookups find, the response is well formed, and never says that
a pack is whole that is not: the data band carries the front of the pack; a
flush ends it after all of the pack, of all the objects and with no error;
and where no flush ends it, an error does. Without side bands, the front of the
pack is all that is sent. -/
theorem streamPack_received :
    ∃ entries ended tx r,
      PackOut.handEntries zlib ofsDeltas objects 0 .empty = some (entries, ended) ∧
      streamPack G zlib objects ⟨[], true⟩ count objectHash true noProgress ofsDeltas = some tx ∧
      (Pktline.readPackets tx.sent.flatten).bind Pktline.demux = some r ∧
      r.data <+: G.pack count objectHash entries ∧ (r.ended = true ↔ ended = .ok count) ∧
      (r.ended = true → r.data = G.pack count objectHash entries ∧ r.error = none ∧
        ∃ found : List PackOut.PackEntry, objects = found.map .ok ∧ entries.map (·.id) = found.map (·.id) ∧
          count = UInt32.ofNat found.length) ∧
      (r.ended = false → r.error = some (asBytes "internal error")) ∧ (noProgress = true → r.progress = []) ∧
      ∃ raw, streamPack G zlib objects ⟨[], true⟩ count objectHash false noProgress ofsDeltas = some raw ∧
        raw.sent.flatten <+: G.pack count objectHash entries ∧
        (ended = .ok count → raw.sent.flatten = G.pack count objectHash entries) := by
  obtain ⟨entries, ended, hhand⟩ := exists_handEntries zlib ofsDeltas objects 0 .empty
  obtain ⟨pieces, hstream, hfits, hfront, hwhole⟩ := streamPack_packets G count objectHash noProgress hhand
  obtain ⟨raw, hraw, hrawFront, hrawWhole⟩ := streamPack_raw G count objectHash noProgress hhand
  refine ⟨entries, ended, _, _, hhand, hstream, received_packets count noProgress hfits ended, ?_⟩
  by_cases hended : ended = .ok count
  · subst hended
    obtain ⟨found, hfound, hids, hcount⟩ := handEntries_ok hhand
    rw [received, if_pos rfl]
    refine ⟨hfront, iff_of_true rfl rfl, fun _ => ⟨hwhole count rfl, rfl, found, hfound, hids, ?_⟩, nofun, ?_,
      raw, hraw, hrawFront, hrawWhole count⟩
    · rwa [UInt32.zero_add] at hcount
    · rintro rfl
      rfl
  · rw [received, if_neg hended]
    refine ⟨hfront, iff_of_false Bool.false_ne_true hended, nofun, fun _ => rfl, ?_, raw, hraw, hrawFront,
      hrawWhole count⟩
    rintro rfl
    rfl

end Stream

end UploadPack

end Miscreant
