/-
The writers of a fetch response (`src/protocol/upload_pack.rs`): `BandWriter`
frames the pack as side-band packets, `RawWriter` sends it as it is. Both
gather what is written into pieces of `MAX_BAND_DATA` bytes.

What is written is what the pieces and the buffer hold, in order
(`Writer.Holds`); a flush sends the rest. Times and latencies are left out.
-/
import Miscreant.ReceivePack

namespace Miscreant

open Lib

open ReceivePack (MAX_BAND_DATA CHANNEL_DATA)

/-- `io::Error`, of what a writer fails with. -/
inductive StreamError
  | encode (e : Pktline.EncodeError)
  | brokenPipe
  deriving DecidableEq, Repr

/-- The sending end of the response body: the messages sent, oldest first,
and whether the client is still there. -/
structure Sender where
  sent : List Bytes
  connected : Bool

/-- `blocking_send`. -/
def Sender.blockingSend (tx : Sender) (message : Bytes) : Except StreamError Unit × Sender :=
  if tx.connected then (.ok (), { tx with sent := tx.sent ++ [message] }) else (.error .brokenPipe, tx)

/-- How a piece goes over the body channel: the message that carries it. -/
abbrev Framing := Bytes → Except Pktline.EncodeError Bytes

/-- `BandWriter::send_data`: a packet of channel 1. -/
def bandFraming : Framing := fun data => Pktline.bandToWrite CHANNEL_DATA data []

/-- `RawWriter::send_chunk`: the bytes themselves. -/
def rawFraming : Framing := .ok

/-- A piece framed and sent. -/
def Sender.send (frame : Framing) (tx : Sender) (data : Bytes) : Except StreamError Unit × Sender :=
  match frame data with
  | .error e => (.error (.encode e), tx)
  | .ok message => tx.blockingSend message

/-- `BandWriter` and `RawWriter`. -/
structure Writer where
  tx : Sender
  buf : Bytes
  bytesWritten : UInt64

/-- A writer as a response starts with it. -/
def Writer.new : Writer := ⟨⟨[], true⟩, [], 0⟩

/-- The loop of `write`: full pieces are sent off the front of the buffer. -/
def sendFull (frame : Framing) (tx : Sender) (buf : Bytes) : Except StreamError Unit × Sender × Bytes :=
  if MAX_BAND_DATA ≤ buf.length then
    match tx.send frame (buf.take MAX_BAND_DATA) with
    | (.error e, tx) => (.error e, tx, buf.drop MAX_BAND_DATA)
    | (.ok (), tx) => sendFull frame tx (buf.drop MAX_BAND_DATA)
  else (.ok (), tx, buf)
termination_by buf.length
decreasing_by
  simp only [List.length_drop, MAX_BAND_DATA] at *
  omega

/-- `write`. -/
def Writer.write (frame : Framing) (w : Writer) (data : Bytes) : Except StreamError Nat × Writer :=
  match sendFull frame w.tx (w.buf ++ data) with
  | (.error e, tx, buf) => (.error e, ⟨tx, buf, w.bytesWritten + UInt64.ofNat data.length⟩)
  | (.ok (), tx, buf) => (.ok data.length, ⟨tx, buf, w.bytesWritten + UInt64.ofNat data.length⟩)

/-- `flush`. -/
def Writer.flush (frame : Framing) (w : Writer) : Except StreamError Unit × Writer :=
  if w.buf = [] then (.ok (), w)
  else
    match w.tx.send frame w.buf with
    | (x, tx) => (x, { w with tx, buf := [] })

/-- Writes one after another: what each returned, and the writer after it. -/
def Writer.writes (frame : Framing) : Writer → List Bytes → List (Except StreamError Nat × Writer)
  | _, [] => []
  | w, data :: rest => w.write frame data :: writes frame (w.write frame data).2 rest

/-- The writer after all the writes. -/
def Writer.after (frame : Framing) : Writer → List Bytes → Writer
  | w, [] => w
  | w, data :: rest => after frame (w.write frame data).2 rest

/-! ## What a writer holds -/

/-- The messages carry `data` in pieces that are not empty and not too long. -/
def Carries (frame : Framing) (messages : List Bytes) (data : Bytes) : Prop :=
  ∃ pieces : List Bytes, List.Forall₂ (fun piece message => frame piece = .ok message) pieces messages ∧
    (∀ piece ∈ pieces, piece ≠ [] ∧ piece.length ≤ MAX_BAND_DATA) ∧ pieces.flatten = data

/-- Every piece that is not empty and not too long has a message. -/
def Frames (frame : Framing) : Prop :=
  ∀ piece : Bytes, piece ≠ [] → piece.length ≤ MAX_BAND_DATA → ∃ message, frame piece = .ok message

theorem frames_band : Frames bandFraming := by
  intro piece hne hle
  refine ⟨_, Pktline.bandToWrite_fits hne ?_ []⟩
  simp only [Pktline.MAX_DATA_LEN, MAX_BAND_DATA] at hle ⊢
  omega

theorem frames_raw : Frames rawFraming := fun piece _ _ => ⟨piece, rfl⟩

section Holds

variable {frame : Framing} {tx : Sender} {w : Writer} {data : Bytes}

/-- A sender to a client that is there, whose messages carry `data`. -/
structure Sender.Holds (frame : Framing) (tx : Sender) (data : Bytes) : Prop where
  connected : tx.connected = true
  carries : Carries frame tx.sent data

theorem Sender.Holds.send (hframe : Frames frame) (h : tx.Holds frame data) {piece : Bytes} (hne : piece ≠ [])
    (hle : piece.length ≤ MAX_BAND_DATA) :
    ∃ tx', tx.send frame piece = (.ok (), tx') ∧ tx'.Holds frame (data ++ piece) := by
  obtain ⟨message, hmessage⟩ := hframe piece hne hle
  obtain ⟨pieces, hall, hpieces, hflat⟩ := h.carries
  refine ⟨{ tx with sent := tx.sent ++ [message] }, ?_, h.connected, pieces ++ [piece], ?_, ?_, ?_⟩
  · simp [Sender.send, hmessage, Sender.blockingSend, h.connected]
  · exact List.rel_append hall (.cons hmessage .nil)
  · intro p hp
    rcases List.mem_append.1 hp with hp | hp
    · exact hpieces p hp
    · rw [List.mem_singleton.1 hp]
      exact ⟨hne, hle⟩
  · simp [hflat]

/-- The loop of `write` sends the front of the buffer, and leaves less than a
piece. -/
theorem Sender.Holds.sendFull (hframe : Frames frame) (h : tx.Holds frame data) (buf : Bytes) :
    ∃ tx' sent rest, Miscreant.sendFull frame tx buf = (.ok (), tx', rest) ∧ tx'.Holds frame (data ++ sent) ∧
      sent ++ rest = buf ∧ rest.length < MAX_BAND_DATA := by
  induction hn : buf.length using Nat.strong_induction_on generalizing tx data buf with
  | _ n ih =>
    rw [Miscreant.sendFull]
    split
    · rename_i hle
      have hlen : (buf.take MAX_BAND_DATA).length = MAX_BAND_DATA := List.length_take_of_le hle
      have hne : buf.take MAX_BAND_DATA ≠ [] := by
        intro hnil
        rw [hnil] at hlen
        exact absurd hlen (by decide)
      obtain ⟨tx₁, hsend, h₁⟩ := h.send hframe hne (le_of_eq hlen)
      have hdrop : (buf.drop MAX_BAND_DATA).length < n := by
        simp only [List.length_drop, MAX_BAND_DATA] at hle ⊢
        omega
      obtain ⟨tx', sent, rest, hrun, h', hsplit, hrest⟩ := ih _ hdrop h₁ (buf.drop MAX_BAND_DATA) rfl
      refine ⟨tx', buf.take MAX_BAND_DATA ++ sent, rest, ?_, ?_, ?_, hrest⟩
      · rw [hsend]
        exact hrun
      · rw [← List.append_assoc]
        exact h'
      · rw [List.append_assoc, hsplit, List.take_append_drop]
    · exact ⟨tx, [], buf, rfl, by rwa [List.append_nil], rfl, by omega⟩

/-- A writer that has been given `data`. -/
structure Writer.Holds (frame : Framing) (w : Writer) (data : Bytes) : Prop where
  split : ∃ sent, w.tx.Holds frame sent ∧ sent ++ w.buf = data
  buffered : w.buf.length < MAX_BAND_DATA
  counted : w.bytesWritten = UInt64.ofNat data.length

theorem Writer.holds_new : Writer.new.Holds frame [] where
  split := ⟨[], ⟨rfl, [], .nil, by simp, rfl⟩, rfl⟩
  buffered := by decide
  counted := rfl

theorem Writer.Holds.write (hframe : Frames frame) (h : w.Holds frame data) (more : Bytes) :
    ∃ w', w.write frame more = (.ok more.length, w') ∧ w'.Holds frame (data ++ more) := by
  obtain ⟨sent, htx, hsplit⟩ := h.split
  obtain ⟨tx', sent', rest, hrun, htx', hrest, hlt⟩ := htx.sendFull hframe (w.buf ++ more)
  refine ⟨⟨tx', rest, w.bytesWritten + UInt64.ofNat more.length⟩, ?_, ⟨sent ++ sent', htx', ?_⟩, hlt, ?_⟩
  · rw [Writer.write, hrun]
  · rw [← hsplit, List.append_assoc, List.append_assoc, hrest]
  · rw [h.counted, List.length_append, UInt64.ofNat_add]

theorem Writer.Holds.flush (hframe : Frames frame) (h : w.Holds frame data) :
    ∃ w', w.flush frame = (.ok (), w') ∧ w'.Holds frame data ∧ w'.buf = [] := by
  obtain ⟨sent, htx, hsplit⟩ := h.split
  unfold Writer.flush
  split
  · rename_i hnil
    exact ⟨w, rfl, h, hnil⟩
  · rename_i hne
    obtain ⟨tx', hsend, htx'⟩ := htx.send hframe hne (le_of_lt h.buffered)
    have hempty : ([] : Bytes).length < MAX_BAND_DATA := by decide
    refine ⟨{ w with tx := tx', buf := [] }, by rw [hsend], ⟨⟨data, ?_, List.append_nil _⟩, hempty, h.counted⟩, rfl⟩
    rwa [hsplit] at htx'

/-- A run of writes. -/
theorem Writer.Holds.writes (hframe : Frames frame) : ∀ {w : Writer} {data : Bytes} (calls : List Bytes),
    w.Holds frame data →
    List.Forall₂ (fun (call : Bytes) r => r.1 = .ok call.length ∧ r.2.buf.length < MAX_BAND_DATA) calls
      (w.writes frame calls) ∧ (w.after frame calls).Holds frame (data ++ calls.flatten)
  | w, data, [], h => by
    rw [List.flatten_nil, List.append_nil]
    exact ⟨.nil, h⟩
  | w, data, call :: calls, h => by
    obtain ⟨w', hrun, h'⟩ := h.write hframe call
    obtain ⟨hall, hafter⟩ := h'.writes hframe calls
    rw [Writer.writes, Writer.after, hrun, List.flatten_cons, ← List.append_assoc]
    exact ⟨.cons ⟨rfl, h'.buffered⟩ hall, hafter⟩

end Holds

/-- What a response writer does with a run of writes and a flush: each write
takes all its bytes and leaves less than a piece in the buffer, and in the end
the messages carry what was written. -/
structure Lossless (frame : Framing) (calls : List Bytes) : Prop where
  writes : List.Forall₂ (fun (call : Bytes) r => r.1 = .ok call.length ∧ r.2.buf.length < MAX_BAND_DATA) calls
    (Writer.new.writes frame calls)
  flush : ∃ w, (Writer.new.after frame calls).flush frame = (.ok (), w) ∧ w.buf = [] ∧
    Carries frame w.tx.sent calls.flatten ∧ w.bytesWritten = UInt64.ofNat calls.flatten.length

theorem lossless_of_frames {frame : Framing} (hframe : Frames frame) (calls : List Bytes) : Lossless frame calls := by
  obtain ⟨hwrites, hafter⟩ := Writer.holds_new.writes hframe calls
  obtain ⟨w, hflush, ⟨⟨sent, htx, hsplit⟩, -, hcounted⟩, hempty⟩ := hafter.flush hframe
  refine ⟨hwrites, w, hflush, hempty, ?_, hcounted⟩
  rw [hempty, List.append_nil, List.nil_append] at hsplit
  rw [← hsplit]
  exact htx.carries

/-- A packet of a piece fits a pkt-line. -/
theorem length_bandFraming {piece message : Bytes} (h : bandFraming piece = .ok message) (hne : piece ≠ [])
    (hle : piece.length ≤ MAX_BAND_DATA) : message.length ≤ Pktline.MAX_LINE_LEN := by
  have hlt : piece.length < Pktline.MAX_DATA_LEN := by
    simp only [Pktline.MAX_DATA_LEN, MAX_BAND_DATA] at hle ⊢
    omega
  cases (Pktline.bandToWrite_fits hne hlt []).symm.trans h
  rw [List.nil_append, Pktline.length_line, List.length_cons]
  simp only [Pktline.MAX_LINE_LEN, MAX_BAND_DATA] at hle ⊢
  omega

/-- Side-band and raw streaming lose nothing, whatever the sizes of the
writes. -/
theorem streaming_lossless (calls : List Bytes) :
    Lossless bandFraming calls ∧ Lossless rawFraming calls ∧
    ∀ piece message : Bytes, piece ≠ [] → piece.length ≤ MAX_BAND_DATA → bandFraming piece = .ok message →
      message.length ≤ Pktline.MAX_LINE_LEN :=
  ⟨lossless_of_frames frames_band calls, lossless_of_frames frames_raw calls,
    fun _ _ hne hle h => length_bandFraming h hne hle⟩

end Miscreant
