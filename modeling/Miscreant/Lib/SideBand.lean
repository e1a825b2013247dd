/-
Reading a body of pkt-lines to its end (`readPackets`), and telling apart what
came over the bands of a side band (`demux`).

`readPackets_encoded` reads back what was written. A piece carried over a band
arrives in that band, after what came before it (`foldlM_band`).
-/
import Miscreant.Lib.Packets
import Mathlib.Data.List.Monad

namespace Miscreant.Lib.Pktline

/-! ## Packets -/

def readPacketsFrom : Nat → List UInt8 → Option (List PacketLine)
  | 0, data => if data = [] then some [] else none
  | fuel + 1, data =>
    if data = [] then some []
    else
      match streaming data with
      | .ok (.complete p consumed) => (readPacketsFrom fuel (data.drop consumed)).map (p :: ·)
      | _ => none

/-- The packets of a body. Each takes bytes, so their number is fuel enough. -/
def readPackets (data : List UInt8) : Option (List PacketLine) := readPacketsFrom data.length data

theorem readPacketsFrom_encoded : ∀ {packets : List PacketLine} {fuel : Nat}, (∀ p ∈ packets, p.Fits) →
    packets.length ≤ fuel → readPacketsFrom fuel (encodeAll packets) = some packets
  | [], 0, _, _ => rfl
  | [], _ + 1, _, _ => rfl
  | p :: packets, fuel + 1, h, hfuel => by
    have hne : encodeAll (p :: packets) ≠ [] := by
      intro hnil
      have hlen := four_le_length_encode p
      rw [encodeAll_cons, List.append_eq_nil_iff] at hnil
      rw [hnil.1] at hlen
      cases hlen
    rw [readPacketsFrom, if_neg hne, encodeAll_cons, streaming_encode (h p (List.mem_cons_self ..))]
    dsimp only
    rw [List.drop_left, readPacketsFrom_encoded (fun q hq => h q (List.mem_cons_of_mem _ hq))
      (Nat.le_of_succ_le_succ hfuel)]
    rfl

theorem readPackets_encoded {packets : List PacketLine} (h : ∀ p ∈ packets, p.Fits) :
    readPackets (encodeAll packets) = some packets :=
  readPacketsFrom_encoded h (length_le_encodeAll packets)

/-! ## Bands -/

/-- What came over the bands: the data, the lines of progress, an error, and
whether a flush ended it. -/
structure Received where
  data : List UInt8
  progress : List (List UInt8)
  error : Option (List UInt8)
  ended : Bool
  deriving DecidableEq, Repr

/-- One packet; nothing follows the flush. -/
def Received.add (r : Received) (p : PacketLine) : Option Received :=
  if r.ended then none
  else
    match p with
    | .data (channel :: bytes) =>
      if channel = 1 then some { r with data := r.data ++ bytes }
      else if channel = 2 then some { r with progress := r.progress ++ [bytes] }
      else if channel = 3 then some { r with error := some bytes }
      else none
    | .flush => some { r with ended := true }
    | _ => none

/-- The bands told apart. -/
def demux (packets : List PacketLine) : Option Received := packets.foldlM Received.add ⟨[], [], none, false⟩

/-- A piece on a band. -/
def band (channel : UInt8) (piece : List UInt8) : PacketLine := .data (channel :: piece)

theorem Received.add_data {r : Received} (h : r.ended = false) (piece : List UInt8) :
    r.add (band 1 piece) = some { r with data := r.data ++ piece } := by
  unfold Received.add
  rw [h]
  rfl

theorem Received.add_progress {r : Received} (h : r.ended = false) (piece : List UInt8) :
    r.add (band 2 piece) = some { r with progress := r.progress ++ [piece] } := by
  unfold Received.add
  rw [h]
  rfl

theorem Received.add_error {r : Received} (h : r.ended = false) (piece : List UInt8) :
    r.add (band 3 piece) = some { r with error := some piece } := by
  unfold Received.add
  rw [h]
  rfl

theorem Received.add_flush {r : Received} (h : r.ended = false) : r.add .flush = some { r with ended := true } := by
  unfold Received.add
  rw [h]
  rfl

/-- Lines of progress, one after another. -/
theorem foldlM_progress : ∀ {lines : List (List UInt8)} {r : Received}, r.ended = false →
    (lines.map (band 2)).foldlM Received.add r = some { r with progress := r.progress ++ lines }
  | [], r, _ => by
    rw [List.append_nil]
    rfl
  | line :: lines, r, h => by
    have hnext : ({ r with progress := r.progress ++ [line] } : Received).ended = false := h
    rw [List.map_cons, List.foldlM_cons, Received.add_progress h, Option.bind_eq_bind, Option.bind_some,
      foldlM_progress hnext, List.append_assoc, List.singleton_append]

/-- Pieces of data, one after another. -/
theorem foldlM_band : ∀ {pieces : List (List UInt8)} {r : Received}, r.ended = false →
    (pieces.map (band 1)).foldlM Received.add r = some { r with data := r.data ++ pieces.flatten }
  | [], r, _ => by
    rw [List.flatten_nil, List.append_nil]
    rfl
  | piece :: pieces, r, h => by
    have hnext : ({ r with data := r.data ++ piece } : Received).ended = false := h
    rw [List.map_cons, List.foldlM_cons, Received.add_data h, Option.bind_eq_bind, Option.bind_some, foldlM_band hnext,
      List.flatten_cons, List.append_assoc]

end Miscreant.Lib.Pktline
