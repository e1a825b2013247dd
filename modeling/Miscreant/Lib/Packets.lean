/-
Sequences of pkt-lines. `foldPackets` reads packets up to a flush, a step
function taking each of them; on what was encoded it is the fold of the step
over the packets (`foldPackets_encoded`), and on a strict prefix of that it
is nothing (`foldPackets_truncated`).
-/
import Miscreant.Lib.Pktline

namespace Miscreant.Lib.Pktline

/-- A packet as it is written. -/
def encode : PacketLine → List UInt8
  | .data bytes => line bytes
  | .flush => FLUSH_LINE
  | .delimiter => DELIMITER_LINE
  | .responseEnd => RESPONSE_END_LINE

/-- A packet that can be written. -/
def PacketLine.Fits : PacketLine → Prop
  | .data bytes => Pktline.Fits bytes
  | _ => True

/-- Packets one after another. -/
def encodeAll (packets : List PacketLine) : List UInt8 := packets.flatMap encode

@[simp] theorem encodeAll_nil : encodeAll [] = [] := rfl

@[simp] theorem encodeAll_cons (p : PacketLine) (packets : List PacketLine) :
    encodeAll (p :: packets) = encode p ++ encodeAll packets := rfl

theorem encodeAll_append (ps qs : List PacketLine) : encodeAll (ps ++ qs) = encodeAll ps ++ encodeAll qs :=
  List.flatMap_append

theorem four_le_length_encode (p : PacketLine) : 4 ≤ (encode p).length := by
  cases p with
  | data bytes =>
    rw [encode, length_line]
    omega
  | flush | delimiter | responseEnd => exact le_rfl

theorem length_le_encodeAll : ∀ packets : List PacketLine, packets.length ≤ (encodeAll packets).length
  | [] => le_rfl
  | p :: packets => by
    have hle := length_le_encodeAll packets
    have hfour := four_le_length_encode p
    rw [encodeAll_cons, List.length_append, List.length_cons]
    omega

/-- A turn for each byte is enough for a section. -/
theorem length_lt_section (packets : List PacketLine) (rest : List UInt8) :
    packets.length < (encodeAll packets ++ encode .flush ++ rest).length := by
  have hle := length_le_encodeAll packets
  have hfour := four_le_length_encode .flush
  rw [List.length_append, List.length_append]
  omega

/-! ## One packet -/

theorem streaming_encode {p : PacketLine} (h : p.Fits) (rest : List UInt8) :
    streaming (encode p ++ rest) = .ok (.complete p (encode p).length) := by
  cases p with
  | data bytes =>
    rw [encode, streaming_line h, length_line]
  | flush => exact streaming_flush rest
  | delimiter | responseEnd =>
    unfold streaming
    rw [if_neg (by simp [encode, DELIMITER_LINE, RESPONSE_END_LINE])]
    rfl

theorem streaming_short {data : List UInt8} (h : data.length < 4) : ∃ n, streaming data = .ok (.incomplete n) :=
  ⟨_, if_pos h⟩

/-- A packet that is cut short is incomplete. -/
theorem streaming_truncated {p : PacketLine} (h : p.Fits) {cut : List UInt8} (hcut : cut <+: encode p)
    (hne : cut ≠ encode p) : ∃ n, streaming cut = .ok (.incomplete n) := by
  have hlt : cut.length < (encode p).length := by
    refine lt_of_le_of_ne hcut.length_le fun heq => hne ?_
    exact hcut.eq_of_length heq
  cases p with
  | flush | delimiter | responseEnd => exact streaming_short hlt
  | data bytes =>
    rcases Nat.lt_or_ge cut.length 4 with hshort | hfour
    · exact streaming_short hshort
    obtain ⟨hnil, hle⟩ := h
    have hpos : 0 < bytes.length := List.length_pos_of_ne_nil hnil
    rw [encode, length_line] at hlt
    unfold MAX_DATA_LEN at hle
    have hbound : bytes.length + 4 < 65536 := by omega
    have htake : cut.take 4 = hexLen (bytes.length + 4) := by
      rw [List.prefix_iff_eq_take.1 hcut, List.take_take, Nat.min_eq_left hfour]
      rfl
    have hflush : hexLen (bytes.length + 4) ≠ FLUSH_LINE := hexLen_ne hbound (m := 0) (by decide) (by omega)
    have hdelim : hexLen (bytes.length + 4) ≠ DELIMITER_LINE := hexLen_ne hbound (m := 1) (by decide) (by omega)
    have hend : hexLen (bytes.length + 4) ≠ RESPONSE_END_LINE := hexLen_ne hbound (m := 2) (by decide) (by omega)
    refine ⟨bytes.length + 4 - cut.length, ?_⟩
    unfold streaming
    simp only [htake, hflush, hdelim, hend, unhexLen_hexLen hbound, if_false]
    rw [if_neg (by omega), if_neg (by omega), if_neg (by omega), if_neg (by unfold MAX_LINE_LEN; omega),
      if_pos (by omega)]

/-- A line one byte over the limit is refused. -/
theorem streaming_tooLong {data : List UInt8} (h : data.length = MAX_DATA_LEN + 1) (rest : List UInt8) :
    streaming (line data ++ rest) = .error .dataLengthLimitExceeded := by
  have htake : (line data ++ rest).take 4 = hexLen (data.length + 4) := rfl
  have hlen : ¬ (line data ++ rest).length < 4 := by
    rw [List.length_append, length_line]
    omega
  have hdigits : hexLen (data.length + 4) = hexLen 65521 := by rw [h]; rfl
  unfold streaming
  rw [if_neg hlen, htake, hdigits]
  rfl

/-! ## Up to a flush -/

section Fold

variable {σ : Type} (step : σ → PacketLine → Option σ)

/-- The packets up to a flush, taken one by one, and what follows them. Every
packet takes bytes, so their number is fuel enough. -/
def foldPackets : Nat → List UInt8 → σ → Option (σ × List UInt8)
  | 0, _, _ => none
  | fuel + 1, data, s =>
    match streaming data with
    | .ok (.complete .flush consumed) => some (s, data.drop consumed)
    | .ok (.complete line consumed) => (step s line).bind fun s => foldPackets fuel (data.drop consumed) s
    | _ => none

variable {step}

/-- The turn at a packet that is no flush. -/
theorem foldPackets_packet {p : PacketLine} (h : p.Fits) (hp : p ≠ .flush) (fuel : Nat) (rest : List UInt8) (s : σ) :
    foldPackets step (fuel + 1) (encode p ++ rest) s = (step s p).bind fun s => foldPackets step fuel rest s := by
  rw [foldPackets, streaming_encode h]
  cases p with
  | flush => exact absurd rfl hp
  | data | delimiter | responseEnd => simp only [List.drop_left]

theorem foldPackets_flush (fuel : Nat) (rest : List UInt8) (s : σ) :
    foldPackets step (fuel + 1) (encode .flush ++ rest) s = some (s, rest) := by
  rw [foldPackets, streaming_encode (p := .flush) trivial]
  simp only [List.drop_left]

theorem foldPackets_tooLong {data : List UInt8} (h : data.length = MAX_DATA_LEN + 1) (rest : List UInt8) (s : σ) :
    ∀ fuel, foldPackets step fuel (line data ++ rest) s = none
  | 0 => rfl
  | fuel + 1 => by rw [foldPackets, streaming_tooLong h]

variable (step) in
/-- What was encoded is folded packet by packet. -/
theorem foldPackets_encoded (rest : List UInt8) : ∀ {packets : List PacketLine} {fuel : Nat} (s : σ),
    (∀ p ∈ packets, p.Fits ∧ p ≠ .flush) → packets.length < fuel →
    foldPackets step fuel (encodeAll packets ++ (encode .flush ++ rest)) s =
      (packets.foldlM step s).map fun s => (s, rest)
  | [], fuel + 1, s, _, _ => foldPackets_flush fuel rest s
  | p :: packets, fuel + 1, s, h, hf => by
    obtain ⟨hfits, hp⟩ := h p (by simp)
    rw [encodeAll_cons, List.append_assoc, foldPackets_packet hfits hp, List.foldlM_cons]
    cases step s p with
    | none => rfl
    | some s' => exact foldPackets_encoded rest s' (fun q hq => h q (by simp [hq])) (by simpa using hf)

/-- Where the bytes end before the flush does, there is no answer. -/
theorem foldPackets_truncated : ∀ {packets : List PacketLine} (fuel : Nat) {cut : List UInt8} (s : σ),
    (∀ p ∈ packets, p.Fits ∧ p ≠ .flush) → cut <+: encodeAll packets ++ encode .flush →
    cut ≠ encodeAll packets ++ encode .flush → foldPackets step fuel cut s = none
  | _, 0, _, _, _, _, _ => rfl
  | [], fuel + 1, cut, s, _, hcut, hne => by
    obtain ⟨n, hshort⟩ := streaming_truncated (p := .flush) trivial hcut hne
    rw [foldPackets, hshort]
  | p :: packets, fuel + 1, cut, s, h, hcut, hne => by
    obtain ⟨hfits, hp⟩ := h p (by simp)
    rw [encodeAll_cons, List.append_assoc] at hcut hne
    by_cases hshort : cut <+: encode p ∧ cut ≠ encode p
    · obtain ⟨n, hn⟩ := streaming_truncated hfits hshort.1 hshort.2
      rw [foldPackets, hn]
    · have hlong : encode p <+: cut := by
        rcases List.prefix_or_prefix_of_prefix hcut (List.prefix_append (encode p) _) with hle | hle
        · exact (not_not.1 (not_and.1 hshort hle)).symm ▸ List.prefix_rfl
        · exact hle
      obtain ⟨cut, rfl⟩ := hlong
      rw [foldPackets_packet hfits hp]
      cases step s p with
      | none => rfl
      | some s' =>
        exact foldPackets_truncated fuel s' (fun q hq => h q (by simp [hq])) ((List.prefix_append_right_inj _).1 hcut)
          fun heq => hne (by rw [heq])

end Fold

end Miscreant.Lib.Pktline
