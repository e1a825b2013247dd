/-
Pkt-line framing: a line is four hex digits, the length of the line with
them, and then its payload; three lengths too short for a payload are markers
instead. The limits and the order of the checks are those of
`gix_packetline`.

`readLines` reads lines up to a flush, and `readLines_encoded` says that it
reads back what was written. `readBand` does the same for payloads carried in
chunks over a side band (`readBand_encoded`).
-/
import Mathlib.Data.List.Basic
import Mathlib.Data.Nat.Digits.Defs
import Mathlib.Tactic.Common
import Mathlib.Tactic.SplitIfs

namespace Miscreant.Lib

/-! ## Hex digits -/

/-- The lower-case hex digit of a number under 16. -/
def hexDigit (n : Nat) : UInt8 := if n < 10 then UInt8.ofNat (48 + n) else UInt8.ofNat (87 + n)

/-- The value of a hex digit of either case. -/
def unhexDigit (b : UInt8) : Option Nat :=
  if 48 ≤ b.toNat ∧ b.toNat ≤ 57 then some (b.toNat - 48)
  else if 97 ≤ b.toNat ∧ b.toNat ≤ 102 then some (b.toNat - 87)
  else if 65 ≤ b.toNat ∧ b.toNat ≤ 70 then some (b.toNat - 55)
  else none

theorem toNat_hexDigit {n : Nat} (h : n < 16) : (hexDigit n).toNat = if n < 10 then 48 + n else 87 + n := by
  unfold hexDigit
  split
  · rw [UInt8.toNat_ofNat']
    omega
  · rw [UInt8.toNat_ofNat']
    omega

@[simp] theorem unhexDigit_hexDigit {n : Nat} (h : n < 16) : unhexDigit (hexDigit n) = some n := by
  have hd := toNat_hexDigit h
  unfold unhexDigit
  rw [hd]
  split_ifs <;> first | omega | (simp only [Option.some.injEq]; omega)

/-- The number four hex digits spell. -/
def unhexLen : List UInt8 → Option Nat
  | [a, b, c, d] => do
    let a ← unhexDigit a
    let b ← unhexDigit b
    let c ← unhexDigit c
    let d ← unhexDigit d
    pure (((a * 16 + b) * 16 + c) * 16 + d)
  | _ => none

/-- Four hex digits. -/
def hexLen (n : Nat) : List UInt8 :=
  [hexDigit (n / 4096 % 16), hexDigit (n / 256 % 16), hexDigit (n / 16 % 16), hexDigit (n % 16)]

@[simp] theorem length_hexLen (n : Nat) : (hexLen n).length = 4 := rfl

theorem unhexLen_hexLen {n : Nat} (h : n < 65536) : unhexLen (hexLen n) = some n := by
  have hlt : ∀ m, m % 16 < 16 := fun m => Nat.mod_lt _ (by decide)
  simp only [hexLen, unhexLen, unhexDigit_hexDigit (hlt _), Option.bind_eq_bind, Option.bind_some, Option.pure_def,
    Option.some.injEq]
  omega

namespace Pktline

def MAX_DATA_LEN : Nat := 65516
def MAX_LINE_LEN : Nat := 65520

def FLUSH_LINE : List UInt8 := [48, 48, 48, 48]
def DELIMITER_LINE : List UInt8 := [48, 48, 48, 49]
def RESPONSE_END_LINE : List UInt8 := [48, 48, 48, 50]

/-! ## Writing -/

/-- Why a line could not be written. -/
inductive EncodeError
  | dataLengthLimitExceeded
  | dataIsEmpty
  deriving DecidableEq, Repr

/-- `encode::prefixed_data_to_write`: a line of `lead` and `data` after what
is written. -/
def prefixedDataToWrite (lead data out : List UInt8) : Except EncodeError (List UInt8) :=
  if MAX_DATA_LEN < lead.length + data.length then .error .dataLengthLimitExceeded
  else if data = [] then .error .dataIsEmpty
  else .ok (out ++ hexLen (lead.length + data.length + 4) ++ lead ++ data)

/-- `encode::data_to_write`. -/
def dataToWrite (data out : List UInt8) : Except EncodeError (List UInt8) := prefixedDataToWrite [] data out

/-- `encode::band_to_write`. -/
def bandToWrite (channel : UInt8) (data out : List UInt8) : Except EncodeError (List UInt8) :=
  prefixedDataToWrite [channel] data out

/-- `encode::flush_to_write`. -/
def flushToWrite (out : List UInt8) : List UInt8 := out ++ FLUSH_LINE

/-- The lines one after another, up to the first that cannot be written. -/
def writeAll (write : List UInt8 → List UInt8 → Except EncodeError (List UInt8)) :
    List (List UInt8) → List UInt8 → Except EncodeError (List UInt8)
  | [], out => .ok out
  | line :: lines, out =>
    match write line out with
    | .error e => .error e
    | .ok out => writeAll write lines out

/-! ## Reading -/

/-- `PacketLineRef`. -/
inductive PacketLine
  | data (bytes : List UInt8)
  | flush
  | delimiter
  | responseEnd
  deriving DecidableEq, Repr

/-- `decode::Error`. -/
inductive DecodeError
  | hexDecode
  | dataLengthLimitExceeded
  | dataIsEmpty
  | invalidLineLength
  deriving DecidableEq, Repr

/-- `decode::Stream`. -/
inductive Stream
  | complete (line : PacketLine) (bytesConsumed : Nat)
  | incomplete (bytesNeeded : Nat)
  deriving DecidableEq, Repr

/-- `decode::streaming`: the line at the front. -/
def streaming (data : List UInt8) : Except DecodeError Stream :=
  if data.length < 4 then .ok (.incomplete (4 - data.length))
  else
    let four := data.take 4
    if four = FLUSH_LINE then .ok (.complete .flush 4)
    else if four = DELIMITER_LINE then .ok (.complete .delimiter 4)
    else if four = RESPONSE_END_LINE then .ok (.complete .responseEnd 4)
    else
      match unhexLen four with
      | none => .error .hexDecode
      | some wanted =>
        if wanted < 4 then .error .invalidLineLength
        else if wanted = 4 then .error .dataIsEmpty
        else if MAX_LINE_LEN < wanted then .error .dataLengthLimitExceeded
        else if data.length < wanted then .ok (.incomplete (wanted - data.length))
        else .ok (.complete (.data ((data.take wanted).drop 4)) wanted)

/-- The payloads of the lines up to a flush, and what follows it. Every line
takes bytes, so their number is fuel enough. -/
def readLinesFrom : Nat → List UInt8 → Option (List (List UInt8) × List UInt8)
  | 0, _ => none
  | fuel + 1, data =>
    match streaming data with
    | .ok (.complete .flush consumed) => some ([], data.drop consumed)
    | .ok (.complete (.data line) consumed) =>
      (readLinesFrom fuel (data.drop consumed)).map fun (lines, rest) => (line :: lines, rest)
    | _ => none

def readLines (data : List UInt8) : Option (List (List UInt8) × List UInt8) := readLinesFrom data.length data

/-- What a side band carries on one channel up to a flush. -/
def readBand (channel : UInt8) (data : List UInt8) : Option (List UInt8) := do
  let (lines, _) ← readLines data
  pure ((lines.filter fun line => line.head? = some channel).flatMap (·.drop 1))

/-! ## Round trips -/

/-- A payload a line can carry. -/
def Fits (data : List UInt8) : Prop := data ≠ [] ∧ data.length ≤ MAX_DATA_LEN

/-- A line as it is written. -/
def line (data : List UInt8) : List UInt8 := hexLen (data.length + 4) ++ data

theorem length_line (data : List UInt8) : (line data).length = data.length + 4 := by
  simp [line, Nat.add_comm]

theorem dataToWrite_fits {data : List UInt8} (h : Fits data) (out : List UInt8) :
    dataToWrite data out = .ok (out ++ line data) := by
  obtain ⟨hne, hle⟩ := h
  have hle : ¬ MAX_DATA_LEN < ([] : List UInt8).length + data.length := by simpa using hle
  rw [dataToWrite, prefixedDataToWrite, if_neg hle, if_neg hne]
  simp [line]

theorem dataToWrite_ok_iff {data out : List UInt8} : (∃ out', dataToWrite data out = .ok out') ↔ Fits data := by
  constructor
  · intro h
    obtain ⟨out', h⟩ := h
    unfold dataToWrite prefixedDataToWrite at h
    split_ifs at h with hlen hne
    exact ⟨hne, by simpa using hlen⟩
  · exact fun h => ⟨_, dataToWrite_fits h out⟩

theorem bandToWrite_fits {channel : UInt8} {data : List UInt8} (hne : data ≠ []) (hle : data.length < MAX_DATA_LEN)
    (out : List UInt8) : bandToWrite channel data out = .ok (out ++ line (channel :: data)) := by
  have hle : ¬ MAX_DATA_LEN < [channel].length + data.length := by
    simp only [List.length_singleton]
    omega
  rw [bandToWrite, prefixedDataToWrite, if_neg hle, if_neg hne]
  simp [line, Nat.add_comm]

theorem writeAll_eq {write : List UInt8 → List UInt8 → Except EncodeError (List UInt8)}
    {f : List UInt8 → List UInt8} : ∀ {lines : List (List UInt8)} {out : List UInt8},
      (∀ l ∈ lines, ∀ out, write l out = .ok (out ++ f l)) →
      writeAll write lines out = .ok (out ++ lines.flatMap f)
  | [], out, _ => by simp [writeAll]
  | l :: lines, out, h => by
    rw [writeAll, h l (by simp) out]
    simp only
    rw [writeAll_eq fun l' hl' => h l' (by simp [hl'])]
    simp

theorem writeAll_data {lines : List (List UInt8)} (h : ∀ l ∈ lines, Fits l) (out : List UInt8) :
    writeAll dataToWrite lines out = .ok (out ++ lines.flatMap line) :=
  writeAll_eq fun l hl out => dataToWrite_fits (h l hl) out

theorem writeAll_data_ok_iff : ∀ {lines : List (List UInt8)} {out : List UInt8},
    (∃ out', writeAll dataToWrite lines out = .ok out') ↔ ∀ l ∈ lines, Fits l
  | [], out => by simp [writeAll]
  | l :: lines, out => by
    constructor
    · intro h
      obtain ⟨out', h⟩ := h
      rw [writeAll] at h
      cases hl : dataToWrite l out with
      | error e => simp [hl] at h
      | ok out₁ =>
        simp only [hl] at h
        have hfits : Fits l := dataToWrite_ok_iff.1 ⟨out₁, hl⟩
        have hrest := writeAll_data_ok_iff.1 ⟨out', h⟩
        simpa using ⟨hfits, hrest⟩
    · exact fun h => ⟨_, writeAll_data h out⟩

/-- The digits of a line's length are not those of a marker. -/
theorem hexLen_ne {n m : Nat} (hn : n < 65536) (hm : m < 65536) (hne : n ≠ m) : hexLen n ≠ hexLen m := by
  intro h
  have heq := congrArg unhexLen h
  rw [unhexLen_hexLen hn, unhexLen_hexLen hm] at heq
  exact hne (Option.some.inj heq)

theorem streaming_line {data : List UInt8} (h : Fits data) (rest : List UInt8) :
    streaming (line data ++ rest) = .ok (.complete (.data data) (data.length + 4)) := by
  obtain ⟨hne, hle⟩ := h
  have hpos : 0 < data.length := List.length_pos_of_ne_nil hne
  unfold MAX_DATA_LEN at hle
  have hlt : data.length + 4 < 65536 := by omega
  have htake : (line data ++ rest).take 4 = hexLen (data.length + 4) := rfl
  have hlen : (line data ++ rest).length = data.length + 4 + rest.length := by simp [length_line]
  have hall : (line data ++ rest).take (data.length + 4) = line data := by
    rw [← length_line, List.take_left]
  have hflush : hexLen (data.length + 4) ≠ FLUSH_LINE := hexLen_ne hlt (m := 0) (by decide) (by omega)
  have hdelim : hexLen (data.length + 4) ≠ DELIMITER_LINE := hexLen_ne hlt (m := 1) (by decide) (by omega)
  have hend : hexLen (data.length + 4) ≠ RESPONSE_END_LINE := hexLen_ne hlt (m := 2) (by decide) (by omega)
  unfold streaming
  simp only [htake, hlen, hflush, hdelim, hend, unhexLen_hexLen hlt, if_false, hall]
  rw [if_neg (by omega), if_neg (by omega), if_neg (by omega), if_neg (by unfold MAX_LINE_LEN; omega),
    if_neg (by omega)]
  rfl

theorem streaming_flush (rest : List UInt8) : streaming (FLUSH_LINE ++ rest) = .ok (.complete .flush 4) := by
  have hlen : ¬ (FLUSH_LINE ++ rest).length < 4 := by simp [FLUSH_LINE]
  have htake : (FLUSH_LINE ++ rest).take 4 = FLUSH_LINE := rfl
  rw [streaming, if_neg hlen]
  simp only [htake, if_true]

/-- A payload that is read fits a line, and is what the line is of. -/
theorem fits_of_streaming {data payload : List UInt8} {consumed : Nat}
    (h : streaming data = .ok (.complete (.data payload) consumed)) :
    Fits payload ∧ consumed = payload.length + 4 ∧ consumed ≤ data.length := by
  unfold streaming at h
  split_ifs at h
  · cases h
  dsimp only at h
  split_ifs at h
  · cases h
  · cases h
  · cases h
  cases hlen : unhexLen (data.take 4) with
  | none =>
    rw [hlen] at h
    cases h
  | some wanted =>
    simp only [hlen] at h
    split_ifs at h with hmarker hempty hmax hshort
    · cases h
    cases h
    have hpayload : ((data.take consumed).drop 4).length = consumed - 4 := by
      rw [List.length_drop, List.length_take]
      omega
    refine ⟨⟨fun hnil => ?_, ?_⟩, by omega, by omega⟩
    · rw [hnil, List.length_nil] at hpayload
      omega
    · rw [hpayload]
      unfold MAX_LINE_LEN at hmax
      unfold MAX_DATA_LEN
      omega

theorem readLinesFrom_encoded (rest : List UInt8) : ∀ {lines : List (List UInt8)} {fuel : Nat},
    (∀ l ∈ lines, Fits l) → lines.length < fuel →
    readLinesFrom fuel (lines.flatMap line ++ FLUSH_LINE ++ rest) = some (lines, rest)
  | [], fuel + 1, _, _ => by
    simp [readLinesFrom, streaming_flush, show (FLUSH_LINE ++ rest).drop 4 = rest from by simp [FLUSH_LINE]]
  | l :: lines, fuel + 1, h, hf => by
    have hdata : (l :: lines).flatMap line ++ FLUSH_LINE ++ rest =
        line l ++ (lines.flatMap line ++ FLUSH_LINE ++ rest) := by simp
    have hdrop : (line l ++ (lines.flatMap line ++ FLUSH_LINE ++ rest)).drop (l.length + 4) =
        lines.flatMap line ++ FLUSH_LINE ++ rest := by
      rw [← length_line, List.drop_left]
    rw [hdata, readLinesFrom, streaming_line (h l (by simp))]
    simp only [hdrop]
    rw [readLinesFrom_encoded rest (fun l' hl' => h l' (by simp [hl'])) (by simpa using hf)]
    rfl

theorem readLines_encoded {lines : List (List UInt8)} (h : ∀ l ∈ lines, Fits l) (rest : List UInt8) :
    readLines (lines.flatMap line ++ FLUSH_LINE ++ rest) = some (lines, rest) := by
  refine readLinesFrom_encoded rest h ?_
  have hle : lines.length ≤ (lines.flatMap line).length := by
    clear h
    induction lines with
    | nil => simp
    | cons l lines ih =>
      simp only [List.length_cons, List.flatMap_cons, List.length_append, length_line]
      omega
  simp only [List.length_append, show FLUSH_LINE.length = 4 from rfl]
  omega

/-! ## Chunks -/

/-- `slice::chunks`, with `fuel` for the recursion. -/
def chunksFrom (n : Nat) : Nat → List UInt8 → List (List UInt8)
  | 0, _ => []
  | fuel + 1, data => if data = [] then [] else data.take n :: chunksFrom n fuel (data.drop n)

/-- `slice::chunks`: pieces of `n` bytes, the last one shorter. -/
def chunks (n : Nat) (data : List UInt8) : List (List UInt8) := chunksFrom n data.length data

theorem flatten_chunksFrom {n : Nat} (hn : 0 < n) : ∀ {fuel : Nat} {data : List UInt8}, data.length ≤ fuel →
    (chunksFrom n fuel data).flatten = data
  | 0, data, h => by
    have hnil : data = [] := List.length_eq_zero_iff.1 (by omega)
    simp [chunksFrom, hnil]
  | fuel + 1, data, h => by
    unfold chunksFrom
    split
    · rename_i hnil
      simp [hnil]
    · rw [List.flatten_cons, flatten_chunksFrom hn (by simp only [List.length_drop]; omega), List.take_append_drop]

theorem flatten_chunks {n : Nat} (hn : 0 < n) (data : List UInt8) : (chunks n data).flatten = data :=
  flatten_chunksFrom hn le_rfl

theorem mem_chunksFrom {n : Nat} (hn : 0 < n) {chunk : List UInt8} : ∀ {fuel : Nat} {data : List UInt8},
    chunk ∈ chunksFrom n fuel data → chunk ≠ [] ∧ chunk.length ≤ n
  | 0, data, h => by simp [chunksFrom] at h
  | fuel + 1, data, h => by
    unfold chunksFrom at h
    split at h
    · simp at h
    · rename_i hne
      rcases List.mem_cons.1 h with rfl | h
      · refine ⟨?_, by simp⟩
        simp only [ne_eq, List.take_eq_nil_iff, hne, or_false]
        omega
      · exact mem_chunksFrom hn h

/-- What is written in chunks over a side band is read back. -/
theorem readBand_encoded {n : Nat} (hn : 0 < n) (hlt : n < MAX_DATA_LEN) (channel : UInt8) (data : List UInt8) :
    ∃ out, writeAll (bandToWrite channel) (chunks n data) [] = .ok out ∧
      readBand channel (flushToWrite out) = some data := by
  have hchunk : ∀ c ∈ chunks n data, c ≠ [] ∧ c.length ≤ n := fun c hc => mem_chunksFrom hn hc
  refine ⟨_, writeAll_eq (f := fun c => line (channel :: c)) fun c hc out => ?_, ?_⟩
  · obtain ⟨hne, hle⟩ := hchunk c hc
    exact bandToWrite_fits hne (by omega) out
  · have hfits : ∀ l ∈ (chunks n data).map (channel :: ·), Fits l := by
      intro l hl
      obtain ⟨c, hc, rfl⟩ := List.mem_map.1 hl
      have hle := (hchunk c hc).2
      exact ⟨by simp, by simp only [List.length_cons]; omega⟩
    have hread := readLines_encoded hfits []
    rw [List.flatMap_map, List.append_nil] at hread
    have hfilter : ((chunks n data).map (channel :: ·)).filter (fun line => line.head? = some channel) =
        (chunks n data).map (channel :: ·) := by
      rw [List.filter_eq_self]
      intro l hl
      obtain ⟨c, -, rfl⟩ := List.mem_map.1 hl
      simp
    have hdrop : ((chunks n data).map (channel :: ·)).flatMap (·.drop 1) = (chunks n data).flatten := by
      rw [List.flatMap_map, List.flatMap_def]
      simp
    simp only [readBand, flushToWrite, List.nil_append, hread, Option.bind_eq_bind, Option.bind_some, hfilter, hdrop,
      flatten_chunks hn, Option.pure_def]

end Pktline

end Miscreant.Lib
