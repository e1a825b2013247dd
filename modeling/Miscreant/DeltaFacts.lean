/-
Deltas are sound: what `make_delta` writes rebuilds the target.

The pieces `make_delta` appends are instructions (`emits_insert`,
`emits_copyInstr`), so its output always emits the target up to where the next
insert starts (`Scan.Emitted`). A match is compared byte by byte before it is
copied, so nothing depends on the hashes.
-/
import Miscreant.IndexFacts
import Miscreant.Lib.CommonPrefix

namespace Miscreant

open Lib GitDelta

namespace PackOut

/-! ## Sizes -/

theorem readSize_encodeSizeFrom (rest : Bytes) : ∀ {fuel n : Nat}, n < 128 ^ (fuel + 1) →
    readSize (encodeSizeFrom (fuel + 1) n ++ rest) = some (n, rest)
  | fuel, n, h => by
    rw [encodeSizeFrom]
    split
    · rename_i hmore
      cases fuel with
      | zero => exact absurd hmore (by omega)
      | succ fuel =>
        have hbyte : (UInt8.ofNat (n % 128 + 128)).toNat = n % 128 + 128 := by
          rw [UInt8.toNat_ofNat']
          omega
        have hrest : n / 128 < 128 ^ (fuel + 1) := by
          rw [Nat.pow_succ] at h
          exact Nat.div_lt_of_lt_mul (by rw [Nat.mul_comm]; exact h)
        rw [List.cons_append, readSize, hbyte, if_neg (by omega), readSize_encodeSizeFrom rest hrest]
        simp only [Option.map_some, Option.some.injEq, Prod.mk.injEq, and_true]
        omega
    · rename_i hlast
      have hbyte : (UInt8.ofNat (n % 128)).toNat = n := by
        rw [UInt8.toNat_ofNat']
        omega
      rw [List.cons_append, readSize, hbyte, if_pos (by omega)]
      rfl

theorem readSize_encodeSize {n : Nat} (h : n < 2 ^ 64) (rest : Bytes) :
    readSize (encodeSize n [] ++ rest) = some (n, rest) := by
  rw [encodeSize, List.nil_append]
  exact readSize_encodeSizeFrom rest (lt_of_lt_of_le h (by norm_num))

/-! ## Inserts -/

/-- The instructions of an insert. -/
def insertCode (chunks : List Bytes) : Bytes :=
  chunks.flatMap fun chunk => if chunk = [] then [] else UInt8.ofNat chunk.length :: chunk

theorem appendInsert_eq (out bytes : Bytes) : appendInsert out bytes = out ++ insertCode (Pktline.chunks 127 bytes) := by
  unfold appendInsert
  induction Pktline.chunks 127 bytes generalizing out with
  | nil => simp [insertCode]
  | cons chunk chunks ih =>
    rw [List.foldl_cons, ih]
    unfold insertCode
    rw [List.flatMap_cons]
    split
    · simp
    · simp

theorem emits_insertCode {base : Bytes} : ∀ {chunks : List Bytes}, (∀ chunk ∈ chunks, chunk ≠ [] ∧ chunk.length ≤ 127) →
    Emits base (insertCode chunks) chunks.flatten
  | [], _ => .nil
  | chunk :: chunks, h => by
    obtain ⟨hne, hle⟩ := h chunk (List.mem_cons_self ..)
    have hchunk : Emits base (UInt8.ofNat chunk.length :: chunk) chunk :=
      .insert (List.length_pos_iff.2 hne) (by omega)
    have hrest := @emits_insertCode base chunks fun c hc => h c (List.mem_cons_of_mem _ hc)
    have hcons : insertCode (chunk :: chunks) = (UInt8.ofNat chunk.length :: chunk) ++ insertCode chunks := by
      rw [insertCode, List.flatMap_cons, if_neg hne, insertCode]
    rw [hcons, List.flatten_cons]
    exact hchunk.append hrest

theorem emits_insert (base bytes : Bytes) : Emits base (insertCode (Pktline.chunks 127 bytes)) bytes := by
  have h := @emits_insertCode base (Pktline.chunks 127 bytes) fun chunk hchunk =>
    Pktline.mem_chunksFrom (by decide) hchunk
  rwa [Pktline.flatten_chunks (by decide)] at h

/-- An insert takes at least a byte for each of its own. -/
theorem length_le_insertCode : ∀ chunks : List Bytes, chunks.flatten.length ≤ (insertCode chunks).length
  | [] => Nat.zero_le _
  | chunk :: chunks => by
    have hrest := length_le_insertCode chunks
    unfold insertCode at hrest ⊢
    rw [List.flatMap_cons, List.flatten_cons, List.length_append, List.length_append]
    split
    · rename_i hnil
      rw [hnil]
      exact Nat.add_le_add_left hrest _
    · rw [List.length_cons]
      omega

theorem length_le_appendInsert (out bytes : Bytes) : out.length + bytes.length ≤ (appendInsert out bytes).length := by
  have h := length_le_insertCode (Pktline.chunks 127 bytes)
  rw [Pktline.flatten_chunks (by decide)] at h
  rw [appendInsert_eq, List.length_append]
  omega

/-! ## Copies -/

/-- The byte of a number that goes into a field. -/
def fieldByte (value : Nat) (f : Field) : UInt8 := UInt8.ofNat (value / 2 ^ f.2 % 256)

/-- The bits of the fields whose bytes are not zero. -/
def fieldBits (value : Nat) (fields : List Field) : UInt8 :=
  fields.foldr (fun f bits => if fieldByte value f ≠ 0 then f.1 ||| bits else bits) 0

theorem copyFields_eq (value : Nat) : ∀ (fields : List Field) (command : UInt8) (payload : Bytes),
    copyFields value fields (command, payload) =
      (command ||| fieldBits value fields, payload ++ (fields.map (fieldByte value)).filter (· ≠ 0))
  | [], command, payload => by simp [copyFields, fieldBits]
  | (bit, shift) :: fields, command, payload => by
    have hstep : copyFields value ((bit, shift) :: fields) (command, payload) = copyFields value fields
        (if fieldByte value (bit, shift) ≠ 0 then (command ||| bit, payload ++ [fieldByte value (bit, shift)])
          else (command, payload)) := rfl
    rw [hstep]
    by_cases hbyte : fieldByte value (bit, shift) = 0
    · rw [if_neg (not_not.2 hbyte), copyFields_eq value fields]
      simp [fieldBits, hbyte]
    · rw [if_pos hbyte, copyFields_eq value fields]
      simp [fieldBits, hbyte, UInt8.or_assoc]

/-- The command of a copy. -/
def copyCommand (offset size : Nat) : UInt8 := (0x80 ||| fieldBits offset OFFSET_FIELDS) ||| fieldBits size SIZE_FIELDS

/-- The bytes of a number that are not zero, field by field. -/
def fieldBytes (value : Nat) (fields : List Field) : Bytes := (fields.map (fieldByte value)).filter (· ≠ 0)

theorem copyInstr_eq {offset chunkLen : Nat} (hle : chunkLen ≤ 0x10000) :
    copyInstr offset chunkLen = copyCommand offset (chunkLen % 0x10000) ::
      (fieldBytes offset OFFSET_FIELDS ++ fieldBytes (chunkLen % 0x10000) SIZE_FIELDS) := by
  unfold copyInstr
  rw [copyFields_eq]
  dsimp only
  by_cases hfull : chunkLen = 0x10000
  · subst hfull
    have hbits : fieldBits (0x10000 % 0x10000) SIZE_FIELDS = 0 := by decide
    have hbytes : fieldBytes (0x10000 % 0x10000) SIZE_FIELDS = [] := by decide
    rw [copyCommand, hbits, hbytes, if_neg (by decide)]
    simp [fieldBytes]
  · rw [if_pos hfull, copyFields_eq, Nat.mod_eq_of_lt (by omega)]
    rfl

/-- The bits of the command are those of the fields that are there, whichever
these are. -/
theorem command_bits : ∀ o₀ o₁ o₂ o₃ s₀ s₁ s₂ : Bool,
    let bit (there : Bool) (b rest : UInt8) : UInt8 := if there then b ||| rest else rest
    let command := (0x80 ||| bit o₀ 0x01 (bit o₁ 0x02 (bit o₂ 0x04 (bit o₃ 0x08 0)))) |||
      bit s₀ 0x10 (bit s₁ 0x20 (bit s₂ 0x40 0))
    command &&& 0x80 ≠ 0 ∧ (command &&& 0x01 = 0 ↔ o₀ = false) ∧ (command &&& 0x02 = 0 ↔ o₁ = false) ∧
    (command &&& 0x04 = 0 ↔ o₂ = false) ∧ (command &&& 0x08 = 0 ↔ o₃ = false) ∧ (command &&& 0x10 = 0 ↔ s₀ = false) ∧
    (command &&& 0x20 = 0 ↔ s₁ = false) ∧ (command &&& 0x40 = 0 ↔ s₂ = false) := by decide

theorem and_copyCommand (offset size : Nat) :
    copyCommand offset size &&& 0x80 ≠ 0 ∧
    (∀ f ∈ OFFSET_FIELDS, copyCommand offset size &&& f.1 = 0 ↔ fieldByte offset f = 0) ∧
    ∀ f ∈ SIZE_FIELDS, copyCommand offset size &&& f.1 = 0 ↔ fieldByte size f = 0 := by
  have hbits := command_bits (fieldByte offset (0x01, 0) ≠ 0) (fieldByte offset (0x02, 8) ≠ 0)
    (fieldByte offset (0x04, 16) ≠ 0) (fieldByte offset (0x08, 24) ≠ 0) (fieldByte size (0x10, 0) ≠ 0)
    (fieldByte size (0x20, 8) ≠ 0) (fieldByte size (0x40, 16) ≠ 0)
  simp only [decide_eq_true_eq, decide_eq_false_iff_not, not_not] at hbits
  obtain ⟨hcopy, h₀, h₁, h₂, h₃, h₄, h₅, h₆⟩ := hbits
  refine ⟨hcopy, ?_, ?_⟩
  · intro f hf
    simp only [OFFSET_FIELDS, List.mem_cons, List.not_mem_nil, or_false] at hf
    rcases hf with rfl | rfl | rfl | rfl
    · exact h₀
    · exact h₁
    · exact h₂
    · exact h₃
  · intro f hf
    simp only [SIZE_FIELDS, List.mem_cons, List.not_mem_nil, or_false] at hf
    rcases hf with rfl | rfl | rfl
    · exact h₄
    · exact h₅
    · exact h₆

theorem toNat_fieldByte (value : Nat) (f : Field) : (fieldByte value f).toNat = value / 2 ^ f.2 % 256 := by
  rw [fieldByte, UInt8.toNat_ofNat']
  omega

theorem bytes_sum {n : Nat} (h : n < 4294967296) :
    n % 256 + (n / 256 % 256 * 256 + (n / 65536 % 256 * 65536 + n / 16777216 % 256 * 16777216)) = n := by omega

theorem sum_offset_fields (g : Field → Nat) :
    (OFFSET_FIELDS.map g).sum = g (0x01, 0) + (g (0x02, 8) + (g (0x04, 16) + g (0x08, 24))) := by
  simp [OFFSET_FIELDS]

theorem sum_offset {offset : Nat} (h : offset < 2 ^ 32) :
    (OFFSET_FIELDS.map fun f => (fieldByte offset f).toNat * 2 ^ f.2).sum = offset := by
  rw [sum_offset_fields]
  simp only [toNat_fieldByte, Nat.reducePow, Nat.div_one, Nat.mul_one]
  exact bytes_sum h

theorem sum_size {size : Nat} (h : size < 2 ^ 24) :
    (SIZE_FIELDS.map fun f => (fieldByte size f).toNat * 2 ^ f.2).sum = size := by
  simp only [SIZE_FIELDS, List.map_cons, List.map_nil, List.sum_cons, List.sum_nil, toNat_fieldByte, Nat.reducePow]
    at h ⊢
  omega

theorem emits_copyInstr {base : Bytes} {offset chunkLen : Nat} (hpos : 0 < chunkLen) (hle : chunkLen ≤ 0x10000)
    (hbase : offset + chunkLen ≤ base.length) (hlen : base.length < 2 ^ 32) :
    Emits base (copyInstr offset chunkLen) ((base.drop offset).take chunkLen) := by
  obtain ⟨hcopy, hoffset, hsize⟩ := and_copyCommand offset (chunkLen % 0x10000)
  rw [copyInstr_eq hle]
  refine .copy hcopy (fun rest => ⟨fieldBytes (chunkLen % 0x10000) SIZE_FIELDS ++ rest, ?_, ?_⟩) hpos hle hbase
  · rw [List.append_assoc, fieldBytes, readFields_bytes _ _ hoffset, sum_offset (by omega)]
  · rw [fieldBytes, readFields_bytes _ _ hsize, sum_size (by omega)]

/-- A copy, in pieces of at most 64 KiB. -/
theorem appendCopy_spec {base : Bytes} (hlen : base.length < 2 ^ 32) {out : Bytes} {offset len : Nat}
    (h : offset + len ≤ base.length) :
    ∃ code, appendCopy out offset len = out ++ code ∧ Emits base code ((base.drop offset).take len) := by
  induction len using Nat.strong_induction_on generalizing out offset with
  | _ len ih =>
    rw [appendCopy]
    split
    · rename_i hne
      have hrest : len - min len 0x10000 < len := by omega
      obtain ⟨code, hcode, hemits⟩ := @ih _ hrest (out ++ copyInstr offset (min len 0x10000))
        (offset + min len 0x10000) (by omega)
      refine ⟨copyInstr offset (min len 0x10000) ++ code, by rw [hcode, List.append_assoc], ?_⟩
      have hfirst := @emits_copyInstr base offset (min len 0x10000) (by omega) (by omega) (by omega) hlen
      have hsplit : (base.drop offset).take len = (base.drop offset).take (min len 0x10000) ++
          (base.drop (offset + min len 0x10000)).take (len - min len 0x10000) := by
        rw [← List.drop_drop, ← List.take_add]
        congr 1
        omega
      rw [hsplit]
      exact hfirst.append hemits
    · rename_i hzero
      obtain rfl : len = 0 := not_not.1 hzero
      exact ⟨[], by simp, by simpa using Emits.nil⟩

theorem length_le_appendCopy (out : Bytes) (offset len : Nat) : out.length ≤ (appendCopy out offset len).length := by
  induction len using Nat.strong_induction_on generalizing out offset with
  | _ len ih =>
    rw [appendCopy]
    split
    · have hrest := ih (len - min len 0x10000) (by omega) (out ++ copyInstr offset (min len 0x10000))
        (offset + min len 0x10000)
      rw [List.length_append] at hrest
      dsimp only
      omega
    · exact le_rfl

/-! ## Common prefixes -/

/-- The zero bits of a number that are counted. -/
theorem le_trailingZerosFrom : ∀ {k f x : Nat}, k ≤ f → x % 2 ^ k = 0 →
    k ≤ trailingZerosFrom f x ∧ trailingZerosFrom f x = k + trailingZerosFrom (f - k) (x / 2 ^ k)
  | 0, f, x, _, _ => by simp
  | k + 1, f + 1, x, hf, h => by
    rw [Nat.pow_succ', Nat.mod_mul] at h
    obtain ⟨hle, hrest⟩ := @le_trailingZerosFrom k f (x / 2) (by omega) (by omega)
    have hdiv : x / 2 / 2 ^ k = x / 2 ^ (k + 1) := by rw [Nat.div_div_eq_div_mul, Nat.pow_succ']
    rw [trailingZerosFrom, if_pos (by omega), hrest, hdiv, Nat.add_sub_add_right]
    exact ⟨by omega, by omega⟩

theorem mod_of_le_trailingZerosFrom : ∀ {k f x : Nat}, k ≤ trailingZerosFrom f x → x % 2 ^ k = 0
  | 0, f, x, _ => Nat.mod_one x
  | k + 1, 0, x, h => absurd h (by simp [trailingZerosFrom])
  | k + 1, f + 1, x, h => by
    rw [trailingZerosFrom] at h
    split at h
    · rename_i heven
      have hmod := @mod_of_le_trailingZerosFrom k f (x / 2) (by omega)
      rw [Nat.pow_succ', Nat.mod_mul, heven, hmod]
    · omega

theorem leWord_xor_cons (x y : UInt8) (u v : Bytes) :
    (leWord (x :: u) ^^^ leWord (y :: v)) % 2 ^ 8 = x.toNat ^^^ y.toNat ∧
      (leWord (x :: u) ^^^ leWord (y :: v)) / 2 ^ 8 = leWord u ^^^ leWord v := by
  have hx := x.toNat_lt
  have hy := y.toNat_lt
  have hmod : ∀ (z : UInt8) (w : Bytes), leWord (z :: w) % 2 ^ 8 = z.toNat := by
    intro z w
    have hz := z.toNat_lt
    rw [leWord]
    omega
  have hdiv : ∀ (z : UInt8) (w : Bytes), leWord (z :: w) / 2 ^ 8 = leWord w := by
    intro z w
    have hz := z.toNat_lt
    rw [leWord]
    omega
  rw [Nat.xor_mod_two_pow, hmod, hmod, Nat.xor_div_two_pow, hdiv, hdiv]
  exact ⟨rfl, rfl⟩

/-- Words that differ do so at the byte their trailing zeros count up to. -/
theorem isCommonPrefix_words : ∀ {f : Nat} {u v : Bytes}, u.length = v.length → 8 * u.length ≤ f →
    leWord u ≠ leWord v → trailingZerosFrom f (leWord u ^^^ leWord v) / 8 < u.length ∧
      IsCommonPrefix u v (trailingZerosFrom f (leWord u ^^^ leWord v) / 8)
  | f, [], [], _, _, hne => absurd rfl hne
  | f, x :: u, y :: v, hlen, hf, hne => by
    obtain ⟨hmod, hdiv⟩ := leWord_xor_cons x y u v
    rw [List.length_cons] at hf
    by_cases hxy : x = y
    · subst hxy
      rw [Nat.xor_self] at hmod
      obtain ⟨-, hcount⟩ := @le_trailingZerosFrom 8 f _ (by omega) hmod
      have hrest : leWord u ≠ leWord v := fun heq => hne (by rw [leWord, leWord, heq])
      obtain ⟨hlt, hprefix⟩ := @isCommonPrefix_words (f - 8) u v (Nat.succ.inj hlen) (by omega) hrest
      have hbyte : trailingZerosFrom f (leWord (x :: u) ^^^ leWord (x :: v)) / 8 =
          trailingZerosFrom (f - 8) (leWord u ^^^ leWord v) / 8 + 1 := by
        rw [hcount, hdiv]
        omega
      rw [hbyte, List.length_cons]
      exact ⟨by omega, hprefix.cons x⟩
    · have hfew : trailingZerosFrom f (leWord (x :: u) ^^^ leWord (y :: v)) < 8 := by
        by_contra hmany
        have hzero := hmod.symm.trans (mod_of_le_trailingZerosFrom (not_lt.1 hmany))
        apply hxy
        apply UInt8.toNat_inj.1
        rw [← Nat.xor_zero x.toNat, ← Nat.xor_self y.toNat, ← Nat.xor_assoc, hzero, Nat.zero_xor]
      rw [Nat.div_eq_of_lt hfew]
      exact ⟨Nat.succ_pos _, .cons_ne u v hxy⟩

theorem leWord_injective : ∀ {u v : Bytes}, u.length = v.length → leWord u = leWord v → u = v
  | [], [], _, _ => rfl
  | x :: u, y :: v, hlen, h => by
    have hx := x.toNat_lt
    have hy := y.toNat_lt
    rw [leWord, leWord] at h
    rw [UInt8.toNat_inj.1 (show x.toNat = y.toNat by omega), leWord_injective (Nat.succ.inj hlen) (by omega)]

theorem isCommonPrefix_bytes : ∀ a b : Bytes, IsCommonPrefix a b (commonBytes a b)
  | [], b => by
    rw [commonBytes]
    · exact .nil_left b
    · simp
  | x :: a, [] => by
    rw [commonBytes]
    · exact .nil_right _
    · simp
  | x :: a, y :: b => by
    rw [commonBytes]
    split
    · rename_i hxy
      subst hxy
      rw [Nat.add_comm]
      exact (isCommonPrefix_bytes a b).cons x
    · rename_i hxy
      exact .cons_ne a b hxy

theorem isCommonPrefix_commonPrefix (a b : Bytes) : IsCommonPrefix a b (commonPrefix a b) := by
  induction hn : a.length using Nat.strong_induction_on generalizing a b with
  | _ n ih =>
    rw [commonPrefix]
    split
    · rename_i hlong
      have hta : (a.take 8).length = 8 := List.length_take_of_le (by omega)
      have htb : (b.take 8).length = 8 := List.length_take_of_le (by omega)
      dsimp only
      split
      · rename_i hword
        obtain ⟨hlt, hprefix⟩ := @isCommonPrefix_words 64 _ _ (hta.trans htb.symm) (by omega) hword
        have hall := hprefix.extend hlt (by omega) (a.drop 8) (b.drop 8)
        rw [List.take_append_drop, List.take_append_drop] at hall
        exact hall
      · rename_i hword
        have heq := leWord_injective (hta.trans htb.symm) (not_not.1 hword)
        have hrest := ih (a.drop 8).length (by rw [List.length_drop]; omega) (a.drop 8) (b.drop 8) rfl
        have hall := hrest.append (a.take 8)
        rw [hta, List.take_append_drop, heq, List.take_append_drop] at hall
        exact hall
    · exact isCommonPrefix_bytes a b

/-- Comparing words first changes nothing: `common_prefix` is the length of
the longest common prefix. -/
theorem commonPrefix_exact (a b : Bytes) : IsCommonPrefix a b (commonPrefix a b) ∧
    ∀ n, n ≤ a.length → n ≤ b.length → a.take n = b.take n → n ≤ commonPrefix a b :=
  ⟨isCommonPrefix_commonPrefix a b, fun _ => (isCommonPrefix_commonPrefix a b).longest⟩

/-! ## The block index -/

/-- The probe windows of the index are there, and its entries are offsets into
the base. -/
structure BlockIndex.InRange (index : BlockIndex) (base : Bytes) : Prop where
  window : ∀ fingerprint, index.homeOf fingerprint + PROBE_WINDOW ≤ index.slots.length
  offset : ∀ entry ∈ index.slots, entry.toUInt32 = 0 ∨ (entry.toUInt32 - 1).toNat ≤ base.length

/-- The index of a base of less than 4 GiB is built, and points into it. -/
theorem blockIndex_inRange {base : Bytes} (hlen : base.length < 2 ^ 32) :
    ∃ index, blockIndex base = some index ∧ index.InRange base := by
  obtain ⟨index, hindex, h⟩ := blockIndex_spec hlen
  refine ⟨index, hindex, h.window, fun entry hentry => or_iff_not_imp_left.2 fun hlow => ?_⟩
  obtain ⟨slot, hslot⟩ := List.mem_iff_getElem?.1 hentry
  exact le_trans (Nat.le_add_right ..) (h.offset_le hlen hslot hlow)

/-! ## The match at the cursor -/

/-- A copy of `len` bytes at `offset` of the base is the target at the cursor. -/
structure IsMatch (base target : Bytes) (cursor offset len : Nat) : Prop where
  pos : 0 < len
  base_le : offset + len ≤ base.length
  target_le : cursor + len ≤ target.length
  eq : (base.drop offset).take len = (target.drop cursor).take len

section Lookup

variable {base target : Bytes} {tag : UInt64} {cursor : Nat} {entry : UInt64} {best best' : Option (Nat × Nat)}

theorem tryEntry_isMatch (h : tryEntry base target tag cursor entry best = some best')
    (hbest : ∀ m ∈ best, IsMatch base target cursor m.1 m.2) : ∀ m ∈ best', IsMatch base target cursor m.1 m.2 := by
  unfold tryEntry at h
  split at h
  · cases h
    exact hbest
  · simp only [Option.bind_eq_bind, Option.bind_eq_some_iff, Option.pure_def, Option.some.injEq] at h
    obtain ⟨a, ha, b, hb, rfl⟩ := h
    split
    · rename_i hlong
      rintro m ⟨⟩
      obtain ⟨hi, rfl⟩ := sliceFrom_some ha
      obtain ⟨hc, rfl⟩ := sliceFrom_some hb
      obtain ⟨hla, hlb, htake, -⟩ :=
        isCommonPrefix_commonPrefix (base.drop (entry.toUInt32 - 1).toNat) (target.drop cursor)
      rw [List.length_drop] at hla hlb
      have hpos : 0 < commonPrefix (base.drop (entry.toUInt32 - 1).toNat) (target.drop cursor) :=
        lt_of_lt_of_le (by decide) hlong.1
      exact ⟨hpos, by omega, by omega, htake⟩
    · exact hbest

theorem bestMatch_isMatch : ∀ {window : List UInt64} {best best' : Option (Nat × Nat)},
    bestMatch base target tag cursor window best = some best' →
    (∀ m ∈ best, IsMatch base target cursor m.1 m.2) → ∀ m ∈ best', IsMatch base target cursor m.1 m.2
  | [], best, best', h, hbest => by
    cases h
    exact hbest
  | entry :: window, best, best', h, hbest => by
    simp only [bestMatch, Option.bind_eq_bind, Option.bind_eq_some_iff] at h
    obtain ⟨best₁, h₁, h⟩ := h
    exact bestMatch_isMatch h (tryEntry_isMatch h₁ hbest)

/-- The offsets of the window point into the base, so the search is in range. -/
theorem bestMatch_total (hcursor : cursor ≤ target.length) : ∀ {window : List UInt64} {best : Option (Nat × Nat)},
    (∀ entry ∈ window, entry.toUInt32 = 0 ∨ (entry.toUInt32 - 1).toNat ≤ base.length) →
    ∃ best', bestMatch base target tag cursor window best = some best'
  | [], best, _ => ⟨best, rfl⟩
  | entry :: window, best, h => by
    have htry : ∃ best₁, tryEntry base target tag cursor entry best = some best₁ := by
      unfold tryEntry
      split
      · exact ⟨best, rfl⟩
      · rename_i hentry
        have hoffset := (h entry (List.mem_cons_self ..)).resolve_left fun hzero => hentry (.inr hzero)
        simp only [sliceFrom_eq hoffset, sliceFrom_eq hcursor]
        exact ⟨_, rfl⟩
    obtain ⟨best₁, htry⟩ := htry
    obtain ⟨best', hrest⟩ := @bestMatch_total hcursor window best₁ fun e he => h e (List.mem_cons_of_mem _ he)
    exact ⟨best', by simp only [bestMatch, htry, Option.bind_eq_bind, Option.bind_some, hrest]⟩

variable {index : BlockIndex} {s : Scan} {hash : UInt64}

theorem lookup_eq : s.lookup base target index =
    (if s.primed then some s.hash else (slice target s.cursor (s.cursor + MIN_COPY)).map blockHash).bind fun hash =>
      (index.windowOf hash).bind fun w =>
        (if w.1.any (fun entry => entry >>> 32 = w.2) then bestMatch base target w.2 s.cursor w.1 none
          else some none).bind fun best => some (hash, best) := by
  have hbind : ∀ (c : Prop) [Decidable c] (x y : Option (Option (Nat × Nat))) (f : Option (Nat × Nat) →
      Option (UInt64 × Option (Nat × Nat))), (if c then x.bind f else y.bind f) = (if c then x else y).bind f := by
    intro c _ x y f
    split
    · rfl
    · rfl
  unfold Scan.lookup
  cases s.primed
  · simp only [Option.bind_eq_bind, hbind]
    rfl
  · simp only [Option.bind_eq_bind, hbind]
    rfl

/-- What `make_delta` finds at its cursor is a match, whatever the index says. -/
theorem lookup_isMatch (h : s.lookup base target index = some (hash, best)) :
    ∀ m ∈ best, IsMatch base target s.cursor m.1 m.2 := by
  simp only [lookup_eq, Option.bind_eq_some_iff, Option.some.injEq, Prod.mk.injEq] at h
  obtain ⟨_, _, ⟨window, tag⟩, _, best', hbest, _, rfl⟩ := h
  split at hbest
  · exact bestMatch_isMatch hbest (by simp)
  · cases hbest
    simp

theorem windowOf_total (hindex : index.InRange base) (hash : UInt64) :
    ∃ window, index.windowOf hash = some (window, hash >>> 32) ∧ ∀ entry ∈ window, entry ∈ index.slots := by
  obtain ⟨window, hwindow, hslots⟩ := windowOf_slots (hindex.window hash)
  refine ⟨window, hwindow, fun entry hentry => ?_⟩
  obtain ⟨slot, hslot⟩ := mem_slots_of_window hslots hentry
  exact List.mem_of_getElem? hslot

theorem lookup_total (hindex : index.InRange base) (hcursor : s.cursor + MIN_COPY ≤ target.length) :
    ∃ hash best, s.lookup base target index = some (hash, best) := by
  obtain ⟨hash, hhash⟩ : ∃ hash, (if s.primed then some s.hash
      else (slice target s.cursor (s.cursor + MIN_COPY)).map blockHash) = some hash := by
    split
    · exact ⟨_, rfl⟩
    · exact ⟨_, by rw [slice_eq (Nat.le_add_right ..) hcursor, Option.map_some]⟩
  obtain ⟨window, hwindow, hmem⟩ := windowOf_total hindex hash
  obtain ⟨best, hbest⟩ := @bestMatch_total base target (hash >>> 32) s.cursor (by omega) window none
    fun entry hentry => hindex.offset entry (hmem entry hentry)
  rw [lookup_eq, hhash, Option.bind_some, hwindow, Option.bind_some]
  split
  · exact ⟨hash, best, by rw [hbest, Option.bind_some]⟩
  · exact ⟨hash, none, Option.bind_some ..⟩

end Lookup

/-! ## The scan -/

/-- The pending insert ends at the cursor, inside the target. -/
structure Scan.Valid (target : Bytes) (s : Scan) : Prop where
  start : s.insertStart ≤ s.cursor
  stop : s.cursor ≤ target.length

/-- The output is the sizes and then instructions for the target up to the
pending insert. -/
def Scan.Emitted (base target header : Bytes) (s : Scan) : Prop :=
  ∃ code, s.out = header ++ code ∧ Emits base code (target.take s.insertStart)

/-- What the early exit compares with the budget. -/
def Scan.weight (s : Scan) : Nat := s.out.length + (s.cursor - s.insertStart)

section Step

variable {base target header : Bytes} {s s' : Scan} {hash : UInt64} {best : Option (Nat × Nat)}

/-- A step past a match, or by one byte with the output as it is. -/
theorem advance_cases (h : s.advance target hash best = some s') :
    (∃ offset len, best = some (offset, len) ∧ s'.cursor = s.cursor + len ∧ s'.insertStart = s.cursor + len ∧
      s'.out = appendCopy (appendInsert s.out ((target.drop s.insertStart).take (s.cursor - s.insertStart))) offset len) ∨
    (best = none ∧ s'.cursor = s.cursor + 1 ∧ s'.insertStart = s.insertStart ∧ s'.out = s.out) := by
  cases best with
  | some m =>
    simp only [Scan.advance, Option.bind_eq_bind, Option.bind_eq_some_iff, Option.pure_def, Option.some.injEq] at h
    obtain ⟨pending, hpending, rfl⟩ := h
    refine .inl ⟨m.1, m.2, rfl, rfl, rfl, ?_⟩
    rw [slice_some hpending]
  | none =>
    simp only [Scan.advance] at h
    split at h
    · simp only [Option.bind_eq_bind, Option.bind_eq_some_iff, Option.pure_def, Option.some.injEq] at h
      obtain ⟨_, _, _, _, _, _, rfl⟩ := h
      exact .inr ⟨rfl, rfl, rfl, rfl⟩
    · simp only [Option.bind_eq_bind, Option.bind_some, Option.pure_def, Option.some.injEq] at h
      subst h
      exact .inr ⟨rfl, rfl, rfl, rfl⟩

theorem advance_total (hs : s.Valid target) (hcursor : s.cursor + MIN_COPY ≤ target.length) :
    ∃ s', s.advance target hash best = some s' := by
  cases best with
  | some m =>
    rw [Scan.advance, slice_eq hs.start hs.stop]
    exact ⟨_, rfl⟩
  | none =>
    have hout : s.cursor < target.length := lt_of_lt_of_le (Nat.lt_add_of_pos_right (by decide)) hcursor
    simp only [Scan.advance]
    split
    · rename_i hin
      simp only [List.getElem?_eq_getElem hout, List.getElem?_eq_getElem hin]
      exact ⟨_, rfl⟩
    · exact ⟨_, rfl⟩

theorem Scan.Valid.advance (hs : s.Valid target) (h : s.advance target hash best = some s')
    (hbest : ∀ m ∈ best, IsMatch base target s.cursor m.1 m.2) (hcursor : s.cursor + MIN_COPY ≤ target.length) :
    s'.Valid target ∧ s.cursor < s'.cursor := by
  rcases advance_cases h with ⟨offset, len, rfl, hc, hi, _⟩ | ⟨_, hc, hi, _⟩
  · obtain ⟨hpos, _, htarget, _⟩ := hbest _ rfl
    exact ⟨⟨by omega, by omega⟩, by omega⟩
  · have hstart := hs.start
    have hcopy : 0 < MIN_COPY := by decide
    exact ⟨⟨by omega, by omega⟩, by omega⟩

/-- Pending bytes are paid for before they leave the count, so what the early
exit compares never shrinks. -/
theorem weight_le_advance (hs : s.Valid target) (h : s.advance target hash best = some s') : s.weight ≤ s'.weight := by
  rcases advance_cases h with ⟨offset, len, rfl, hc, hi, hout⟩ | ⟨_, hc, hi, hout⟩
  · have hcopy := length_le_appendCopy
      (appendInsert s.out ((target.drop s.insertStart).take (s.cursor - s.insertStart))) offset len
    have hinsert := length_le_appendInsert s.out ((target.drop s.insertStart).take (s.cursor - s.insertStart))
    have hstop := hs.stop
    rw [List.length_take_of_le (by rw [List.length_drop]; omega)] at hinsert
    rw [← hout] at hcopy
    unfold Scan.weight
    omega
  · unfold Scan.weight
    rw [hc, hi, hout]
    omega

theorem Scan.Emitted.advance (he : s.Emitted base target header) (hs : s.Valid target)
    (h : s.advance target hash best = some s') (hbest : ∀ m ∈ best, IsMatch base target s.cursor m.1 m.2)
    (hlen : base.length < 2 ^ 32) : s'.Emitted base target header := by
  obtain ⟨code, hcode, hemits⟩ := he
  rcases advance_cases h with ⟨offset, len, rfl, hc, hi, hout⟩ | ⟨_, hc, hi, hout⟩
  · obtain ⟨hpos, hbase, htarget, heq⟩ := hbest _ rfl
    obtain ⟨copy, hcopy, hcopied⟩ := @appendCopy_spec base hlen
      (appendInsert s.out ((target.drop s.insertStart).take (s.cursor - s.insertStart))) offset len hbase
    have hinserted := emits_insert base ((target.drop s.insertStart).take (s.cursor - s.insertStart))
    rw [hcopy, appendInsert_eq, hcode] at hout
    refine ⟨_, by rw [hout, List.append_assoc, List.append_assoc], ?_⟩
    have hall := hemits.append (hinserted.append hcopied)
    have hstart := hs.start
    have hsplit : target.take (s.cursor + len) = target.take s.insertStart ++
        ((target.drop s.insertStart).take (s.cursor - s.insertStart) ++ (target.drop s.cursor).take len) := by
      rw [← List.append_assoc, ← List.take_add, Nat.add_sub_cancel' hstart, ← List.take_add]
    rw [hi, hsplit]
    rwa [heq] at hall
  · exact ⟨code, by rw [hout, hcode], by rwa [hi]⟩

end Step

/-! ## The delta without a budget -/

/-- The loop of `make_delta` when nothing is too long. -/
def fullDeltaFrom (base target : Bytes) (index : BlockIndex) : Nat → Scan → Option Bytes
  | 0, _ => none
  | fuel + 1, s =>
    if s.cursor + MIN_COPY ≤ target.length then
      (s.lookup base target index).bind fun (hash, best) =>
        (s.advance target hash best).bind fun s => fullDeltaFrom base target index fuel s
    else (sliceFrom target s.insertStart).map (appendInsert s.out)

section FullDelta

variable {base target header d : Bytes} {index : BlockIndex} {maxSize : Nat}

theorem fullDeltaFrom_of_makeDelta : ∀ {fuel : Nat} {s : Scan},
    makeDeltaFrom base target index maxSize fuel s = some (some d) → fullDeltaFrom base target index fuel s = some d
  | 0, s, h => by cases h
  | fuel + 1, s, h => by
    rw [makeDeltaFrom] at h
    rw [fullDeltaFrom]
    split at h
    · rename_i hcursor
      rw [if_pos hcursor]
      split at h
      · cases h
      · simp only [Option.bind_eq_bind, Option.bind_eq_some_iff] at h ⊢
        obtain ⟨found, hfound, s', hs', h⟩ := h
        exact ⟨found, hfound, s', hs', fullDeltaFrom_of_makeDelta h⟩
    · rename_i hcursor
      rw [if_neg hcursor]
      simp only [Option.bind_eq_bind, Option.bind_eq_some_iff, Option.pure_def, Option.some.injEq] at h
      obtain ⟨rest, hrest, h⟩ := h
      split at h
      · cases h
        rw [hrest, Option.map_some]
      · cases h

/-- The early exit leaves only when the whole delta is too long. -/
theorem weight_le_fullDelta : ∀ {fuel : Nat} {s : Scan}, s.Valid target → fullDeltaFrom base target index fuel s = some d →
    s.weight ≤ d.length
  | 0, s, _, h => by cases h
  | fuel + 1, s, hs, h => by
    rw [fullDeltaFrom] at h
    split at h
    · rename_i hcursor
      simp only [Option.bind_eq_some_iff] at h
      obtain ⟨⟨hash, best⟩, hfound, s', hs', h⟩ := h
      have hvalid := (hs.advance hs' (lookup_isMatch hfound) hcursor).1
      exact le_trans (weight_le_advance hs hs') (weight_le_fullDelta hvalid h)
    · obtain ⟨rest, hrest, rfl⟩ := Option.map_eq_some_iff.1 h
      obtain ⟨_, rfl⟩ := sliceFrom_some hrest
      have hinsert := length_le_appendInsert s.out (target.drop s.insertStart)
      have hstop := hs.stop
      rw [List.length_drop] at hinsert
      unfold Scan.weight
      omega

/-- A budget keeps the delta or drops it. -/
theorem makeDeltaFrom_of_full : ∀ {fuel : Nat} {s : Scan}, s.Valid target →
    fullDeltaFrom base target index fuel s = some d →
    makeDeltaFrom base target index maxSize fuel s = some (if d.length ≤ maxSize then some d else none)
  | 0, s, _, h => by cases h
  | fuel + 1, s, hs, h => by
    have hweight := weight_le_fullDelta hs h
    rw [fullDeltaFrom] at h
    rw [makeDeltaFrom]
    split at h
    · rename_i hcursor
      rw [if_pos hcursor]
      split
      · rename_i hover
        have hlong : ¬ d.length ≤ maxSize := by
          unfold Scan.weight at hweight
          omega
        rw [if_neg hlong]
      · simp only [Option.bind_eq_some_iff] at h
        obtain ⟨⟨hash, best⟩, hfound, s', hs', h⟩ := h
        have hvalid := (hs.advance hs' (lookup_isMatch hfound) hcursor).1
        simp only [hfound, Option.bind_eq_bind, Option.bind_some, hs', makeDeltaFrom_of_full hvalid h]
    · rename_i hcursor
      rw [if_neg hcursor]
      obtain ⟨rest, hrest, rfl⟩ := Option.map_eq_some_iff.1 h
      simp only [hrest, Option.bind_eq_bind, Option.bind_some, Option.pure_def]

/-- In range of the base, the scan ends with instructions for the target. -/
theorem fullDeltaFrom_total (hlen : base.length < 2 ^ 32) (hindex : index.InRange base) : ∀ {fuel : Nat} {s : Scan},
    target.length < s.cursor + fuel → s.Valid target → s.Emitted base target header →
    ∃ code, fullDeltaFrom base target index fuel s = some (header ++ code) ∧ Emits base code target
  | 0, s, hfuel, hs, _ => absurd hs.stop (by omega)
  | fuel + 1, s, hfuel, hs, he => by
    rw [fullDeltaFrom]
    split
    · rename_i hcursor
      obtain ⟨hash, best, hfound⟩ := lookup_total hindex hcursor
      obtain ⟨s', hs'⟩ := @advance_total target s hash best hs hcursor
      have hbest := lookup_isMatch hfound
      obtain ⟨hvalid, hlt⟩ := hs.advance hs' hbest hcursor
      obtain ⟨code, hcode, hemits⟩ := @fullDeltaFrom_total hlen hindex fuel s' (by omega) hvalid
        (he.advance hs hs' hbest hlen)
      exact ⟨code, by simp only [hfound, Option.bind_some, hs', hcode], hemits⟩
    · obtain ⟨code, hcode, hemits⟩ := he
      have hinserted := emits_insert base (target.drop s.insertStart)
      rw [sliceFrom_eq (le_trans hs.start hs.stop), Option.map_some, appendInsert_eq, hcode, List.append_assoc]
      refine ⟨_, rfl, ?_⟩
      have hall := hemits.append hinserted
      rwa [List.take_append_drop] at hall

end FullDelta

/-- The loop of `make_delta` at its start. -/
def Scan.start (base target : Bytes) : Scan := ⟨encodeSize target.length (encodeSize base.length []), 0, 0, 0, false⟩

theorem valid_start (base target : Bytes) : (Scan.start base target).Valid target := ⟨le_rfl, Nat.zero_le _⟩

/-- The delta of `make_delta` without a budget rebuilds the target. -/
theorem fullDelta_spec {base target : Bytes} (hbase : base.length < 2 ^ 32) {index : BlockIndex}
    (hindex : index.InRange base) :
    ∃ d, fullDeltaFrom base target index (target.length + 1) (.start base target) = some d ∧
      (target.length < 2 ^ 64 → GitDelta.apply base d = some target) := by
  have hstart : (Scan.start base target).Emitted base target (encodeSize target.length (encodeSize base.length [])) :=
    ⟨[], by rw [List.append_nil]; rfl, .nil⟩
  have hfuel : target.length < (Scan.start base target).cursor + (target.length + 1) := by
    rw [Scan.start]
    omega
  obtain ⟨code, hcode, hemits⟩ := fullDeltaFrom_total hbase hindex hfuel (valid_start ..) hstart
  refine ⟨_, hcode, fun htarget => apply_of_emits (fun rest => ⟨encodeSize target.length [] ++ rest, ?_, ?_⟩) hemits⟩
  · rw [show encodeSize target.length (encodeSize base.length []) = encodeSize base.length [] ++ encodeSize target.length []
      from rfl, List.append_assoc]
    exact readSize_encodeSize (by omega) _
  · exact readSize_encodeSize htarget _

/-- `make_delta` never leaves its slices, and what it returns is within the
budget and rebuilds the target. -/
theorem makeDelta_sound (base target : Bytes) (hbase : base.length < 2 ^ 32) (htarget : target.length < 2 ^ 32)
    (maxSize : Nat) :
    ∃ index r, blockIndex base = some index ∧ makeDelta base target index maxSize = some r ∧
      ∀ d, r = some d → d.length ≤ maxSize ∧ GitDelta.apply base d = some target := by
  obtain ⟨index, hblocks, hindex⟩ := blockIndex_inRange hbase
  obtain ⟨d, hd, happly⟩ := @fullDelta_spec base target hbase index hindex
  refine ⟨index, _, hblocks, makeDeltaFrom_of_full (valid_start ..) hd, ?_⟩
  intro d' hd'
  split at hd'
  · rename_i hfits
    cases hd'
    exact ⟨hfits, happly (lt_trans htarget (by norm_num))⟩
  · cases hd'

theorem makeDelta_sound_short : ∃ index r, blockIndex (List.replicate 40 7) = some index ∧
    makeDelta (List.replicate 40 7) (List.replicate 50 7) index 25 = some r ∧
    ∀ d, r = some d → d.length ≤ 25 ∧ GitDelta.apply (List.replicate 40 7) d = some (List.replicate 50 7) :=
  makeDelta_sound (List.replicate 40 7) (List.replicate 50 7) (by decide) (by decide) 25

/-- The early exit changes no answer: a delta that is found under one budget is
found under every budget it fits. -/
theorem makeDelta_of_unbounded {base target d : Bytes} {index : BlockIndex} {unbounded : Nat}
    (h : makeDelta base target index unbounded = some (some d)) (maxSize : Nat) :
    makeDelta base target index maxSize = some (if d.length ≤ maxSize then some d else none) :=
  makeDeltaFrom_of_full (valid_start ..) (fullDeltaFrom_of_makeDelta h)

/-- `d` is the delta `make_delta` returns when no budget is in its way. -/
def UnboundedDelta (base target d : Bytes) : Prop :=
  ∃ index unbounded, blockIndex base = some index ∧ makeDelta base target index unbounded = some (some d)

theorem UnboundedDelta.unique {base target d d' : Bytes} (h : UnboundedDelta base target d)
    (h' : UnboundedDelta base target d') : d' = d := by
  obtain ⟨index, unbounded, hindex, hd⟩ := h
  obtain ⟨index', unbounded', hindex', hd'⟩ := h'
  cases hindex.symm.trans hindex'
  have heq := hd'.symm.trans (makeDelta_of_unbounded hd unbounded')
  split at heq
  · exact Option.some.inj (Option.some.inj heq)
  · cases Option.some.inj heq

theorem UnboundedDelta.pos {base target d : Bytes} (h : UnboundedDelta base target d) : 0 < d.length := by
  obtain ⟨index, unbounded, _, hd⟩ := h
  have hweight := weight_le_fullDelta (valid_start base target) (fullDeltaFrom_of_makeDelta hd)
  have hsize : 0 < (encodeSizeFrom 10 target.length).length := by
    unfold encodeSizeFrom
    split
    · exact Nat.succ_pos _
    · exact Nat.one_pos
  have hout : (Scan.start base target).out = encodeSize base.length [] ++ encodeSizeFrom 10 target.length := rfl
  rw [Scan.weight, hout, List.length_append] at hweight
  omega

/-- Without a match nothing leaves the pending insert. -/
theorem length_le_fullDelta {base target d : Bytes} {index : BlockIndex}
    (hnone : ∀ cursor offset len, ¬ IsMatch base target cursor offset len) : ∀ {fuel : Nat} {s : Scan},
    fullDeltaFrom base target index fuel s = some d → s.out.length + (target.length - s.insertStart) ≤ d.length
  | 0, s, h => by cases h
  | fuel + 1, s, h => by
    rw [fullDeltaFrom] at h
    split at h
    · simp only [Option.bind_eq_some_iff] at h
      obtain ⟨⟨hash, best⟩, hfound, s', hs', h⟩ := h
      have hrest := length_le_fullDelta hnone h
      rcases advance_cases hs' with ⟨offset, len, rfl, _⟩ | ⟨-, -, hi, hout⟩
      · exact absurd (lookup_isMatch hfound _ rfl) (hnone _ _ _)
      · rwa [hi, hout] at hrest
    · obtain ⟨rest, hrest, rfl⟩ := Option.map_eq_some_iff.1 h
      obtain ⟨_, rfl⟩ := sliceFrom_some hrest
      have hinsert := length_le_appendInsert s.out (target.drop s.insertStart)
      rwa [List.length_drop] at hinsert

theorem UnboundedDelta.length_le {base target d : Bytes} (h : UnboundedDelta base target d)
    (hnone : ∀ cursor offset len, ¬ IsMatch base target cursor offset len) : target.length ≤ d.length := by
  obtain ⟨index, unbounded, _, hd⟩ := h
  have hle := length_le_fullDelta hnone (fullDeltaFrom_of_makeDelta hd)
  exact le_trans (Nat.le_add_left ..) hle

/-- A base of less than 4 GiB has a delta, which rebuilds the target. -/
theorem exists_unboundedDelta {base : Bytes} (hbase : base.length < 2 ^ 32) (target : Bytes) :
    ∃ d, UnboundedDelta base target d ∧ (target.length < 2 ^ 64 → GitDelta.apply base d = some target) := by
  obtain ⟨index, hblocks, hindex⟩ := blockIndex_inRange hbase
  obtain ⟨d, hd, happly⟩ := @fullDelta_spec base target hbase index hindex
  have hfound := @makeDeltaFrom_of_full base target d index d.length _ _ (valid_start ..) hd
  rw [if_pos le_rfl] at hfound
  exact ⟨d, ⟨index, d.length, hblocks, hfound⟩, happly⟩

end PackOut

end Miscreant
