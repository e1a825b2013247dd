/-
The block index is well formed (`blockIndex_wellFormed`): a probe window is
inside the slots, and a slot that is taken holds a block of the base, within
reach of its hash and nowhere else.

Blocks go in by ascending offset, so what an index holds is below the offset
that goes in next (`BlockIndex.Below`), which is why no offset is held twice.
-/
import Miscreant.PackOut

namespace Miscreant

namespace PackOut

/-! ## Slices -/

section Slices

variable {α : Type} {xs : List α} {i j : Nat}

theorem slice_eq (hij : i ≤ j) (hj : j ≤ xs.length) : slice xs i j = some ((xs.drop i).take (j - i)) := if_pos ⟨hij, hj⟩

theorem slice_some {ys : List α} (h : slice xs i j = some ys) : ys = (xs.drop i).take (j - i) := by
  unfold slice at h
  split at h
  · exact (Option.some.inj h).symm
  · cases h

theorem sliceFrom_eq (hi : i ≤ xs.length) : sliceFrom xs i = some (xs.drop i) := by
  rw [sliceFrom, slice_eq hi le_rfl, List.take_of_length_le (by rw [List.length_drop])]

theorem sliceFrom_some {ys : List α} (h : sliceFrom xs i = some ys) : i ≤ xs.length ∧ xs.drop i = ys := by
  have hi : i ≤ xs.length := by
    by_contra hgt
    rw [sliceFrom, slice, if_neg (fun hin => hgt hin.1)] at h
    cases h
  rw [sliceFrom_eq hi] at h
  exact ⟨hi, Option.some.inj h⟩

end Slices

/-! ## Homes -/

theorem trailingZerosFrom_two_pow : ∀ f k : Nat, trailingZerosFrom f (2 ^ k) = min k f
  | 0, k => by simp [trailingZerosFrom]
  | f + 1, 0 => by simp [trailingZerosFrom]
  | f + 1, k + 1 => by
    have hdiv : 2 ^ (k + 1) / 2 = 2 ^ k := by
      rw [Nat.pow_succ]
      exact Nat.mul_div_cancel _ (by decide)
    have heven : 2 ^ (k + 1) % 2 = 0 := by
      rw [Nat.pow_succ]
      exact Nat.mul_mod_left ..
    rw [trailingZerosFrom, if_pos heven, hdiv, trailingZerosFrom_two_pow f k]
    omega

theorem homeOf_lt {index : BlockIndex} {k : Nat} (h : index.shift = 64 - trailingZeros (2 ^ k)) (fingerprint : UInt64) :
    index.homeOf fingerprint < 2 ^ k := by
  have hlt := (fingerprint * HASH_BASE).toNat_lt
  rw [trailingZeros, trailingZerosFrom_two_pow] at h
  have hsplit : 2 ^ 64 ≤ 2 ^ index.shift * 2 ^ k := by
    rw [h, ← Nat.pow_add]
    exact Nat.pow_le_pow_right (by decide) (by omega)
  exact Nat.div_lt_of_lt_mul (lt_of_lt_of_le hlt hsplit)

/-- The table has a power of two of homes. -/
theorem homes_two_pow (blocks : Nat) : ∃ k, max (blocks * 4).nextPowerOfTwo PROBE_WINDOW = 2 ^ k := by
  obtain ⟨j, hj⟩ := Nat.isPowerOfTwo_nextPowerOfTwo (blocks * 4)
  rw [hj, show PROBE_WINDOW = 2 ^ 3 from rfl]
  rcases le_total (2 ^ j) (2 ^ 3) with h | h
  · exact ⟨3, max_eq_right h⟩
  · exact ⟨j, max_eq_left h⟩

/-! ## Packed entries -/

/-- The entry of a block: the tag of its hash over its offset, from one. -/
def packed (hash : UInt64) (offset : Nat) : UInt64 := ((hash >>> 32) <<< 32) ||| (UInt64.ofNat offset + 1)

/-- The offset `make_delta` reads from an entry. -/
def offsetOf (entry : UInt64) : Nat := (entry.toUInt32 - 1).toNat

theorem toUInt32_packed {hash : UInt64} {offset : Nat} (h : offset + 1 < 2 ^ 32) :
    (packed hash offset).toUInt32 = UInt32.ofNat (offset + 1) := by
  apply UInt32.toNat_inj.1
  have hshift : ((hash >>> 32) <<< 32).toNat % 2 ^ 32 = 0 := by
    rw [UInt64.toNat_shiftLeft, Nat.shiftLeft_eq]
    simp only [UInt64.reduceToNat, Nat.reduceMod]
    omega
  have hoffset : (UInt64.ofNat offset + 1).toNat = offset + 1 := by
    rw [UInt64.toNat_add, UInt64.toNat_ofNat']
    simp only [UInt64.reduceToNat]
    omega
  rw [packed, UInt64.toNat_toUInt32, UInt64.toNat_or, Nat.or_mod_two_pow, hshift, hoffset, Nat.zero_or,
    UInt32.toNat_ofNat']

theorem offsetOf_packed {hash : UInt64} {offset : Nat} (h : offset + 1 < 2 ^ 32) :
    offsetOf (packed hash offset) = offset := by
  rw [offsetOf, toUInt32_packed h, UInt32.toNat_sub, UInt32.toNat_ofNat']
  simp only [UInt32.reduceToNat]
  omega

/-! ## The invariant -/

/-- What a slot that is taken says: the block it holds, and that a probe for
the hash of the block comes by. -/
structure BlockIndex.Holds (index : BlockIndex) (base : Bytes) (slot : Nat) (entry : UInt64) (offset : Nat)
    (block : Bytes) : Prop where
  aligned : MIN_COPY ∣ offset
  le_base : offset + MIN_COPY ≤ base.length
  slice_eq : slice base offset (offset + MIN_COPY) = some block
  entry_eq : entry = packed (blockHash block) offset
  home_le : index.homeOf (blockHash block) ≤ slot
  slot_lt : slot < index.homeOf (blockHash block) + PROBE_WINDOW

/-- Probe windows are inside the slots, taken slots hold blocks of the base,
and no two of them the same. -/
structure BlockIndex.WellFormed (index : BlockIndex) (base : Bytes) : Prop where
  window : ∀ fingerprint, index.homeOf fingerprint + PROBE_WINDOW ≤ index.slots.length
  block : ∀ (slot : Nat) (entry : UInt64), index.slots[slot]? = some entry → entry ≠ 0 →
    ∃ offset block, index.Holds base slot entry offset block
  distinct : ∀ (slot slot' : Nat) (entry entry' : UInt64), index.slots[slot]? = some entry →
    index.slots[slot']? = some entry' → entry ≠ 0 → entry' ≠ 0 → offsetOf entry = offsetOf entry' → slot = slot'

/-- The offsets the index holds are below `n`. -/
def BlockIndex.Below (index : BlockIndex) (n : Nat) : Prop :=
  ∀ (slot : Nat) (entry : UInt64), index.slots[slot]? = some entry → entry ≠ 0 → offsetOf entry < n

/-- An insert fills one free slot of the probe window, or none. -/
theorem insertFrom_cases {tag : UInt64} {offset : Nat} {slots : List UInt64} : ∀ {n slot duplicates : Nat},
    slot + n ≤ slots.length → ∃ slots', insertFrom tag offset slots n slot duplicates = some slots' ∧
      (slots' = slots ∨ ∃ i, slot ≤ i ∧ i < slot + n ∧ slots[i]? = some 0 ∧
        slots' = slots.set i ((tag <<< 32) ||| (UInt64.ofNat offset + 1)))
  | 0, slot, duplicates, _ => ⟨slots, rfl, .inl rfl⟩
  | n + 1, slot, duplicates, h => by
    have hslot : slots[slot]? = some (slots.get ⟨slot, by omega⟩) := List.getElem?_eq_getElem (by omega)
    have hrest : ∀ d, ∃ slots', insertFrom tag offset slots n (slot + 1) d = some slots' ∧
        (slots' = slots ∨ ∃ i, slot ≤ i ∧ i < slot + (n + 1) ∧ slots[i]? = some 0 ∧
          slots' = slots.set i ((tag <<< 32) ||| (UInt64.ofNat offset + 1))) := by
      intro d
      obtain ⟨slots', hinsert, hcases⟩ := @insertFrom_cases tag offset slots n (slot + 1) d (by omega)
      refine ⟨slots', hinsert, hcases.imp_right ?_⟩
      rintro ⟨i, hle, hlt, hfree, heq⟩
      exact ⟨i, by omega, by omega, hfree, heq⟩
    rw [insertFrom, hslot]
    dsimp only
    split
    · rename_i hfree
      exact ⟨_, rfl, .inr ⟨slot, le_rfl, by omega, hslot.trans (congrArg some hfree), rfl⟩⟩
    · split
      · split
        · exact ⟨slots, rfl, .inl rfl⟩
        · exact hrest _
      · exact hrest _

theorem getElem?_set_cases {slots : List UInt64} {i slot : Nat} {x entry : UInt64}
    (h : (slots.set i x)[slot]? = some entry) : (slot = i ∧ entry = x) ∨ (slot ≠ i ∧ slots[slot]? = some entry) := by
  by_cases hslot : slot = i
  · subst hslot
    rw [List.getElem?_set_self'] at h
    obtain ⟨_, _, hx⟩ := Option.map_eq_some_iff.1 h
    exact .inl ⟨rfl, hx.symm⟩
  · rw [List.getElem?_set_ne (Ne.symm hslot)] at h
    exact .inr ⟨hslot, h⟩

section Insert

variable {index : BlockIndex} {base block : Bytes} {offset : Nat}

/-- A block above those held goes in, or is left out. -/
theorem BlockIndex.WellFormed.insert (h : index.WellFormed base) (hlen : base.length < 2 ^ 32)
    (haligned : MIN_COPY ∣ offset) (hle : offset + MIN_COPY ≤ base.length)
    (hblock : slice base offset (offset + MIN_COPY) = some block) (hbelow : index.Below offset) :
    ∃ index', index.insert (blockHash block) offset = some index' ∧ index'.WellFormed base ∧
      index'.Below (offset + 1) := by
  obtain ⟨slots, hinsert, hcases⟩ :=
    @insertFrom_cases (blockHash block >>> 32) offset index.slots PROBE_WINDOW (index.homeOf (blockHash block)) 0
      (h.window _)
  refine ⟨{ index with slots }, by rw [BlockIndex.insert, hinsert]; rfl, ?_⟩
  rcases hcases with rfl | ⟨i, hhome, hreach, hfree, rfl⟩
  · exact ⟨h, fun slot entry hentry hne => Nat.lt_succ_of_lt (hbelow slot entry hentry hne)⟩
  · have hoffset : offsetOf (packed (blockHash block) offset) = offset :=
      offsetOf_packed (by simp only [MIN_COPY] at hle; omega)
    refine ⟨⟨fun fingerprint => ?_, fun slot entry hentry hne => ?_, ?_⟩, fun slot entry hentry hne => ?_⟩
    · rw [List.length_set]
      exact h.window fingerprint
    · rcases getElem?_set_cases hentry with ⟨rfl, rfl⟩ | ⟨-, hold⟩
      · exact ⟨offset, block, haligned, hle, hblock, rfl, hhome, hreach⟩
      · obtain ⟨offset', block', hholds⟩ := h.block slot entry hold hne
        exact ⟨offset', block', { hholds with }⟩
    · intro slot slot' entry entry' hentry hentry' hne hne' heq
      rcases getElem?_set_cases hentry with ⟨rfl, rfl⟩ | ⟨-, hold⟩
      · rcases getElem?_set_cases hentry' with ⟨rfl, -⟩ | ⟨-, hold'⟩
        · rfl
        · have hlt := hbelow slot' entry' hold' hne'
          exact absurd (hoffset.symm.trans heq) (by omega)
      · rcases getElem?_set_cases hentry' with ⟨rfl, rfl⟩ | ⟨-, hold'⟩
        · have hlt := hbelow slot entry hold hne
          exact absurd (heq.trans hoffset) (by omega)
        · exact h.distinct slot slot' entry entry' hold hold' hne hne' heq
    · rcases getElem?_set_cases hentry with ⟨-, rfl⟩ | ⟨-, hold⟩
      · exact Nat.lt_succ_of_le (le_of_eq hoffset)
      · exact Nat.lt_succ_of_lt (hbelow slot entry hold hne)

/-- Blocks at ascending offsets, all above those held. -/
theorem insertBlocks_wellFormed (hlen : base.length < 2 ^ 32) : ∀ {offsets : List Nat} {index : BlockIndex},
    index.WellFormed base → offsets.Pairwise (· < ·) →
    (∀ offset ∈ offsets, MIN_COPY ∣ offset ∧ offset + MIN_COPY ≤ base.length ∧ index.Below offset) →
    ∃ index', insertBlocks base offsets index = some index' ∧ index'.WellFormed base
  | [], index, h, _, _ => ⟨index, rfl, h⟩
  | offset :: offsets, index, h, hascending, hoffsets => by
    obtain ⟨haligned, hle, hbelow⟩ := hoffsets offset (List.mem_cons_self ..)
    obtain ⟨hfirst, hrest⟩ := List.pairwise_cons.1 hascending
    have hblock : slice base offset (offset + MIN_COPY) = some ((base.drop offset).take MIN_COPY) := by
      rw [slice_eq (Nat.le_add_right ..) hle, Nat.add_sub_cancel_left]
    obtain ⟨index₁, hinsert, h₁, hbelow₁⟩ := h.insert hlen haligned hle hblock hbelow
    obtain ⟨index', hinserts, h'⟩ := insertBlocks_wellFormed hlen h₁ hrest fun o ho => by
      obtain ⟨haligned', hle', -⟩ := hoffsets o (List.mem_cons_of_mem _ ho)
      exact ⟨haligned', hle', fun slot entry hentry hne => lt_of_lt_of_le (hbelow₁ slot entry hentry hne) (hfirst o ho)⟩
    refine ⟨index', ?_, h'⟩
    rw [insertBlocks, hblock]
    simp only [Option.bind_eq_bind, Option.bind_some, hinsert, hinserts]

end Insert

/-- An index that holds nothing. -/
theorem free_slot {n slot : Nat} {entry : UInt64} (h : (List.replicate n (0 : UInt64))[slot]? = some entry) : entry = 0 :=
  List.eq_of_mem_replicate (List.mem_of_getElem? h)

theorem blockIndex_spec {base : Bytes} (hlen : base.length < 2 ^ 32) :
    ∃ index, blockIndex base = some index ∧ index.WellFormed base := by
  obtain ⟨k, hk⟩ := homes_two_pow (base.length / MIN_COPY)
  have hempty : BlockIndex.WellFormed ⟨List.replicate (2 ^ k + PROBE_WINDOW) 0, 64 - trailingZeros (2 ^ k)⟩ base := by
    refine ⟨fun fingerprint => ?_, fun slot entry hentry hne => absurd (free_slot hentry) hne,
      fun slot slot' entry entry' hentry _ hne => absurd (free_slot hentry) hne⟩
    have hhome := @homeOf_lt ⟨List.replicate (2 ^ k + PROBE_WINDOW) 0, 64 - trailingZeros (2 ^ k)⟩ k rfl fingerprint
    rw [List.length_replicate]
    omega
  unfold blockIndex
  dsimp only
  rw [hk]
  split
  · exact ⟨_, rfl, hempty⟩
  · refine insertBlocks_wellFormed hlen hempty ?_ fun offset hoffset => ?_
    · refine List.pairwise_map.2 (List.pairwise_lt_range.imp fun hlt => ?_)
      exact Nat.mul_lt_mul_of_pos_right hlt (by decide)
    · obtain ⟨i, hi, rfl⟩ := List.mem_map.1 hoffset
      have hi := List.mem_range.1 hi
      refine ⟨Nat.dvd_mul_left .., ?_, fun slot entry hentry hne => absurd (free_slot hentry) hne⟩
      simp only [MIN_COPY] at *
      omega

/-! ## Probes -/

section Probe

variable {index : BlockIndex} {base : Bytes} {hash : UInt64}

/-- The window of a hash is the slots from its home on. -/
theorem windowOf_slots (hwindow : index.homeOf hash + PROBE_WINDOW ≤ index.slots.length) :
    ∃ window, index.windowOf hash = some (window, hash >>> 32) ∧
      ∀ i : Nat, window[i]? = if i < PROBE_WINDOW then index.slots[index.homeOf hash + i]? else none := by
  unfold BlockIndex.windowOf
  -- The kernel would unfold the product of the hash.
  generalize index.homeOf hash = home at hwindow
  refine ⟨(index.slots.drop home).take PROBE_WINDOW, ?_, fun i => ?_⟩
  · dsimp only
    rw [slice_eq (Nat.le_add_right ..) hwindow, Option.map_some, Nat.add_sub_cancel_left]
  · rw [List.getElem?_take, List.getElem?_drop]

theorem mem_slots_of_window {window : List UInt64} {entry : UInt64}
    (hslots : ∀ i : Nat, window[i]? = if i < PROBE_WINDOW then index.slots[index.homeOf hash + i]? else none)
    (hentry : entry ∈ window) : ∃ slot : Nat, index.slots[slot]? = some entry := by
  obtain ⟨i, hi⟩ := List.mem_iff_getElem?.1 hentry
  rw [hslots] at hi
  split at hi
  · exact ⟨_, hi⟩
  · cases hi

theorem BlockIndex.Holds.mem_window {slot : Nat} {entry : UInt64} {offset : Nat} {block : Bytes}
    (h : index.Holds base slot entry offset block) (hentry : index.slots[slot]? = some entry) {window : List UInt64}
    (hslots : ∀ i : Nat, window[i]? =
      if i < PROBE_WINDOW then index.slots[index.homeOf (blockHash block) + i]? else none) : entry ∈ window := by
  have hhome := h.home_le
  have hreach := h.slot_lt
  refine List.mem_iff_getElem?.2 ⟨slot - index.homeOf (blockHash block), ?_⟩
  rw [hslots, if_pos (by omega), Nat.add_sub_cancel' hhome, hentry]

/-- What is read from a taken slot is the offset of a block. -/
theorem BlockIndex.WellFormed.offset_le (h : index.WellFormed base) (hlen : base.length < 2 ^ 32) {slot : Nat}
    {entry : UInt64} (hentry : index.slots[slot]? = some entry) (hlow : entry.toUInt32 ≠ 0) :
    offsetOf entry + MIN_COPY ≤ base.length := by
  have hne : entry ≠ 0 := by
    rintro rfl
    exact hlow rfl
  obtain ⟨offset, block, hholds⟩ := h.block slot entry hentry hne
  have hle := hholds.le_base
  rw [hholds.entry_eq, offsetOf_packed (by simp only [MIN_COPY] at hle; omega)]
  exact hle

end Probe

/-- The index of every base of less than 4 GiB is built and well formed: a
probe for a block's hash finds it, what is read from a window is the offset of
a block, and a free slot is never read. -/
theorem blockIndex_wellFormed (base : Bytes) (hlen : base.length < 2 ^ 32) :
    ∃ index, blockIndex base = some index ∧ index.WellFormed base ∧
      (∀ (slot : Nat) (entry : UInt64), index.slots[slot]? = some entry → entry ≠ 0 →
        ∃ offset block window, index.Holds base slot entry offset block ∧
          index.windowOf (blockHash block) = some (window, blockHash block >>> 32) ∧ entry ∈ window) ∧
      (∀ hash, ∃ window, index.windowOf hash = some (window, hash >>> 32) ∧
        ∀ entry ∈ window, entry >>> 32 = hash >>> 32 → entry.toUInt32 ≠ 0 →
          (entry.toUInt32 - 1).toNat + MIN_COPY ≤ base.length) ∧
      ∀ target tag cursor best, tryEntry base target tag cursor 0 best = some best := by
  obtain ⟨index, hindex, h⟩ := blockIndex_spec hlen
  refine ⟨index, hindex, h, fun slot entry hentry hne => ?_, fun hash => ?_, fun target tag cursor best => ?_⟩
  · obtain ⟨offset, block, hholds⟩ := h.block slot entry hentry hne
    obtain ⟨window, hwindow, hslots⟩ := windowOf_slots (h.window (blockHash block))
    exact ⟨offset, block, window, hholds, hwindow, hholds.mem_window hentry hslots⟩
  · obtain ⟨window, hwindow, hslots⟩ := windowOf_slots (h.window hash)
    refine ⟨window, hwindow, fun entry hentry _ hlow => ?_⟩
    obtain ⟨slot, hslot⟩ := mem_slots_of_window hslots hentry
    exact h.offset_le hlen hslot hlow
  · exact if_pos (.inr rfl)

theorem blockIndex_wellFormed_short : ∃ index, blockIndex (List.replicate 40 7) = some index ∧
    index.WellFormed (List.replicate 40 7) ∧ ∀ target tag cursor best,
      tryEntry (List.replicate 40 7) target tag cursor 0 best = some best := by
  obtain ⟨index, hindex, h, -, -, hfree⟩ := blockIndex_wellFormed (List.replicate 40 7) (by decide)
  exact ⟨index, hindex, h, hfree⟩

end PackOut

end Miscreant
