/-
The ranges of the part cache.

A range is read as parts in a row (`splitRangeIntoParts_eq`): each in the
bounds of its part, and joined they are the range, whatever the object
(`splitRangeIntoParts_covers`). Aligning a range widens it to whole parts, so
what is asked of the object store has every part that is read
but a suffix is aligned by its length and not by where it starts: it starts at
a part only if the object is whole parts or shorter (`alignGetRange_widened`).
-/
import Miscreant.PartCache
import Miscreant.Wire

namespace Miscreant

open Lib

/-- The parts of `[a, b)`: from part `a / n` up to the part that ends at or
after `b`. -/
def partIds (n a b : Nat) : List Nat := List.range' (a / n) ((b + n - 1) / n - a / n)

/-- What of `[a, b)` is in part `i`, by offsets in the part. -/
def rangeInPart (n a b i : Nat) : ByteRange := ⟨max a (n * i) - n * i, min b (n * (i + 1)) - n * i⟩

section Bounds

variable {n a b i : Nat}

theorem mul_div_bounds (hn : 0 < n) (a : Nat) : n * (a / n) ≤ a ∧ a < n * (a / n) + n := by
  have := Nat.div_add_mod a n
  have := Nat.mod_lt a hn
  omega

theorem mul_divCeil_bounds (hn : 0 < n) (b : Nat) : b ≤ n * ((b + n - 1) / n) ∧ n * ((b + n - 1) / n) < b + n := by
  have := mul_div_bounds hn (b + n - 1)
  omega

theorem mem_partIds : i ∈ partIds n a b ↔ a / n ≤ i ∧ i < (b + n - 1) / n := by
  rw [partIds, List.mem_range'_1]
  omega

/-- The part ids of a range are those of the parts it reaches into. -/
theorem partIds_bounds (hn : 0 < n) (h : i ∈ partIds n a b) : a < n * (i + 1) ∧ n * i < b := by
  rw [mem_partIds] at h
  have ha := mul_div_bounds hn a
  have hb := mul_divCeil_bounds hn b
  have hai : n * (a / n) ≤ n * i := Nat.mul_le_mul_left n h.1
  have hib : n * (i + 1) ≤ n * ((b + n - 1) / n) := Nat.mul_le_mul_left n h.2
  rw [Nat.mul_add, Nat.mul_one] at hib ⊢
  omega

end Bounds

namespace CachedObjectStore

variable (cache : CachedObjectStore)

theorem partSize_pos : 0 < cache.partSizeBytes := cache.valid.1

/-- The parts of a range, without the first and the last one apart. -/
theorem splitRangeIntoParts_eq {a b : Nat} (hab : a ≤ b) :
    cache.splitRangeIntoParts ⟨a, b⟩ =
      (partIds cache.partSizeBytes a b).map fun i => (i, rangeInPart cache.partSizeBytes a b i) := by
  have hn := cache.partSize_pos
  generalize hsize : cache.partSizeBytes = n at hn
  have ha := mul_div_bounds hn a
  have hb := mul_divCeil_bounds hn b
  have hstart : (a - a % n) / n = a / n := by
    rw [show a - a % n = n * (a / n) by have := Nat.div_add_mod a n; omega, Nat.mul_div_cancel_left _ hn]
  have hstop : divCeilMul b n / n = (b + n - 1) / n := Nat.mul_div_cancel _ hn
  have hmod : a % n = a - n * (a / n) := by have := Nat.div_add_mod a n; omega
  have hmodb : ¬n ∣ b → b % n = b - n * ((b + n - 1) / n - 1) := by
    intro hdvd
    have hpos : 0 < b := Nat.pos_of_ne_zero fun h => hdvd (h ▸ Nat.dvd_zero n)
    have he : (b + n - 1) / n = b / n + 1 := by
      have hm : b % n ≠ 0 := fun h => hdvd (Nat.dvd_of_mod_eq_zero h)
      have hdm := Nat.div_add_mod b n
      have hlt := Nat.mod_lt b hn
      rw [show b + n - 1 = (b % n - 1) + n * (b / n + 1) by rw [Nat.mul_add, Nat.mul_one]; omega,
        Nat.add_mul_div_left _ _ hn, Nat.div_eq_of_lt (by omega), Nat.zero_add]
    rw [he, Nat.add_sub_cancel]
    have := Nat.div_add_mod b n
    omega
  have hdvdb : n ∣ b → n * ((b + n - 1) / n) = b := by
    rintro ⟨k, rfl⟩
    rw [show n * k + n - 1 = (n - 1) + n * k by omega, Nat.add_mul_div_left _ _ hn,
      Nat.div_eq_of_lt (by omega), Nat.zero_add]
  simp only [splitRangeIntoParts, alignRange, hsize, hstart, hstop, partIds]
  generalize hs : a / n = s at *
  generalize he : (b + n - 1) / n = e at *
  apply List.ext_getElem
  · split <;> simp
  · intro i hi _
    have hi' : i < e - s := by
      revert hi
      split <;> simp
    have hid : n * (s + i) + n ≤ n * e := by
      have : n * (s + i + 1) ≤ n * e := Nat.mul_le_mul_left n (by omega)
      rwa [Nat.mul_add n (s + i), Nat.mul_one] at this
    have hnext : n * (s + i + 1) = n * (s + i) + n := by rw [Nat.mul_add, Nat.mul_one]
    -- the first part is cut at its start
    have hfirst : max a (n * (s + i)) - n * (s + i) = if i = 0 then a % n else 0 := by
      split
      · rename_i h0
        subst h0
        rw [Nat.add_zero, hmod]
        omega
      · have : n * (s + 1) ≤ n * (s + i) := Nat.mul_le_mul_left n (by omega)
        rw [Nat.mul_add, Nat.mul_one] at this
        omega
    -- and the last one at its end
    have hlast : min b (n * (s + i + 1)) - n * (s + i) = if i + 1 = e - s ∧ ¬n ∣ b then b % n else n := by
      by_cases hend : i + 1 = e - s
      · have hse : n * (s + i) = n * (e - 1) := by congr 1; omega
        have hee : n * (s + i + 1) = n * e := by congr 1; omega
        by_cases hdvd : n ∣ b
        · rw [if_neg (fun h => h.2 hdvd)]
          have := hdvdb hdvd
          omega
        · rw [if_pos ⟨hend, hdvd⟩, hmodb hdvd]
          omega
      · rw [if_neg (fun h => hend h.1)]
        have : n * (s + i + 2) ≤ n * e := Nat.mul_le_mul_left n (by omega)
        rw [show s + i + 2 = s + i + 1 + 1 by omega, Nat.mul_add n (s + i + 1), Nat.mul_one] at this
        omega
    have hrange : rangeInPart n a b (s + i) =
        ⟨if i = 0 then a % n else 0, if i + 1 = e - s ∧ ¬n ∣ b then b % n else n⟩ := by
      rw [rangeInPart, hfirst, hlast]
    simp only [List.getElem_map, List.getElem_range', Nat.one_mul, hrange]
    split
    · rename_i hdvd
      simp only [List.getElem_modify, List.getElem_map, List.getElem_range', Nat.one_mul, hdvd, not_true_eq_false,
        and_false, if_false]
      by_cases h0 : i = 0
      · simp [h0]
      · simp [h0, Ne.symm h0]
    · rename_i hdvd
      simp only [List.getElem_modify, List.getElem_map, List.getElem_range', Nat.one_mul, List.length_modify,
        List.length_map, List.length_range', hdvd, not_false_eq_true, and_true]
      by_cases h0 : i = 0
      · subst h0
        by_cases hend : e - s = 1
        · simp [hend]
        · have : ¬ 0 + 1 = e - s := by omega
          have h' : ¬ e - s - 1 = 0 := by omega
          simp [this, h']
      · by_cases hend : i + 1 = e - s
        · have : e - s - 1 = i := by omega
          simp [h0, Ne.symm h0, hend, this]
        · have : ¬ e - s - 1 = i := by omega
          simp [h0, Ne.symm h0, hend, this]

/-- A list of parts, and the range they are of. -/
structure Tiles (n : Nat) (parts : List (Nat × ByteRange)) (r : ByteRange) : Prop where
  /-- The parts are in a row. -/
  ids : parts.map Prod.fst = List.range' (r.start / n) parts.length
  /-- Each range is in its part, and has a byte if the whole has. -/
  within : ∀ part ∈ parts, part.2.start ≤ part.2.stop ∧ part.2.stop ≤ n ∧ (r.start < r.stop → part.2.start < part.2.stop)
  /-- No part starts after the range. -/
  reached : ∀ part ∈ parts, n * part.1 < r.stop
  /-- No range ends after the object's part does. -/
  inBounds : ∀ bytes : Bytes, r.stop ≤ bytes.length →
    ∀ part ∈ parts, part.2.stop ≤ (partOf n part.1 bytes).length
  joined : ∀ bytes : Bytes,
    parts.flatMap (fun part => slice (partOf n part.1 bytes) part.2.start part.2.stop) = slice bytes r.start r.stop

theorem splitRangeIntoParts_tiles {r : ByteRange} (hab : r.start ≤ r.stop) :
    Tiles cache.partSizeBytes (cache.splitRangeIntoParts r) r := by
  obtain ⟨a, b⟩ := r
  dsimp only at hab
  have hn := cache.partSize_pos
  rw [cache.splitRangeIntoParts_eq hab]
  generalize cache.partSizeBytes = n at hn ⊢
  have hpart : ∀ i, n * (i + 1) = n * i + n := fun i => by rw [Nat.mul_add, Nat.mul_one]
  have hids : ∀ {i}, i ∈ partIds n a b → a < n * i + n ∧ n * i < b := by
    intro i hi
    have := partIds_bounds hn hi
    rwa [hpart] at this
  constructor
  · rw [List.map_map, List.length_map, partIds, List.length_range']
    exact List.map_id _
  · simp only [List.mem_map, forall_exists_index, and_imp]
    rintro _ i hi rfl
    have := hids hi
    simp only [rangeInPart, hpart]
    omega
  · simp only [List.mem_map, forall_exists_index, and_imp]
    rintro _ i hi rfl
    exact (hids hi).2
  · simp only [List.mem_map, forall_exists_index, and_imp]
    rintro bytes hle _ i hi rfl
    have := hids hi
    rw [partOf, length_slice]
    simp only [rangeInPart, hpart] at hle ⊢
    omega
  · intro bytes
    have hs := mul_div_bounds hn a
    have he := mul_divCeil_bounds hn b
    have hse : a / n ≤ (b + n - 1) / n := by
      by_contra hlt
      have : n * ((b + n - 1) / n + 1) ≤ n * (a / n) := Nat.mul_le_mul_left n (by omega)
      rw [hpart] at this
      omega
    have hpiece : ∀ i, slice (partOf n i bytes) (rangeInPart n a b i).start (rangeInPart n a b i).stop =
        slice bytes (max a (n * i)) (min b (n * (i + 1))) := by
      intro i
      rw [slice_partOf]
      · simp only [rangeInPart, hpart]
        by_cases hi : n * i ≤ b
        · congr 1 <;> omega
        · rw [slice_of_le (by omega), slice_of_le (by omega)]
      · simp only [rangeInPart, hpart]
        omega
    rw [List.flatMap_map]
    simp only [hpiece]
    rw [partIds, flatMap_pieces bytes b _ _ a (by rw [hpart]; omega), Nat.add_sub_cancel' hse]
    congr 1 <;> omega

end CachedObjectStore

/-! ## Requests -/

theorem canonicalizeRange_bounds {range : Option GetRange} {size : Nat} {r : ByteRange}
    (h : canonicalizeRange range size = .ok r) : r.start ≤ r.stop ∧ r.stop ≤ size := by
  unfold canonicalizeRange at h
  split at h
  · cases h
    simp
  · split at h
    · cases h
    · split at h
      · cases h
      · cases h
        dsimp only
        omega
  · split at h
    · cases h
    · cases h
      dsimp only
      omega
  · cases h
    dsimp only
    omega

namespace CachedObjectStore

variable (cache : CachedObjectStore)

/-- Whatever is asked for, its range is read as parts that tile it. -/
theorem splitRangeIntoParts_covers {range : Option GetRange} {size : Nat} {r : ByteRange}
    (h : canonicalizeRange range size = .ok r) : Tiles cache.partSizeBytes (cache.splitRangeIntoParts r) r :=
  cache.splitRangeIntoParts_tiles (canonicalizeRange_bounds h).1

end CachedObjectStore

/-! ### A cache of parts of 1024 bytes -/

def sampleHead : LocalCacheHead := ⟨"db/1.sst", "1970-01-01T00:00:00+00:00", 3, none, none, []⟩

def sampleJson : Bytes :=
  asBytes ("\x7b\"location\":\"db/1.sst\",\"last_modified\":\"1970-01-01T00:00:00+00:00\",\"size\":3," ++
    "\"e_tag\":null,\"version\":null,\"attributes\":\x7b\x7d\x7d")

/-- The crates, on the one head there is. -/
def sampleCodec : HeadCodec where
  toRfc3339 _ := "1970-01-01T00:00:00+00:00"
  parseTime _ := some 0
  pathFrom path := path
  toJson head := if head = sampleHead then sampleJson else []
  fromJson b := if b = sampleJson then some sampleHead else none

def sampleCache : CachedObjectStore := ⟨sampleCodec, "/cache", 1024, false, by decide⟩

theorem CachedObjectStore.splitRangeIntoParts_covers_sample :
    sampleCache.splitRangeIntoParts ⟨1000, 3000⟩ = [(0, ⟨1000, 1024⟩), (1, ⟨0, 1024⟩), (2, ⟨0, 952⟩)] ∧
      Tiles 1024 (sampleCache.splitRangeIntoParts ⟨1000, 3000⟩) ⟨1000, 3000⟩ :=
  ⟨by decide, @splitRangeIntoParts_covers sampleCache (some (.offset 1000)) 3000 ⟨1000, 3000⟩ (by decide)⟩

namespace CachedObjectStore

variable (cache : CachedObjectStore)

/-- The starts the first assertion of `save_get_result` lets through: a suffix
that does not reach the start is aligned only in an object of whole parts. -/
def Aligned (range : Option GetRange) (size : Nat) : Prop :=
  ∀ n, range = some (.suffix n) → divCeilMul n cache.partSizeBytes < size → cache.partSizeBytes ∣ size

instance (range : Option GetRange) (size : Nat) : Decidable (cache.Aligned range size) :=
  match range with
  | some (.suffix n) =>
    decidable_of_iff (divCeilMul n cache.partSizeBytes < size → cache.partSizeBytes ∣ size)
      ⟨fun h _ heq => by cases heq; exact h, fun h => h n rfl⟩
  | none => .isTrue fun _ heq => by cases heq
  | some (.bounded _) => .isTrue fun _ heq => by cases heq
  | some (.offset _) => .isTrue fun _ heq => by cases heq

/-- What the object store answers to the aligned request. -/
structure Widened (range : Option GetRange) (size : Nat) (wide : ByteRange) : Prop where
  covers : ∀ r, canonicalizeRange range size = .ok r → wide.start ≤ r.start ∧ r.stop ≤ wide.stop
  stops : cache.partSizeBytes ∣ wide.stop ∨ wide.stop = size
  starts : cache.partSizeBytes ∣ wide.start ↔ cache.Aligned range size

/-- The aligned request is answered whenever the request itself would be, with
whole parts around its range, if its end can be rounded up. -/
theorem alignGetRange_widened {range : Option GetRange} (hrounds : cache.Rounds range) (size : Nat) :
    match canonicalizeRange (range.map cache.alignGetRange) size with
    | .ok wide => cache.Widened range size wide
    | .error _ => ∀ r, canonicalizeRange range size ≠ .ok r := by
  have hn := cache.partSize_pos
  cases range with
  | none =>
    exact ⟨fun r h => by cases h; exact ⟨Nat.le_refl _, Nat.le_refl _⟩, .inr rfl,
      ⟨fun _ _ heq => (by cases heq), fun _ => Nat.dvd_zero _⟩⟩
  | some range =>
    cases range with
    | suffix n =>
      have hceil := mul_divCeil_bounds hn n
      have hdvd : cache.partSizeBytes ∣ divCeilMul n cache.partSizeBytes := Nat.dvd_mul_left _ _
      have hle : n ≤ divCeilMul n cache.partSizeBytes := by
        rw [divCeilMul, Nat.mul_comm]
        exact hceil.1
      have hwrap : divCeilMul n cache.partSizeBytes % 2 ^ 64 = divCeilMul n cache.partSizeBytes :=
        Nat.mod_eq_of_lt hrounds
      simp only [Option.map_some, alignGetRange, canonicalizeRange, alignRange, hwrap]
      refine ⟨fun r h => ?_, .inr rfl, ?_⟩
      · cases h
        dsimp only
        omega
      · simp only [Aligned, Option.some.injEq, GetRange.suffix.injEq, forall_eq']
        constructor
        · intro h hlt
          have := Nat.dvd_add h hdvd
          rwa [Nat.sub_add_cancel (by omega)] at this
        · intro h
          by_cases hlt : divCeilMul n cache.partSizeBytes < size
          · exact Nat.dvd_sub (h hlt) hdvd
          · rw [Nat.sub_eq_zero_of_le (by omega)]
            exact Nat.dvd_zero _
    | offset offset =>
      have hmod := mul_div_bounds hn offset
      have hsub : offset - offset % cache.partSizeBytes = cache.partSizeBytes * (offset / cache.partSizeBytes) := by
        have := Nat.div_add_mod offset cache.partSizeBytes
        omega
      simp only [Option.map_some, alignGetRange, canonicalizeRange]
      split
      · rename_i hok
        split at hok
        · cases hok
        · cases hok
          refine ⟨fun r h => ?_, .inr rfl, ⟨fun _ _ heq => (by cases heq), fun _ => ⟨_, hsub⟩⟩⟩
          simp only [canonicalizeRange] at h
          split at h
          · cases h
          · cases h
            simp
      · rename_i herr
        split at herr
        · intro r h
          rw [if_pos (by omega)] at h
          cases h
        · cases herr
    | bounded range =>
      have hstart := mul_div_bounds hn range.start
      have hsub : range.start - range.start % cache.partSizeBytes =
          cache.partSizeBytes * (range.start / cache.partSizeBytes) := by
        have := Nat.div_add_mod range.start cache.partSizeBytes
        omega
      have hstop := mul_divCeil_bounds hn range.stop
      have hceil : divCeilMul range.stop cache.partSizeBytes =
          cache.partSizeBytes * ((range.stop + cache.partSizeBytes - 1) / cache.partSizeBytes) := Nat.mul_comm _ _
      have hwrap : divCeilMul range.stop cache.partSizeBytes % 2 ^ 64 = divCeilMul range.stop cache.partSizeBytes :=
        Nat.mod_eq_of_lt hrounds
      simp only [Option.map_some, alignGetRange, canonicalizeRange, alignRange, hwrap]
      split
      · rename_i hok
        split at hok
        · cases hok
        · split at hok
          · cases hok
          · cases hok
            refine ⟨fun r h => ?_, ?_, ⟨fun _ _ heq => (by cases heq), fun _ => ⟨_, hsub⟩⟩⟩
            · simp only [canonicalizeRange] at h
              split at h
              · cases h
              · split at h
                · cases h
                · cases h
                  dsimp only
                  omega
            · dsimp only
              rcases Nat.le_total (divCeilMul range.stop cache.partSizeBytes) size with hle | hle
              · rw [Nat.min_eq_left hle]
                exact .inl ⟨_, hceil⟩
              · rw [Nat.min_eq_right hle]
                exact .inr rfl
      · rename_i herr
        split at herr
        · intro r h
          rw [if_pos (by omega)] at h
          cases h
        · split at herr
          · intro r h
            split at h
            · cases h
            · rw [if_pos (by omega)] at h
              cases h
          · cases herr

/-- The last 1500 bytes of an object that is not whole parts. -/
theorem alignGetRange_widened_sample :
    canonicalizeRange (some (sampleCache.alignGetRange (.suffix 1500))) 5000 = .ok ⟨2952, 5000⟩ ∧
      sampleCache.Widened (some (.suffix 1500)) 5000 ⟨2952, 5000⟩ ∧ ¬1024 ∣ 2952 := by
  have hwide := @alignGetRange_widened sampleCache (some (.suffix 1500)) (by decide) 5000
  rw [show canonicalizeRange ((some (.suffix 1500)).map sampleCache.alignGetRange) 5000 = .ok ⟨2952, 5000⟩ by decide]
    at hwide
  exact ⟨by decide, hwide, by decide⟩

/-- Rounded up, the largest suffix is the empty one. -/
example : sampleCache.alignGetRange (.suffix (2 ^ 64 - 1)) = .suffix 0 := by decide

end CachedObjectStore

end Miscreant
