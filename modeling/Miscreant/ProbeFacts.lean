/-
The rolling hash is exact: whatever slides, copies and fresh hashes led there,
`make_delta` probes with the block hash of the window at its cursor
(`probe_exact`).

Modulo 2^64 the block hash is a Horner form, and `HASH_TOP` the power with
which the oldest byte leaves. A turn that rolls keeps the hash of the window; a
turn that does not is the last, or copies, and then the hash is made anew.
-/
import Miscreant.DeltaFacts
import Miscreant.Lib.RollingHash
import Mathlib.Data.UInt
import Mathlib.Logic.Relation

namespace Miscreant

open Lib

namespace PackOut

/-! ## The hash of a window -/

section Hash

open scoped UInt64.CommRing

theorem blockHash_eq (window : Bytes) : blockHash window = horner HASH_BASE (window.map UInt8.toUInt64) := by
  rw [blockHash, horner, List.foldl_map]

theorem wrappingPow_eq (b : UInt64) : ∀ n, wrappingPow b n = b ^ n
  | 0 => (pow_zero b).symm
  | n + 1 => by rw [wrappingPow, wrappingPow_eq b n, pow_succ]

/-- `roll_hash` gives the hash of the window one byte on. -/
theorem rollHash_blockHash {w : Bytes} (hw : w.length = MIN_COPY - 1) (x y : UInt8) :
    rollHash (blockHash (x :: w)) x y = blockHash (w ++ [y]) := by
  have hroll := horner_roll HASH_BASE x.toUInt64 y.toUInt64 (w.map UInt8.toUInt64)
  rw [List.length_map, hw, ← wrappingPow_eq] at hroll
  rw [blockHash_eq, blockHash_eq, List.map_cons, List.map_append]
  exact hroll

end Hash

/-! ## Turns of the loop -/

/-- The hash `make_delta` probes with at its cursor. -/
def Scan.probe (target : Bytes) (s : Scan) : Option UInt64 :=
  if s.primed then some s.hash else (slice target s.cursor (s.cursor + MIN_COPY)).map blockHash

/-- The rest of the lookup: `window_of` the hash, and the match among its
entries. -/
def Scan.search (base target : Bytes) (index : BlockIndex) (s : Scan) (hash : UInt64) : Option (Option (Nat × Nat)) :=
  (index.windowOf hash).bind fun w =>
    if w.1.any (fun entry => entry >>> 32 = w.2) then bestMatch base target w.2 s.cursor w.1 none else some none

/-- A turn of the loop that goes on. -/
def Scan.Turn (base target : Bytes) (index : BlockIndex) (maxSize : Nat) (s s' : Scan) : Prop :=
  s.cursor + MIN_COPY ≤ target.length ∧ s.weight ≤ maxSize ∧
  ∃ hash best, s.lookup base target index = some (hash, best) ∧ s.advance target hash best = some s'

section Turns

variable {base target : Bytes} {index : BlockIndex} {maxSize : Nat} {s s' : Scan}

theorem lookup_eq_search : s.lookup base target index =
    (s.probe target).bind fun hash => (s.search base target index hash).map fun best => (hash, best) := by
  rw [lookup_eq, Scan.probe]
  congr 1
  funext hash
  rw [Scan.search, Option.map_bind]
  congr 1
  funext w
  rw [Function.comp_apply, Option.map_eq_bind]
  rfl

theorem makeDeltaFrom_turn (h : s.Turn base target index maxSize s') (fuel : Nat) :
    makeDeltaFrom base target index maxSize (fuel + 1) s = makeDeltaFrom base target index maxSize fuel s' := by
  obtain ⟨hcursor, hweight, hash, best, hlookup, hadvance⟩ := h
  have hbudget : ¬ maxSize < s.out.length + (s.cursor - s.insertStart) := not_lt.2 hweight
  rw [makeDeltaFrom, if_pos hcursor, if_neg hbudget]
  simp only [hlookup, Option.bind_eq_bind, Option.bind_some, hadvance]

/-- The turns are those of the loop of `make_delta`. -/
theorem makeDeltaFrom_turns (h : Relation.ReflTransGen (Scan.Turn base target index maxSize) s s') :
    ∃ n, ∀ fuel, makeDeltaFrom base target index maxSize (n + fuel) s = makeDeltaFrom base target index maxSize fuel s' := by
  induction h with
  | refl => exact ⟨0, fun fuel => by rw [Nat.zero_add]⟩
  | tail _ hturn ih =>
    obtain ⟨n, hn⟩ := ih
    refine ⟨n + 1, fun fuel => ?_⟩
    rw [Nat.add_assoc, Nat.add_comm 1, hn, makeDeltaFrom_turn hturn]

end Turns

/-! ## The window at the cursor -/

/-- The window at a cursor. -/
def windowAt (target : Bytes) (cursor : Nat) : Bytes := (target.drop cursor).take MIN_COPY

theorem slice_windowAt {target : Bytes} {cursor : Nat} (h : cursor + MIN_COPY ≤ target.length) :
    slice target cursor (cursor + MIN_COPY) = some (windowAt target cursor) := by
  rw [slice_eq (Nat.le_add_right ..) h, Nat.add_sub_cancel_left, windowAt]

/-- A window and the next one share all but a byte each. -/
theorem windowAt_slide {target : Bytes} {cursor : Nat} {x y : UInt8} (hx : target[cursor]? = some x)
    (hy : target[cursor + MIN_COPY]? = some y) :
    ∃ w : Bytes, w.length = MIN_COPY - 1 ∧ windowAt target cursor = x :: w ∧ windowAt target (cursor + 1) = w ++ [y] := by
  obtain ⟨hcursor, hget⟩ := List.getElem?_eq_some_iff.1 hx
  obtain ⟨harriving, -⟩ := List.getElem?_eq_some_iff.1 hy
  simp only [windowAt, MIN_COPY] at *
  refine ⟨(target.drop (cursor + 1)).take 15, ?_, ?_, ?_⟩
  · exact List.length_take_of_le (by rw [List.length_drop]; omega)
  · rw [List.drop_eq_getElem_cons hcursor, hget, List.take_succ_cons]
  · have hlast : (target.drop (cursor + 1))[15]? = some y := by
      rw [List.getElem?_drop, Nat.add_assoc]
      exact hy
    rw [List.take_add_one, hlast, Option.toList_some]

/-- A hash that is kept is the one of the window at the cursor, as long as
there is one. -/
def Scan.Exact (target : Bytes) (s : Scan) : Prop :=
  s.primed = true → s.cursor + MIN_COPY ≤ target.length → s.hash = blockHash (windowAt target s.cursor)

section Exact

variable {base target : Bytes} {index : BlockIndex} {maxSize : Nat} {s s' : Scan} {hash : UInt64}
  {best : Option (Nat × Nat)}

theorem Scan.Exact.probe (h : s.Exact target) (hcursor : s.cursor + MIN_COPY ≤ target.length) :
    s.probe target = some (blockHash (windowAt target s.cursor)) := by
  unfold Scan.probe
  split
  · rename_i hprimed
    rw [h hprimed hcursor]
  · rw [slice_windowAt hcursor, Option.map_some]

theorem exact_advance (h : s.advance target (blockHash (windowAt target s.cursor)) best = some s') : s'.Exact target := by
  cases best with
  | some m =>
    -- A copy leaves the hash to be made anew.
    simp only [Scan.advance, Option.bind_eq_bind, Option.bind_eq_some_iff, Option.pure_def, Option.some.injEq] at h
    obtain ⟨_, _, rfl⟩ := h
    intro hprimed
    cases hprimed
  | none =>
    simp only [Scan.advance] at h
    split at h
    · simp only [Option.bind_eq_bind, Option.bind_eq_some_iff, Option.pure_def, Option.some.injEq] at h
      obtain ⟨x, hx, y, hy, _, rfl, rfl⟩ := h
      obtain ⟨w, hw, hwindow, hnext⟩ := windowAt_slide hx hy
      intro _ _
      dsimp only
      rw [hwindow, hnext, rollHash_blockHash hw]
    · -- The roll is skipped where the next window would leave the target.
      rename_i hlast
      simp only [Option.bind_eq_bind, Option.bind_some, Option.pure_def, Option.some.injEq] at h
      subst h
      intro _ hcursor
      dsimp only at hcursor
      exact absurd hcursor (by omega)

theorem Scan.Exact.turn (h : s.Exact target) (hturn : s.Turn base target index maxSize s') : s'.Exact target := by
  obtain ⟨hcursor, -, hash, best, hlookup, hadvance⟩ := hturn
  rw [lookup_eq_search, h.probe hcursor, Option.bind_some] at hlookup
  obtain ⟨_, _, heq⟩ := Option.map_eq_some_iff.1 hlookup
  obtain ⟨rfl, -⟩ := Prod.mk.inj heq
  exact exact_advance hadvance

theorem exact_of_turns (h : Relation.ReflTransGen (Scan.Turn base target index maxSize) (.start base target) s) :
    s.Exact target := by
  induction h with
  | refl =>
    intro hprimed
    cases hprimed
  | tail _ hturn ih => exact ih.turn hturn

end Exact

/-- At every turn the hash that is probed with is the block hash of the window
at the cursor, made anew. -/
theorem probe_exact (base target : Bytes) (index : BlockIndex) (maxSize : Nat) {s : Scan}
    (h : Relation.ReflTransGen (Scan.Turn base target index maxSize) (.start base target) s)
    (hcursor : s.cursor + MIN_COPY ≤ target.length) :
    ∃ window, slice target s.cursor (s.cursor + MIN_COPY) = some window ∧ s.probe target = some (blockHash window) ∧
      s.lookup base target index =
        (s.search base target index (blockHash window)).map fun best => (blockHash window, best) := by
  have hprobe := (exact_of_turns h).probe hcursor
  refine ⟨windowAt target s.cursor, slice_windowAt hcursor, hprobe, ?_⟩
  rw [lookup_eq_search, hprobe, Option.bind_some]

/-- The bytes 0 to 16: two windows. -/
def seventeen : Bytes := (List.range 17).map UInt8.ofNat

/-- The scan of them one byte on, with the hash rolled. -/
def rolled : Scan := ⟨[0, 17], 1, 0, rollHash (blockHash ((List.range 16).map UInt8.ofNat)) 0 16, true⟩

theorem turn_rolled : Scan.Turn [] seventeen ⟨List.replicate 16 0, 61⟩ 9 (.start [] seventeen) rolled :=
  ⟨by decide, by decide, blockHash ((List.range 16).map UInt8.ofNat), none, by decide, rfl⟩

/-- The loop comes to the rolled hash, and probes with it. -/
theorem probe_exact_rolled :
    (∃ n, ∀ fuel, makeDeltaFrom [] seventeen ⟨List.replicate 16 0, 61⟩ 9 (n + fuel) (.start [] seventeen) =
      makeDeltaFrom [] seventeen ⟨List.replicate 16 0, 61⟩ 9 fuel rolled) ∧
    ∃ window, slice seventeen 1 17 = some window ∧ rolled.probe seventeen = some (blockHash window) := by
  have hturns := Relation.ReflTransGen.single turn_rolled
  obtain ⟨window, hslice, hprobe, -⟩ := probe_exact _ _ _ _ hturns (by decide)
  exact ⟨makeDeltaFrom_turns hturns, window, hslice, hprobe⟩

end PackOut

end Miscreant
