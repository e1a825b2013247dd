/-
The delta candidate window over any run of `delta_or_full`
(`candidates_window`): what is retained is the longest suffix of the blobs sent
in full so far that fits both bounds.

The eviction loop stops at the longest suffix of the window that leaves room
for the new blob (`evict_window`). What was dropped for an older blob would
not fit with a newer one either, so that is the longest suffix of the history.
-/
import Miscreant.PackOutFacts
import Miscreant.Lib.SuffixWindow

namespace Miscreant

open Lib

namespace PackOut

/-! ## Runs -/

/-- An entry `delta_or_full` has made, for an object at an index. -/
structure Emission where
  entryIndex : Nat
  object : PackEntry
  entry : Entry

/-- The candidate an emission is: an eligible blob sent in full. -/
def Emission.fullBlob (zlib : Zlib) (e : Emission) : Option DeltaCandidate :=
  match e.object.deltaGroup with
  | none => none
  | some group =>
    if e.object.kind = .blob ∧
        (MIN_DELTA_BLOB_SIZE ≤ e.object.decompressedSize ∧ e.object.decompressedSize ≤ MAX_DELTA_BLOB_SIZE) ∧
        e.entry.kind = .base .blob then
      (zlib.inflate e.object.zlib e.object.decompressedSize).map fun body => ⟨e.entryIndex, group, body⟩
    else none

/-- The eligible blobs sent in full, oldest first. -/
def fullBlobs (zlib : Zlib) (log : List Emission) : List DeltaCandidate := log.filterMap (Emission.fullBlob zlib)

/-- A run of `delta_or_full` at ascending indices, and the candidates after it.
An entry that fails leaves the candidates as they were. -/
inductive Processed (ε : Type) (zlib : Zlib) : List Emission → DeltaCandidates → Prop
  | start : Processed ε zlib [] .empty
  | emit {log : List Emission} {candidates candidates' : DeltaCandidates} {entryIndex : Nat} {object : PackEntry}
      {entry : Entry} (run : Processed ε zlib log candidates) (above : ∀ e ∈ log, e.entryIndex < entryIndex)
      (step : (deltaOrFull zlib object entryIndex candidates : Option (Except (PackOutError ε) _)) =
        some (.ok (entry, candidates'))) :
      Processed ε zlib (log ++ [⟨entryIndex, object, entry⟩]) candidates'

section Step

variable {ε : Type} {zlib : Zlib} {object : PackEntry} {entryIndex : Nat} {candidates candidates' : DeltaCandidates}
  {entry : Entry}

/-- A blob is sent in full and inserted, or sent as a delta and not. -/
theorem deltaEntry_cases {group : UInt32} {body : Bytes} {best : Option (Nat × Bytes)} :
    deltaEntry zlib object entryIndex group body candidates best =
      (fullEntry object, candidates.insert entryIndex group body) ∨
    ∃ i, (deltaEntry zlib object entryIndex group body candidates best).1.kind = .deltaRef i ∧
      (deltaEntry zlib object entryIndex group body candidates best).2 = candidates := by
  unfold deltaEntry
  cases best with
  | none => exact .inl rfl
  | some found =>
    dsimp only
    split
    · exact .inr ⟨_, rfl, rfl⟩
    · exact .inl rfl

/-- A blob sent in full is inserted, and nothing else is. -/
theorem deltaOrFull_inserts
    (h : (deltaOrFull zlib object entryIndex candidates : Option (Except (PackOutError ε) _)) =
      some (.ok (entry, candidates'))) :
    (Emission.fullBlob zlib ⟨entryIndex, object, entry⟩ = none ∧ candidates' = candidates) ∨
    ∃ c, Emission.fullBlob zlib ⟨entryIndex, object, entry⟩ = some c ∧
      candidates' = candidates.insert c.entryIndex c.group c.body := by
  unfold deltaOrFull at h
  unfold Emission.fullBlob
  dsimp only
  cases hgroup : object.deltaGroup with
  | none =>
    simp only [hgroup] at h
    cases h
    exact .inl ⟨rfl, rfl⟩
  | some group =>
    simp only [hgroup] at h
    dsimp only
    split at h
    · rename_i hout
      cases h
      rw [if_neg (fun hin => hout.elim (fun hne => hne hin.1) fun hsize => hsize hin.2.1)]
      exact .inl ⟨rfl, rfl⟩
    · rename_i hin
      rw [not_or, not_not, not_not] at hin
      cases hinflate : zlib.inflate object.zlib object.decompressedSize with
      | none =>
        simp only [hinflate] at h
        cases h
      | some body =>
        simp only [hinflate] at h
        obtain ⟨best, _, h⟩ := Option.map_eq_some_iff.1 h
        rw [Except.ok.injEq] at h
        rcases @deltaEntry_cases zlib object entryIndex candidates group body best with hfull | ⟨i, hkind, hsame⟩
        · rw [hfull] at h
          cases h
          rw [if_pos ⟨hin.1, hin.2, by rw [fullEntry, hin.1]⟩]
          exact .inr ⟨_, rfl, rfl⟩
        · rw [h] at hkind hsame
          rw [if_neg (fun hfull => by cases hkind.symm.trans hfull.2.2)]
          exact .inl ⟨rfl, hsame⟩

theorem fullBlob_some {e : Emission} {c : DeltaCandidate} (h : e.fullBlob zlib = some c) :
    c.entryIndex = e.entryIndex ∧ e.object.decompressedSize ≤ MAX_DELTA_BLOB_SIZE ∧
      zlib.inflate e.object.zlib e.object.decompressedSize = some c.body := by
  unfold Emission.fullBlob at h
  split at h
  · cases h
  · split at h
    · rename_i hin
      obtain ⟨body, hinflate, rfl⟩ := Option.map_eq_some_iff.1 h
      exact ⟨rfl, hin.2.1.2, hinflate⟩
    · cases h

theorem length_fullBlob {e : Emission} {c : DeltaCandidate} (h : e.fullBlob zlib.sized = some c) :
    c.body.length ≤ MAX_DELTA_CACHE_BYTES := by
  obtain ⟨-, hmax, hinflate⟩ := fullBlob_some h
  rw [Zlib.length_of_sized hinflate]
  exact le_trans hmax (by decide)

end Step

/-! ## Eviction -/

/-- The two bounds. -/
def Fits (window : List DeltaCandidate) : Prop := retained window ≤ MAX_DELTA_CACHE_BYTES ∧ window.length ≤ DELTA_WINDOW

theorem retained_append (window : List DeltaCandidate) (c : DeltaCandidate) :
    retained (window ++ [c]) = retained window + c.body.length := by
  simp [retained]

theorem fits_append {window : List DeltaCandidate} {c : DeltaCandidate} :
    Fits (window ++ [c]) ↔
      retained window + c.body.length ≤ MAX_DELTA_CACHE_BYTES ∧ window.length + 1 ≤ DELTA_WINDOW := by
  rw [Fits, retained_append, List.length_append, List.length_singleton]

theorem Fits.of_append {window : List DeltaCandidate} {c : DeltaCandidate} (h : Fits (window ++ [c])) : Fits window :=
  have h := fits_append.1 h
  ⟨le_trans (Nat.le_add_right ..) h.1, le_trans (Nat.le_add_right ..) h.2⟩

/-- The loop of `DeltaCandidates::insert` where the byte counter may not
underflow. -/
def evictChecked (len : Nat) : List DeltaCandidate → Nat → Option (List DeltaCandidate × Nat)
  | [], bytes => some ([], bytes)
  | c :: entries, bytes =>
    if MAX_DELTA_CACHE_BYTES < bytes + len ∨ DELTA_WINDOW ≤ entries.length + 1 then
      if c.body.length ≤ bytes then evictChecked len entries (bytes - c.body.length) else none
    else some (c :: entries, bytes)

theorem evictChecked_eq (len : Nat) : ∀ (entries : List DeltaCandidate) (bytes : Nat), bytes = retained entries →
    evictChecked len entries bytes = some (evict len entries bytes)
  | [], bytes, _ => rfl
  | c :: entries, bytes, h => by
    rw [retained_cons] at h
    rw [evictChecked, evict]
    split
    · rw [if_pos (by omega), evictChecked_eq len entries (bytes - c.body.length) (by omega)]
    · rfl

/-- The loop keeps as many as leave room for the new blob. -/
theorem evict_window {c : DeltaCandidate} (hlen : c.body.length ≤ MAX_DELTA_CACHE_BYTES) :
    ∀ (entries : List DeltaCandidate) (bytes : Nat), bytes = retained entries →
      SuffixWindow (fun w => Fits (w ++ [c])) entries (evict c.body.length entries bytes).1
  | [], bytes, _ => .whole (fits_append.2 ⟨by simpa [retained] using hlen, by decide⟩)
  | oldest :: entries, bytes, h => by
    have hcons := retained_cons oldest entries
    rw [evict]
    split
    · rename_i hover
      have hrest := evict_window hlen entries (bytes - oldest.body.length) (by omega)
      refine hrest.drop fun hfits => ?_
      obtain ⟨hbytes, hcount⟩ := fits_append.1 hfits
      rw [List.length_cons] at hcount
      omega
    · rename_i hfits
      exact .whole (fits_append.2 ⟨by omega, by rw [List.length_cons]; omega⟩)

theorem entries_insert (candidates : DeltaCandidates) {c : DeltaCandidate} (hlen : c.body.length ≤ MAX_DELTA_CACHE_BYTES) :
    (candidates.insert c.entryIndex c.group c.body).entries =
      (evict c.body.length candidates.entries candidates.bytes).1 ++ [c] := by
  rw [DeltaCandidates.insert, dif_neg (not_lt.2 hlen)]

/-- A blob sent in full goes to the end of the window. -/
theorem window_insert {history : List DeltaCandidate} {candidates : DeltaCandidates} {c : DeltaCandidate}
    (h : SuffixWindow Fits history candidates.entries) (hlen : c.body.length ≤ MAX_DELTA_CACHE_BYTES) :
    SuffixWindow Fits (history ++ [c]) (candidates.insert c.entryIndex c.group c.body).entries := by
  rw [entries_insert candidates hlen]
  exact h.push (fun _ => Fits.of_append) (evict_window hlen _ _ candidates.bytes_eq)

/-! ## The window of a run -/

section Run

variable {ε : Type} {zlib : Zlib} {log : List Emission} {candidates : DeltaCandidates}

theorem fullBlobs_concat (e : Emission) :
    fullBlobs zlib (log ++ [e]) = fullBlobs zlib log ++ (e.fullBlob zlib).toList := by
  unfold fullBlobs
  rw [List.filterMap_append]
  cases h : e.fullBlob zlib with
  | none => rw [List.filterMap_cons_none h, List.filterMap_nil, Option.toList_none]
  | some c => rw [List.filterMap_cons_some h, List.filterMap_nil, Option.toList_some]

theorem Processed.window (h : Processed ε zlib.sized log candidates) :
    SuffixWindow Fits (fullBlobs zlib.sized log) candidates.entries := by
  induction h with
  | start => exact .whole ⟨Nat.zero_le _, Nat.zero_le _⟩
  | emit _ _ hstep ih =>
    rw [fullBlobs_concat]
    rcases deltaOrFull_inserts hstep with ⟨hnone, rfl⟩ | ⟨c, hc, rfl⟩
    · rw [hnone, Option.toList_none, List.append_nil]
      exact ih
    · rw [hc, Option.toList_some]
      exact window_insert ih (length_fullBlob hc)

theorem Processed.ascending (h : Processed ε zlib log candidates) :
    log.Pairwise fun e e' => e.entryIndex < e'.entryIndex := by
  induction h with
  | start => exact .nil
  | emit _ habove _ ih => exact List.pairwise_append.2 ⟨ih, List.pairwise_singleton .., fun e he e' he' => by
      rw [List.mem_singleton.1 he']
      exact habove e he⟩

theorem fullBlobs_ascending (h : log.Pairwise fun e e' => e.entryIndex < e'.entryIndex) :
    (fullBlobs zlib log).Pairwise fun c c' => c.entryIndex < c'.entryIndex := by
  refine h.filterMap _ fun e e' hlt c hc c' hc' => ?_
  rw [(fullBlob_some hc).1, (fullBlob_some hc').1]
  exact hlt

end Run

/-- After every run of `delta_or_full` the counter is what is retained and
both bounds hold, no eviction underflows the counter, and the candidates are
the longest suffix of the blobs sent in full that fits, by ascending index. -/
theorem candidates_window {ε : Type} (zlib : Zlib) {log : List Emission} {candidates : DeltaCandidates}
    (h : Processed ε zlib.sized log candidates) :
    candidates.bytes = retained candidates.entries ∧ candidates.bytes ≤ MAX_DELTA_CACHE_BYTES ∧
    candidates.entries.length ≤ DELTA_WINDOW ∧
    (∀ len, evictChecked len candidates.entries candidates.bytes =
      some (evict len candidates.entries candidates.bytes)) ∧
    (candidates.entries.Pairwise fun c c' => c.entryIndex < c'.entryIndex) ∧
    SuffixWindow Fits (fullBlobs zlib.sized log) candidates.entries :=
  ⟨candidates.bytes_eq, candidates.bytes_le, candidates.length_le,
    fun len => evictChecked_eq len _ _ candidates.bytes_eq,
    (fullBlobs_ascending h.ascending).sublist h.window.suffix.sublist, h.window⟩

/-! ## Blobs with nothing in common -/

def constant (len k : Nat) : Bytes := List.replicate len (UInt8.ofNat k)

def constantBlob (len k : Nat) : PackEntry := ⟨Sample.blobId, .blob, len, storedStream (constant len k), some 3⟩

def constantLog (len n : Nat) : List Emission :=
  (List.range n).map fun k => ⟨k, constantBlob len k, fullEntry (constantBlob len k)⟩

def constantCandidates (len : Nat) : Nat → DeltaCandidates
  | 0 => .empty
  | n + 1 => (constantCandidates len n).insert n 3 (constant len n)

section Constant

variable {len j k n : Nat}

theorem not_isMatch_constant (hjk : j < k) (hk : k < 256) {cursor offset m : Nat} :
    ¬ IsMatch (constant len j) (constant len k) cursor offset m := by
  rintro ⟨hpos, hbase, htarget, heq⟩
  simp only [constant, List.length_replicate, List.drop_replicate, List.take_replicate] at hbase htarget heq
  rw [List.replicate_inj] at heq
  have hbyte := congrArg UInt8.toNat (heq.2.resolve_left (by omega))
  rw [UInt8.toNat_ofNat_of_lt' (lt_trans hjk hk), UInt8.toNat_ofNat_of_lt' hk] at hbyte
  omega

theorem mem_constantCandidates : ∀ {n : Nat} {c : DeltaCandidate}, c ∈ (constantCandidates len n).entries →
    ∃ j < n, c.body = constant len j
  | 0, c, h => nomatch h
  | n + 1, c, h => by
    rcases mem_insert h with h | rfl
    · obtain ⟨j, hj, hbody⟩ := mem_constantCandidates h
      exact ⟨j, Nat.lt_succ_of_lt hj, hbody⟩
    · exact ⟨n, Nat.lt_succ_self n, rfl⟩

theorem eligible_constant (hmin : MIN_DELTA_BLOB_SIZE ≤ len) (hmax : len ≤ MAX_DELTA_BLOB_SIZE) :
    Eligible storedZlib.sized (constantBlob len k) 3 (constant len k) := by
  refine ⟨rfl, rfl, hmin, hmax, ?_⟩
  have hinflate := storedZlib.sized.inflate_deflate (constant len k) 6
  rwa [constant, List.length_replicate] at hinflate

theorem fullBlobs_constant (hmin : MIN_DELTA_BLOB_SIZE ≤ len) (hmax : len ≤ MAX_DELTA_BLOB_SIZE) :
    fullBlobs storedZlib.sized (constantLog len n) = (List.range n).map fun k => ⟨k, 3, constant len k⟩ := by
  rw [fullBlobs, constantLog, List.filterMap_map, ← List.filterMap_eq_map]
  congr 1
  funext k
  have heligible := @eligible_constant len k hmin hmax
  simp only [Function.comp, Emission.fullBlob, heligible.group]
  rw [if_pos ⟨rfl, ⟨hmin, hmax⟩, rfl⟩, heligible.inflates, Option.map_some]

/-- No delta pays, so all of them are sent in full. -/
theorem processed_constant (hmin : MIN_DELTA_BLOB_SIZE ≤ len) (hmax : len ≤ MAX_DELTA_BLOB_SIZE) :
    ∀ {n : Nat}, n ≤ 256 → Processed Empty storedZlib.sized (constantLog len n) (constantCandidates len n)
  | 0, _ => .start
  | n + 1, hn => by
    have hstep := @deltaOrFull_eligible Empty _ _ _ _ (@eligible_constant len n hmin hmax) n (constantCandidates len n)
    obtain ⟨best, hbest, hselects⟩ := @bestDelta_selects (constant len n) ((constantCandidates len n).matching 3)
      ((constant len n).length / 2) ((constantCandidates len n).exists_delta 3 _)
    cases best with
    | none =>
      rw [hbest] at hstep
      rw [constantLog, List.range_succ, List.map_append]
      refine .emit (processed_constant hmin hmax (by omega)) (fun e he => ?_) hstep
      obtain ⟨k, hk, rfl⟩ := List.mem_map.1 he
      exact List.mem_range.1 hk
    | some found =>
      obtain ⟨before, c, after, hmatching, -, hd, hle, -⟩ := hselects
      have hc : c ∈ (constantCandidates len n).matching 3 := by
        rw [hmatching]
        exact List.mem_append_right _ (List.mem_cons_self ..)
      obtain ⟨j, hj, hbody⟩ := mem_constantCandidates (List.mem_of_mem_filter hc)
      rw [hbody] at hd
      have hlong := hd.length_le fun _ _ _ => not_isMatch_constant hj (by omega)
      have hlen : (constant len n).length = len := List.length_replicate
      have hpos : 0 < MIN_DELTA_BLOB_SIZE := by decide
      omega

theorem retained_constant : ∀ {window : List DeltaCandidate}, (∀ c ∈ window, c.body.length = len) →
    retained window = window.length * len
  | [], _ => (Nat.zero_mul _).symm
  | c :: window, h => by
    rw [retained_cons, h c (List.mem_cons_self ..), retained_constant fun c' hc' => h c' (List.mem_cons_of_mem _ hc'),
      List.length_cons, Nat.succ_mul, Nat.add_comm]

/-- Of blobs of one size, the window is the last as many as both bounds allow. -/
theorem window_constant (hpos : 0 < len) {window : List DeltaCandidate}
    (h : SuffixWindow Fits ((List.range n).map fun k => ⟨k, 3, constant len k⟩) window) :
    window = ((List.range n).map fun k => ⟨k, 3, constant len k⟩).drop
      (n - min n (min DELTA_WINDOW (MAX_DELTA_CACHE_BYTES / len))) := by
  have hfits : ∀ w, w <:+ ((List.range n).map fun k => (⟨k, 3, constant len k⟩ : DeltaCandidate)) →
      (Fits w ↔ w.length ≤ min DELTA_WINDOW (MAX_DELTA_CACHE_BYTES / len)) := by
    intro w hw
    have hretained := @retained_constant len w fun c hc => by
      obtain ⟨k, -, rfl⟩ := List.mem_map.1 (hw.subset hc)
      exact List.length_replicate
    rw [Fits, hretained, le_min_iff, Nat.le_div_iff_mul_le hpos, and_comm]
  have hlen : ((List.range n).map fun k => (⟨k, 3, constant len k⟩ : DeltaCandidate)).length = n := by simp
  have hle := (hfits window h.suffix).1 h.holds
  have hle' := h.suffix.length_le
  have hdrop := List.drop_suffix (n - min n (min DELTA_WINDOW (MAX_DELTA_CACHE_BYTES / len)))
    ((List.range n).map fun k => (⟨k, 3, constant len k⟩ : DeltaCandidate))
  have hge := h.longest _ hdrop ((hfits _ hdrop).2 (by rw [List.length_drop, hlen]; omega))
  rw [List.length_drop, hlen] at hge
  rw [hlen] at hle'
  have heq := List.suffix_iff_eq_drop.1 h.suffix
  rw [hlen] at heq
  rwa [show n - window.length = n - min n (min DELTA_WINDOW (MAX_DELTA_CACHE_BYTES / len)) by omega] at heq

end Constant

/-- Of ten small blobs the last eight stay, of six large ones the last four. -/
theorem candidates_window_constant :
    ((constantCandidates 512 10).entries.map DeltaCandidate.entryIndex = [2, 3, 4, 5, 6, 7, 8, 9] ∧
      SuffixWindow Fits ((List.range 10).map fun k => ⟨k, 3, constant 512 k⟩) (constantCandidates 512 10).entries) ∧
    (constantCandidates MAX_DELTA_BLOB_SIZE 6).entries.map DeltaCandidate.entryIndex = [2, 3, 4, 5] ∧
      (constantCandidates MAX_DELTA_BLOB_SIZE 6).bytes ≤ MAX_DELTA_CACHE_BYTES ∧
      SuffixWindow Fits ((List.range 6).map fun k => ⟨k, 3, constant MAX_DELTA_BLOB_SIZE k⟩)
        (constantCandidates MAX_DELTA_BLOB_SIZE 6).entries := by
  obtain ⟨-, -, -, -, -, hsmall⟩ :=
    candidates_window storedZlib (@processed_constant 512 (by decide) (by decide) 10 (by decide))
  obtain ⟨-, hbytes, -, -, -, hlarge⟩ :=
    candidates_window storedZlib (@processed_constant MAX_DELTA_BLOB_SIZE (by decide) (by decide) 6 (by decide))
  rw [fullBlobs_constant (by decide) (by decide)] at hsmall hlarge
  refine ⟨⟨?_, hsmall⟩, ?_, hbytes, hlarge⟩
  · rw [window_constant (by decide) hsmall]
    rfl
  · rw [window_constant (by decide) hlarge]
    rfl

end PackOut

end Miscreant
