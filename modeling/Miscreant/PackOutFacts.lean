/-
An offset-delta pack means what the full pack means.

The candidates are blobs sent in full at their index (`Based`), so a delta is
resolved against the body it was made from. The search over them picks the
delta an unbounded search would (`Selects`): a budget only drops what has
lost already.
-/
import Miscreant.DeltaFacts
import Miscreant.Repo
import Mathlib.Algebra.Order.BigOperators.Group.List

namespace Miscreant

open Lib

namespace PackOut

/-! ## The candidate loop -/

/-- The choice among candidates: the earliest of those with the shortest delta,
if that is within the budget. -/
def Selects (body : Bytes) (candidates : List DeltaCandidate) (budget : Nat) : Option (Nat × Bytes) → Prop
  | none => ∀ c ∈ candidates, ∀ d, UnboundedDelta c.body body d → budget < d.length
  | some (entryIndex, d) => ∃ before c after, candidates = before ++ c :: after ∧ c.entryIndex = entryIndex ∧
      UnboundedDelta c.body body d ∧ d.length ≤ budget ∧
      (∀ c' ∈ before, ∀ d', UnboundedDelta c'.body body d' → d.length < d'.length) ∧
      ∀ c' ∈ after, ∀ d', UnboundedDelta c'.body body d' → d.length ≤ d'.length

/-- The loop keeps what it came with unless a candidate is within the budget,
and then has the candidate `Selects` says. -/
theorem bestDelta_cases {body : Bytes} : ∀ {candidates : List DeltaCandidate} {budget : Nat} {best : Option (Nat × Bytes)},
    (∀ c ∈ candidates, ∃ d, UnboundedDelta c.body body d) →
    ∃ best', bestDelta body candidates budget best = some best' ∧
      ((best' = best ∧ Selects body candidates budget none) ∨
        ∃ found, best' = some found ∧ Selects body candidates budget (some found))
  | [], budget, best, _ => ⟨best, rfl, .inl ⟨rfl, fun _ hc => nomatch hc⟩⟩
  | c :: candidates, budget, best, h => by
    obtain ⟨d, hd⟩ := h c (List.mem_cons_self ..)
    have hrest : ∀ c' ∈ candidates, ∃ d, UnboundedDelta c'.body body d := fun c' hc' => h c' (List.mem_cons_of_mem _ hc')
    obtain ⟨index, unbounded, hindex, hmake⟩ := hd
    have hd : UnboundedDelta c.body body d := ⟨index, unbounded, hindex, hmake⟩
    rw [bestDelta, hindex, Option.bind_eq_bind, Option.bind_some, makeDelta_of_unbounded hmake budget]
    by_cases hfits : d.length ≤ budget
    · obtain ⟨best', hbest', hcases⟩ := @bestDelta_cases body candidates (d.length - 1) (some (c.entryIndex, d)) hrest
      have hpos := hd.pos
      refine ⟨best', by simp only [if_pos hfits, Option.bind_eq_bind, Option.bind_some, hbest'], .inr ?_⟩
      rcases hcases with ⟨rfl, hnone⟩ | ⟨⟨i, d'⟩, rfl, before, c', after, rfl, hi, hd', hle, hbefore, hafter⟩
      · refine ⟨(c.entryIndex, d), rfl, [], c, candidates, rfl, rfl, hd, hfits, fun _ hc => (nomatch hc), ?_⟩
        intro c' hc' d' hd'
        have hlt := hnone c' hc' d' hd'
        omega
      · refine ⟨(i, d'), rfl, c :: before, c', after, rfl, hi, hd', by omega, ?_, hafter⟩
        intro c'' hc'' d'' hd''
        rcases List.mem_cons.1 hc'' with rfl | hc''
        · rw [hd.unique hd'']
          omega
        · exact hbefore c'' hc'' d'' hd''
    · obtain ⟨best', hbest', hcases⟩ := @bestDelta_cases body candidates budget best hrest
      refine ⟨best', by simp only [if_neg hfits, Option.bind_eq_bind, Option.bind_some, hbest'], ?_⟩
      rcases hcases with ⟨rfl, hnone⟩ | ⟨⟨i, d'⟩, rfl, before, c', after, rfl, hi, hd', hle, hbefore, hafter⟩
      · refine .inl ⟨rfl, fun c' hc' d' hd' => ?_⟩
        rcases List.mem_cons.1 hc' with rfl | hc'
        · rw [hd.unique hd']
          omega
        · exact hnone c' hc' d' hd'
      · refine .inr ⟨(i, d'), rfl, c :: before, c', after, rfl, hi, hd', hle, ?_, hafter⟩
        intro c'' hc'' d'' hd''
        rcases List.mem_cons.1 hc'' with rfl | hc''
        · rw [hd.unique hd'']
          omega
        · exact hbefore c'' hc'' d'' hd''

theorem bestDelta_selects {body : Bytes} {candidates : List DeltaCandidate} {budget : Nat}
    (h : ∀ c ∈ candidates, ∃ d, UnboundedDelta c.body body d) :
    ∃ best, bestDelta body candidates budget none = some best ∧ Selects body candidates budget best := by
  obtain ⟨best, hbest, ⟨rfl, hnone⟩ | ⟨found, rfl, hfound⟩⟩ := @bestDelta_cases body candidates budget none h
  · exact ⟨none, hbest, hnone⟩
  · exact ⟨some found, hbest, hfound⟩

theorem length_le_retained {c : DeltaCandidate} {entries : List DeltaCandidate} (h : c ∈ entries) :
    c.body.length ≤ retained entries :=
  List.single_le_sum (fun _ _ => Nat.zero_le _) _ (List.mem_map_of_mem h)

/-- What a candidate retains is small enough to index. -/
theorem DeltaCandidates.body_lt (candidates : DeltaCandidates) {c : DeltaCandidate} (h : c ∈ candidates.entries) :
    c.body.length < 2 ^ 32 := by
  have hle := length_le_retained h
  rw [← candidates.bytes_eq] at hle
  exact lt_of_le_of_lt (le_trans hle candidates.bytes_le) (by decide)

theorem DeltaCandidates.exists_delta (candidates : DeltaCandidates) (group : UInt32) (body : Bytes) :
    ∀ c ∈ candidates.matching group, ∃ d, UnboundedDelta c.body body d := by
  intro c hc
  obtain ⟨d, hd, _⟩ := exists_unboundedDelta (candidates.body_lt (List.mem_of_mem_filter hc)) body
  exact ⟨d, hd⟩

section Eligible

variable {ε : Type} {zlib : Zlib} {object : PackEntry} {group : UInt32} {body : Bytes}

/-- A blob that takes part in the search. -/
structure Eligible (zlib : Zlib) (object : PackEntry) (group : UInt32) (body : Bytes) : Prop where
  group : object.deltaGroup = some group
  kind : object.kind = .blob
  min_le : MIN_DELTA_BLOB_SIZE ≤ object.decompressedSize
  le_max : object.decompressedSize ≤ MAX_DELTA_BLOB_SIZE
  inflates : zlib.inflate object.zlib object.decompressedSize = some body

theorem deltaOrFull_eligible (h : Eligible zlib object group body) (entryIndex : Nat) (candidates : DeltaCandidates) :
    (deltaOrFull zlib object entryIndex candidates : Option (Except (PackOutError ε) _)) =
      (bestDelta body (candidates.matching group) (body.length / 2) none).map fun best =>
        .ok (deltaEntry zlib object entryIndex group body candidates best) := by
  have hkind : ¬ (object.kind ≠ .blob ∨
      ¬ (MIN_DELTA_BLOB_SIZE ≤ object.decompressedSize ∧ object.decompressedSize ≤ MAX_DELTA_BLOB_SIZE)) := by
    rintro (hne | hsize)
    · exact hne h.kind
    · exact hsize ⟨h.min_le, h.le_max⟩
  simp only [deltaOrFull, h.group, if_neg hkind, h.inflates]

end Eligible

/-- The early exit and the shrinking budget change no choice: `make_delta`
answers under any budget as it does under none, and `delta_or_full` goes on
with the earliest of the matching candidates with the shortest delta. -/
theorem deltaSearch_exact :
    (∀ (base target : Bytes) (index : BlockIndex) (unbounded : Nat) (d : Bytes),
      makeDelta base target index unbounded = some (some d) → ∀ maxSize,
        makeDelta base target index maxSize = some (if d.length ≤ maxSize then some d else none)) ∧
    ∀ {ε : Type} (zlib : Zlib) (object : PackEntry) (group : UInt32) (body : Bytes), Eligible zlib object group body →
      ∀ (entryIndex : Nat) (candidates : DeltaCandidates),
        (∀ c ∈ candidates.matching group, ∃ d, UnboundedDelta c.body body d) ∧
        ∃ best, Selects body (candidates.matching group) (body.length / 2) best ∧
          (deltaOrFull zlib object entryIndex candidates : Option (Except (PackOutError ε) _)) =
            some (.ok (deltaEntry zlib object entryIndex group body candidates best)) := by
  refine ⟨fun base target index unbounded d h => makeDelta_of_unbounded h, ?_⟩
  intro ε zlib object group body heligible entryIndex candidates
  have hdeltas := candidates.exists_delta group body
  obtain ⟨best, hbest, hselects⟩ := @bestDelta_selects body _ (body.length / 2) hdeltas
  refine ⟨hdeltas, best, hselects, ?_⟩
  rw [deltaOrFull_eligible heligible, hbest, Option.map_some]

/-- Content of 512 bytes: zeros, then `n` bytes that rise. -/
def rising (n : Nat) : Bytes := List.replicate (512 - n) 0 ++ (List.range n).map UInt8.ofNat

/-- A blob of a group. -/
def risingBlob (n : Nat) : PackEntry := ⟨Sample.blobId, .blob, 512, storedStream (rising n), some 3⟩

/-- A window of two blobs of the group. -/
def risen : DeltaCandidates := (DeltaCandidates.empty.insert 0 3 (rising 0)).insert 1 3 (rising 384)

theorem inflate_rising (zlib : Zlib) {n : Nat} (h : n ≤ 512) : zlib.inflate (zlib.deflate (rising n) 6) 512 = some (rising n) := by
  have hlen : (rising n).length = 512 := by
    simp only [rising, List.length_append, List.length_replicate, List.length_map, List.length_range]
    omega
  have hinflate := zlib.inflate_deflate (rising n) 6
  rwa [hlen] at hinflate

theorem exists_of_length {base target : Bytes} {unbounded n : Nat}
    (h : ((blockIndex base).bind fun index => makeDelta base target index unbounded).map (Option.map List.length) =
      some (some n)) :
    ∃ index d, blockIndex base = some index ∧ makeDelta base target index unbounded = some (some d) ∧ d.length = n := by
  obtain ⟨r, hr, hn⟩ := Option.map_eq_some_iff.1 h
  obtain ⟨index, hindex, hmake⟩ := Option.bind_eq_some_iff.1 hr
  obtain ⟨d, rfl, hd⟩ := Option.map_eq_some_iff.1 hn
  exact ⟨index, d, hindex, hmake, hd⟩

/-- The zeros give a delta of 67 bytes, the other candidate one of 31, which
no budget below that lets through and the search finds. -/
theorem deltaSearch_exact_rising :
    (∃ index d, blockIndex (rising 384) = some index ∧ d.length = 31 ∧
      makeDelta (rising 384) (rising 60) index 66 = some (some d) ∧
      makeDelta (rising 384) (rising 60) index 30 = some none) ∧
    (∃ d, UnboundedDelta (rising 0) (rising 60) d ∧ d.length = 67) ∧
    ∃ best, Selects (rising 60) (risen.matching 3) ((rising 60).length / 2) best ∧
      (deltaOrFull storedZlib (risingBlob 60) 2 risen : Option (Except (PackOutError Empty) _)) =
        some (.ok (deltaEntry storedZlib (risingBlob 60) 2 3 (rising 60) risen best)) ∧
      (deltaEntry storedZlib (risingBlob 60) 2 3 (rising 60) risen best).1.kind = .deltaRef 1 := by
  have heligible : Eligible storedZlib (risingBlob 60) 3 (rising 60) :=
    ⟨rfl, rfl, by decide, by decide, inflate_rising storedZlib (by decide)⟩
  have hkind : ((deltaOrFull storedZlib (risingBlob 60) 2 risen : Option (Except (PackOutError Empty) _)).map fun r =>
      r.toOption.map fun s => s.1.kind) = some (some (.deltaRef 1)) := by decide +kernel
  refine ⟨?_, ?_, ?_⟩
  · obtain ⟨index, d, hindex, hmake, hd⟩ := @exists_of_length (rising 384) (rising 60) 600 31 (by decide +kernel)
    have hexact := deltaSearch_exact.1 _ _ index 600 d hmake
    exact ⟨index, d, hindex, hd, (hexact 66).trans (by rw [hd]; rfl), (hexact 30).trans (by rw [hd]; rfl)⟩
  · obtain ⟨index, d, hindex, hmake, hd⟩ := @exists_of_length (rising 0) (rising 60) 600 67 (by decide +kernel)
    exact ⟨d, ⟨index, 600, hindex, hmake⟩, hd⟩
  · obtain ⟨-, best, hselects, hentry⟩ := @deltaSearch_exact.2 Empty storedZlib _ 3 _ heligible 2 risen
    rw [hentry] at hkind
    exact ⟨best, hselects, hentry, Option.some.inj (Option.some.inj hkind)⟩

/-! ## What a pack means -/

/-- The object an entry stands for, after the entries `done`: a delta is
applied to the entry it refers to. -/
def resolve (zlib : Zlib) (done : List (Option (ObjectId × Kind × Bytes))) (e : Entry) :
    Option (ObjectId × Kind × Bytes) := do
  let data ← zlib.inflate e.compressedData e.decompressedSize
  match e.kind with
  | .base kind => pure (e.id, kind, data)
  | .deltaRef objectIndex => do
    let (_, kind, base) ← (← done[objectIndex]?)
    let content ← GitDelta.apply base data
    pure (e.id, kind, content)

/-- The objects of a pack, after the entries `done`. -/
def resolveAll (zlib : Zlib) : List Entry → List (Option (ObjectId × Kind × Bytes)) →
    List (Option (ObjectId × Kind × Bytes))
  | [], done => done
  | e :: entries, done => resolveAll zlib entries (done ++ [resolve zlib done e])

section Resolve

variable {ε : Type} {zlib : Zlib} {object : PackEntry} {content : Bytes}

/-- The zlib stream of an object inflates to content of the declared size. -/
def Inflates (zlib : Zlib) (object : PackEntry) (content : Bytes) : Prop :=
  zlib.inflate object.zlib object.decompressedSize = some content ∧ content.length = object.decompressedSize

theorem resolve_fullEntry (h : Inflates zlib object content) (done : List (Option (ObjectId × Kind × Bytes))) :
    resolve zlib done (fullEntry object) = some (object.id, object.kind, content) := by
  simp [resolve, fullEntry, h.1]

/-- The candidates are blobs among the entries handed over, in full and at
their index. -/
structure Based (handed : List Entry) (done : List (Option (ObjectId × Kind × Bytes))) (candidates : DeltaCandidates) :
    Prop where
  length_eq : done.length = handed.length
  base : ∀ c ∈ candidates.entries, ∃ e id, handed[c.entryIndex]? = some e ∧ e.kind = .base .blob ∧
    done[c.entryIndex]? = some (some (id, .blob, c.body))

variable {handed : List Entry} {done : List (Option (ObjectId × Kind × Bytes))} {candidates : DeltaCandidates}

theorem Based.append (h : Based handed done candidates) (entry : Entry) (object : Option (ObjectId × Kind × Bytes)) :
    Based (handed ++ [entry]) (done ++ [object]) candidates := by
  refine ⟨by simp [h.length_eq], fun c hc => ?_⟩
  obtain ⟨e, id, he, hkind, hdone⟩ := h.base c hc
  have hlt := (List.getElem?_eq_some_iff.1 he).1
  have hlt' := (List.getElem?_eq_some_iff.1 hdone).1
  exact ⟨e, id, by rwa [List.getElem?_append_left hlt], hkind, by rwa [List.getElem?_append_left hlt']⟩

theorem mem_insert {c : DeltaCandidate} {entryIndex : Nat} {group : UInt32} {body : Bytes}
    (h : c ∈ (candidates.insert entryIndex group body).entries) : c ∈ candidates.entries ∨ c = ⟨entryIndex, group, body⟩ := by
  unfold DeltaCandidates.insert at h
  split at h
  · exact .inl h
  · rcases List.mem_append.1 h with h | h
    · exact .inl ((evict_spec _ _ _ candidates.bytes_eq).1.subset h)
    · exact .inr (List.mem_singleton.1 h)

/-- A blob sent in full may become a candidate. -/
theorem Based.insert (h : Based handed done candidates) (hkind : object.kind = .blob) (group : UInt32) :
    Based (handed ++ [fullEntry object]) (done ++ [some (object.id, object.kind, content)])
      (candidates.insert handed.length group content) := by
  refine ⟨by simp [h.length_eq], fun c hc => ?_⟩
  rcases mem_insert hc with hc | rfl
  · exact (h.append _ _).base c hc
  · refine ⟨fullEntry object, object.id, List.getElem?_concat_length .., by rw [fullEntry, hkind], ?_⟩
    rw [← h.length_eq, ← hkind]
    exact List.getElem?_concat_length ..

/-- A delta entry refers to a blob handed over in full. -/
def Refers (handed : List Entry) (entry : Entry) : Prop :=
  ∀ j, entry.kind = .deltaRef j → ∃ e, handed[j]? = some e ∧ e.kind = .base .blob

theorem deltaOrFull_spec (h : Based handed done candidates) (hobject : Inflates zlib object content) :
    ∃ entry candidates', (deltaOrFull zlib object handed.length candidates : Option (Except (PackOutError ε) _)) =
        some (.ok (entry, candidates')) ∧
      resolve zlib done entry = some (object.id, object.kind, content) ∧ Refers handed entry ∧
      Based (handed ++ [entry]) (done ++ [some (object.id, object.kind, content)]) candidates' := by
  have hfull : Refers handed (fullEntry object) := fun j hj => by cases hj
  unfold deltaOrFull
  split
  · exact ⟨_, _, rfl, resolve_fullEntry hobject _, hfull, h.append ..⟩
  · rename_i group _
    split
    · exact ⟨_, _, rfl, resolve_fullEntry hobject _, hfull, h.append ..⟩
    · rename_i heligible
      rw [not_or, not_not, not_not] at heligible
      obtain ⟨hkind, _, hmax⟩ := heligible
      rw [hobject.1]
      obtain ⟨best, hbest, hselects⟩ := @bestDelta_selects content (candidates.matching group) (content.length / 2)
        (candidates.exists_delta group content)
      simp only [hbest, Option.map_some]
      have hinsert := @Based.insert object content handed done candidates h hkind group
      unfold deltaEntry
      cases best with
      | none => exact ⟨_, _, rfl, resolve_fullEntry hobject _, hfull, hinsert⟩
      | some found =>
        obtain ⟨baseIndex, delta⟩ := found
        dsimp only
        split
        · obtain ⟨before, c, after, hmatching, rfl, hdelta, _⟩ := hselects
          have hc : c ∈ candidates.entries := List.mem_of_mem_filter (by
            rw [DeltaCandidates.matching] at hmatching
            rw [hmatching]
            exact List.mem_append_right _ (List.mem_cons_self ..))
          obtain ⟨e, id, he, hbase, hdone⟩ := h.base c hc
          obtain ⟨d, hd, happly⟩ := exists_unboundedDelta (candidates.body_lt hc) content
          obtain rfl := hd.unique hdelta
          have hsize : content.length < 2 ^ 64 := by
            rw [hobject.2]
            exact lt_of_le_of_lt hmax (by decide)
          refine ⟨_, _, rfl, ?_, ?_, h.append ..⟩
          · simp [resolve, zlib.inflate_deflate, hdone, happly hsize, hkind]
          · rintro j ⟨⟩
            exact ⟨e, he, hbase⟩
        · exact ⟨_, _, rfl, resolve_fullEntry hobject _, hfull, hinsert⟩

end Resolve

/-! ## Whole packs -/

section Run

variable {ε : Type} {zlib : Zlib}

theorem handEntries_full_cons (object : PackEntry) (objects : List (Except ε PackEntry)) (written : UInt32)
    (candidates : DeltaCandidates) :
    handEntries zlib false (.ok object :: objects) written candidates =
      (handEntries zlib false objects (written + 1) candidates).map fun (entries, result) =>
        (fullEntry object :: entries, result) := rfl

/-- The rest of a run of either kind, after the entries `handed` of the delta
pack: the same result, and entries that stand for the same objects. -/
structure SameRest (zlib : Zlib) (handed : List Entry) (done : List (Option (ObjectId × Kind × Bytes)))
    (result : Except (PackOutError ε) UInt32) (full delta : List Entry) : Prop where
  length_eq : delta.length = full.length
  resolve_eq : resolveAll zlib delta done = resolveAll zlib full done
  isSome : (∀ object ∈ done, object.isSome) → ∀ object ∈ resolveAll zlib delta done, object.isSome
  refers : ∀ before entry after, delta = before ++ entry :: after → Refers (handed ++ before) entry
  counted : ∀ written, result = .ok written → written.toNat = handed.length + delta.length

theorem SameRest.nil {handed : List Entry} {done : List (Option (ObjectId × Kind × Bytes))}
    {result : Except (PackOutError ε) UInt32} (h : ∀ written, result = .ok written → written.toNat = handed.length) :
    SameRest zlib handed done result [] [] where
  length_eq := rfl
  resolve_eq := rfl
  isSome := fun hdone => hdone
  refers := fun before entry after heq => by
    cases before <;> cases heq
  counted := h

theorem SameRest.cons {handed full delta : List Entry} {done : List (Option (ObjectId × Kind × Bytes))}
    {result : Except (PackOutError ε) UInt32} {entry : Entry} {object : PackEntry} {content : Bytes}
    (hobject : Inflates zlib object content) (hresolve : resolve zlib done entry = some (object.id, object.kind, content))
    (hrefers : Refers handed entry)
    (h : SameRest zlib (handed ++ [entry]) (done ++ [some (object.id, object.kind, content)]) result full delta) :
    SameRest zlib handed done result (fullEntry object :: full) (entry :: delta) where
  length_eq := by simp [h.length_eq]
  resolve_eq := by rw [resolveAll, resolveAll, hresolve, resolve_fullEntry hobject, h.resolve_eq]
  isSome := by
    intro hdone
    rw [resolveAll, hresolve]
    refine h.isSome fun o ho => ?_
    rcases List.mem_append.1 ho with ho | ho
    · exact hdone o ho
    · rw [List.mem_singleton.1 ho]
      rfl
  refers := by
    intro before e after heq
    cases before with
    | nil =>
      cases heq
      rwa [List.append_nil]
    | cons b before =>
      cases heq
      have hrest := h.refers before e after rfl
      rwa [List.append_assoc] at hrest
  counted := by
    intro written hwritten
    rw [h.counted written hwritten, List.length_append, List.length_singleton, List.length_cons]
    omega

theorem handEntries_spec : ∀ {objects : List (Except ε PackEntry)} {written : UInt32} {handed : List Entry}
    {done : List (Option (ObjectId × Kind × Bytes))} {candidates : DeltaCandidates} (start : DeltaCandidates),
    written.toNat = handed.length → handed.length + objects.length < 2 ^ 32 →
    (∀ object, .ok object ∈ objects → ∃ content, Inflates zlib object content) → Based handed done candidates →
    ∃ full delta result, handEntries zlib false objects written start = some (full, result) ∧
      handEntries zlib true objects written candidates = some (delta, result) ∧
      SameRest zlib handed done result full delta
  | [], written, handed, done, candidates, start, hwritten, _, _, _ =>
    ⟨[], [], .ok written, rfl, rfl, .nil fun _ h => by cases h; exact hwritten⟩
  | .error e :: objects, written, handed, done, candidates, start, _, _, _, _ =>
    ⟨[], [], .error (.input e), rfl, rfl, .nil fun _ h => nomatch h⟩
  | .ok object :: objects, written, handed, done, candidates, start, hwritten, hlen, hobjects, hbased => by
    obtain ⟨content, hobject⟩ := hobjects object (List.mem_cons_self ..)
    obtain ⟨entry, candidates', hentry, hresolve, hrefers, hbased'⟩ :=
      @deltaOrFull_spec ε zlib object content handed done candidates hbased hobject
    rw [List.length_cons] at hlen
    -- The count does not wrap.
    have hcount : (written + 1).toNat = (handed ++ [entry]).length := by
      rw [UInt32.toNat_add, hwritten, List.length_append, List.length_singleton]
      exact Nat.mod_eq_of_lt (by simp only [UInt32.toNat_one]; omega)
    have hlen' : (handed ++ [entry]).length + objects.length < 2 ^ 32 := by
      rw [List.length_append, List.length_singleton]
      omega
    obtain ⟨full, delta, result, hfull, hdelta, hrest⟩ := handEntries_spec start hcount hlen'
      (fun o ho => hobjects o (List.mem_cons_of_mem _ ho)) hbased'
    refine ⟨fullEntry object :: full, entry :: delta, result, ?_, ?_, .cons hobject hresolve hrefers hrest⟩
    · rw [handEntries_full_cons, hfull, Option.map_some]
    · simp only [handEntries, hwritten, if_true, hentry, Option.bind_some, hdelta, Option.map_some]

end Run

/-- A pack with offset deltas means what the full pack means. Of objects whose
streams inflate, as many as a `u32` counts, both packs are written with the
same result; entry for entry they resolve to the same objects; a delta
refers to an earlier blob that is there in full; and success means that the
promised number of entries is there. -/
theorem writePack_deltas {ε : Type} (zlib : Zlib) (objects : List (Except ε PackEntry)) (numObjects : UInt32)
    (hlen : objects.length < 2 ^ 32)
    (hobjects : ∀ object, .ok object ∈ objects → ∃ content, Inflates zlib object content) :
    ∃ full delta result, writePackWithOptions zlib false objects numObjects = some (full, result) ∧
      writePackWithOptions zlib true objects numObjects = some (delta, result) ∧
      delta.length = full.length ∧
      resolveAll zlib delta [] = resolveAll zlib full [] ∧ (∀ object ∈ resolveAll zlib delta [], object.isSome) ∧
      (∀ (i : Nat) (entry : Entry) (j : Nat), delta[i]? = some entry → entry.kind = .deltaRef j →
        j < i ∧ ∃ e : Entry, delta[j]? = some e ∧ e.kind = .base .blob) ∧
      (result = .ok () → delta.length = numObjects.toNat) := by
  have hempty : Based [] [] DeltaCandidates.empty := ⟨rfl, fun _ hc => nomatch hc⟩
  obtain ⟨full, delta, result, hfull, hdelta, hsame⟩ := @handEntries_spec ε zlib objects 0 [] [] .empty .empty rfl
    (by simpa using hlen) hobjects hempty
  refine ⟨full, delta, _, by rw [writePackWithOptions, hfull, Option.map_some],
    by rw [writePackWithOptions, hdelta, Option.map_some], hsame.length_eq, hsame.resolve_eq,
    hsame.isSome (fun _ h => nomatch h), ?_, ?_⟩
  · intro i entry j hentry hkind
    obtain ⟨hi, rfl⟩ := List.getElem?_eq_some_iff.1 hentry
    obtain ⟨e, he, hbase⟩ := hsame.refers (delta.take i) delta[i] (delta.drop (i + 1))
      (by rw [List.getElem_cons_drop, List.take_append_drop]) j hkind
    rw [List.nil_append] at he
    have hj := (List.getElem?_eq_some_iff.1 he).1
    rw [List.length_take] at hj
    rw [List.getElem?_take_of_lt (by omega)] at he
    exact ⟨by omega, e, he, hbase⟩
  · intro hok
    cases result with
    | error e => cases hok
    | ok written =>
      dsimp only at hok
      split at hok
      · cases hok
      · rename_i hwritten
        rw [← not_not.1 hwritten, hsame.counted written rfl]
        simp

/-- Two blobs go out as deltas of the first. -/
theorem writePack_deltas_rising : ∃ full delta,
    writePackWithOptions storedZlib false [.ok (risingBlob 0), .ok (risingBlob 60), .ok (risingBlob 30)] 3 =
      some (full, (.ok () : Except (PackOutError Empty) Unit)) ∧
    writePackWithOptions storedZlib true [.ok (risingBlob 0), .ok (risingBlob 60), .ok (risingBlob 30)] 3 =
      some (delta, (.ok () : Except (PackOutError Empty) Unit)) ∧
    full.map Entry.kind = [.base .blob, .base .blob, .base .blob] ∧
    delta.map Entry.kind = [.base .blob, .deltaRef 0, .deltaRef 0] ∧
    resolveAll storedZlib delta [] = resolveAll storedZlib full [] ∧
    ∀ object ∈ resolveAll storedZlib delta [], object.isSome := by
  have hblob : ∀ n ≤ 512, Inflates storedZlib (risingBlob n) (rising n) := by
    intro n hn
    refine ⟨inflate_rising storedZlib hn, ?_⟩
    simp only [rising, risingBlob, List.length_append, List.length_replicate, List.length_map, List.length_range]
    omega
  have hkinds : ∀ ofsDeltas, (writePackWithOptions storedZlib ofsDeltas
      [.ok (risingBlob 0), .ok (risingBlob 60), .ok (risingBlob 30)] 3 :
        Option (List Entry × Except (PackOutError Empty) Unit)).map (fun r => (r.1.map Entry.kind, r.2)) =
      some (.base .blob :: List.replicate 2 (if ofsDeltas then .deltaRef 0 else .base .blob), .ok ()) := by decide +kernel
  obtain ⟨full, delta, result, hfull, hdelta, -, hresolve, hsome, -⟩ := @writePack_deltas Empty storedZlib
    [.ok (risingBlob 0), .ok (risingBlob 60), .ok (risingBlob 30)] 3 (by decide) (by
      intro object hobject
      simp only [List.mem_cons, List.not_mem_nil, Except.ok.injEq, or_false] at hobject
      rcases hobject with rfl | rfl | rfl
      · exact ⟨_, hblob 0 (by decide)⟩
      · exact ⟨_, hblob 60 (by decide)⟩
      · exact ⟨_, hblob 30 (by decide)⟩)
  have hfulls := hkinds false
  have hdeltas := hkinds true
  rw [hfull] at hfulls
  rw [hdelta] at hdeltas
  obtain ⟨hfulls, rfl⟩ := Prod.mk.inj (Option.some.inj hfulls)
  exact ⟨full, delta, hfull, hdelta, hfulls, (Prod.mk.inj (Option.some.inj hdeltas)).1, hresolve, hsome⟩

end PackOut

end Miscreant
