/-
The keyspace and the scans over it: `gather_refs`
(`src/protocol/upload_pack.rs`) at the level of the bytes the store holds.

A ref's key is its repository's preamble and its name, so a scan under a
prefix meets the names that start with it, in the order of their bytes
(`run_listRefs`). The map the scans of several prefixes are gathered in keeps
each ref once (`run_gatherFrom`).
-/
import Miscreant.Slate
import Miscreant.Lib.Utf8
import Mathlib.Order.CompletePartialOrder

namespace Miscreant

open Lib

/-- Names compare as their bytes do. -/
theorem asBytes_lt_iff {a b : String} : asBytes a < asBytes b ↔ a < b := by
  have hbytes : ∀ text : String, asBytes text = text.toList.flatMap String.utf8EncodeChar := by
    intro text
    rw [← asBytes_ofList, String.ofList_toList]
  rw [hbytes, hbytes, String.lt_iff_toList_lt]
  exact Utf8.encode_lt_iff

namespace Slate

/-- The refs under some prefixes, gathered in a map. -/
def gatherFrom (repo : RepoId) :
    List String → SortedMap String RefTarget → SlateProg SlateError (SortedMap String RefTarget)
  | [], refs => pure refs
  | p :: prefixes, refs => do
    let found ← listRefs repo (some p)
    gatherFrom repo prefixes (found.foldl (fun refs (name, target) => refs.insert name target) refs)

/-- `gather_refs`. -/
def gatherRefs (repo : RepoId) (prefixes : List String) : SlateProg SlateError (List (String × RefTarget)) :=
  if prefixes.isEmpty then listRefs repo none
  else do
    let refs ← gatherFrom repo prefixes .empty
    pure refs.entries

/-- The repository has the ref. -/
def RefAt (s : Slate) (repo : RepoId) (name : String) (target : RefTarget) : Prop :=
  ∃ bytes, s.kv.data.get (refKey repo name) = some bytes ∧ RefTarget.decode bytes = .ok target

/-- An entry of the repository's ref segment does not decode. -/
def UnreadableRef (s : Slate) (repo : RepoId) : Prop :=
  ∃ entry ∈ s.kv.data.entries, segmentPrefix repo .ref <+: entry.1 ∧ ∃ e, decodeRef entry = .error e

/-- Exactly the repository's refs whose names are `Asked` for, each once, in
the order of the names' bytes. -/
structure ExactRefs (s : Slate) (repo : RepoId) (Asked : String → Prop) (refs : List (String × RefTarget)) : Prop where
  mem : ∀ name target, (name, target) ∈ refs ↔ RefAt s repo name target ∧ Asked name
  sorted : refs.Pairwise fun a b => asBytes a.1 < asBytes b.1

/-! ## One scan -/

section Scan

variable {s : Slate} {repo : RepoId}

theorem RefAt.unique {name : String} {target target' : RefTarget} (h : RefAt s repo name target)
    (h' : RefAt s repo name target') : target = target' := by
  obtain ⟨bytes, hget, hdecode⟩ := h
  obtain ⟨bytes', hget', hdecode'⟩ := h'
  cases hget.symm.trans hget'
  cases hdecode.symm.trans hdecode'
  rfl

theorem decodeRef_ok {entry : Bytes × Bytes} {name : String} {target : RefTarget} :
    decodeRef entry = .ok (name, target) ↔
      (∃ repo, entry.1 = refKey repo name) ∧ RefTarget.decode entry.2 = .ok target := by
  obtain ⟨key, value⟩ := entry
  have hkey : ∀ repo name, decodeRefKey key = .ok (repo, name) ↔ refKey repo name = key := by
    intro repo name
    rw [decodeRefKey, decodeKey_name, refKey]
  constructor
  · intro h
    unfold decodeRef at h
    cases hk : decodeRefKey key with
    | error e =>
      rw [hk] at h
      cases h
    | ok parts =>
      obtain ⟨repo, name'⟩ := parts
      cases hv : RefTarget.decode value with
      | error e =>
        simp only [hk, hv] at h
        cases h
      | ok target' =>
        simp only [hk, hv] at h
        cases h
        exact ⟨⟨repo, ((hkey repo name').1 hk).symm⟩, rfl⟩
  · intro h
    obtain ⟨⟨repo, hrepo⟩, hv⟩ := h
    unfold decodeRef
    simp only [(hkey repo name).2 hrepo.symm, hv]
    rfl

theorem decodeRefs_ok : ∀ {entries : List (Bytes × Bytes)} {refs : List (String × RefTarget)},
    decodeRefs entries = .ok refs → entries.map decodeRef = refs.map .ok
  | [], refs, h => by
    cases h
    rfl
  | entry :: entries, refs, h => by
    unfold decodeRefs at h
    cases he : decodeRef entry with
    | error e =>
      rw [he] at h
      cases h
    | ok ref =>
      cases hrest : decodeRefs entries with
      | error e =>
        simp only [he, hrest] at h
        cases h
      | ok rest =>
        simp only [he, hrest] at h
        cases h
        rw [List.map_cons, List.map_cons, he, decodeRefs_ok hrest]

theorem decodeRefs_error : ∀ {entries : List (Bytes × Bytes)} {e : SlateError}, decodeRefs entries = .error e →
    ∃ entry ∈ entries, decodeRef entry = .error e
  | entry :: entries, e, h => by
    unfold decodeRefs at h
    cases he : decodeRef entry with
    | error e' =>
      rw [he] at h
      cases h
      exact ⟨entry, List.mem_cons_self .., he⟩
    | ok ref =>
      cases hrest : decodeRefs entries with
      | error e' =>
        simp only [he, hrest] at h
        cases h
        obtain ⟨entry', hmem, herror⟩ := decodeRefs_error hrest
        exact ⟨entry', List.mem_cons_of_mem _ hmem, herror⟩
      | ok rest =>
        simp only [he, hrest] at h
        cases h

/-- Keys with one preamble compare as their suffixes do. -/
theorem lt_of_append_lt {a x y : Bytes} (h : a ++ x < a ++ y) : x < y := by
  rcases lt_trichotomy x y with hlt | heq | hgt
  · exact hlt
  · rw [heq] at h
    exact absurd h (lt_irrefl _)
  · exact absurd (List.append_left_lt hgt) (lt_asymm h)

/-- The names a scan asks for. -/
def Starts (start : Option String) (name : String) : Prop := ∀ p, start = some p → asBytes p <+: asBytes name

/-- The bytes a scan of `list_refs` starts with. -/
def scanStart (repo : RepoId) : Option String → Bytes
  | some p => refPrefix repo p
  | none => segmentPrefix repo .ref

theorem scanStart_isPrefix {start : Option String} {repo' : RepoId} {name : String} :
    scanStart repo start <+: refKey repo' name ↔ repo' = repo ∧ Starts start name := by
  cases start with
  | some p =>
    rw [scanStart, refPrefix_isPrefixOf]
    simp [Starts]
  | none =>
    rw [scanStart, segmentPrefix, refKey]
    constructor
    · intro h
      obtain ⟨rest, hrest⟩ := h
      exact ⟨(preamble_inj hrest).1.symm, fun p hp => by cases hp⟩
    · intro h
      rw [h.1]
      exact List.prefix_append ..

theorem segmentPrefix_of_scanStart {start : Option String} {key : Bytes} (h : scanStart repo start <+: key) :
    segmentPrefix repo .ref <+: key := by
  cases start with
  | some p => exact (List.prefix_append ..).trans h
  | none => exact h

/-- What a scan that decodes gives. -/
theorem exactRefs_of_decode {start : Option String} {refs : List (String × RefTarget)}
    (h : decodeRefs (s.kv.data.entries.filter fun e => (scanStart repo start).isPrefixOf e.1) = .ok refs) :
    ExactRefs s repo (Starts start) refs := by
  generalize hentries : s.kv.data.entries.filter (fun e => (scanStart repo start).isPrefixOf e.1) = entries at h
  have hmap := decodeRefs_ok h
  -- Every entry met is a ref of the repository, under its own key.
  have hkey : ∀ entry ∈ entries, ∀ name target, decodeRef entry = .ok (name, target) →
      entry.1 = refKey repo name ∧ Starts start name := by
    intro entry hentry name target hdecode
    rw [← hentries, List.mem_filter, List.isPrefixOf_iff_prefix] at hentry
    obtain ⟨⟨repo', hrepo'⟩, -⟩ := decodeRef_ok.1 hdecode
    have hstart := hentry.2
    rw [hrepo', scanStart_isPrefix] at hstart
    rw [hrepo', hstart.1]
    exact ⟨rfl, hstart.2⟩
  have hmem : ∀ ref, ref ∈ refs ↔ ∃ entry ∈ entries, decodeRef entry = .ok ref := by
    intro ref
    rw [← List.mem_map, hmap, List.mem_map_of_injective fun _ _ => Except.ok.inj]
  constructor
  · intro name target
    rw [hmem]
    constructor
    · intro hat
      obtain ⟨entry, hentry, hdecode⟩ := hat
      obtain ⟨hname, hstarts⟩ := hkey entry hentry name target hdecode
      rw [← hentries, List.mem_filter] at hentry
      refine ⟨⟨entry.2, ?_, (decodeRef_ok.1 hdecode).2⟩, hstarts⟩
      rw [← hname]
      exact SortedMap.mem_entries.1 hentry.1
    · intro hat
      obtain ⟨⟨bytes, hget, hdecode⟩, hstarts⟩ := hat
      refine ⟨(refKey repo name, bytes), ?_, decodeRef_ok.2 ⟨⟨repo, rfl⟩, hdecode⟩⟩
      rw [← hentries, List.mem_filter, List.isPrefixOf_iff_prefix]
      exact ⟨SortedMap.mem_entries.2 hget, scanStart_isPrefix.2 ⟨rfl, hstarts⟩⟩
  · have hsorted : entries.Pairwise fun a b => a.1 < b.1 := by
      rw [← hentries]
      exact s.kv.data.sorted.filter _
    have hdecoded : (entries.map decodeRef).Pairwise fun x y =>
        ∀ a b, x = .ok a → y = .ok b → asBytes a.1 < asBytes b.1 := by
      refine List.pairwise_map.2 (hsorted.imp_of_mem fun {e e'} he he' hlt a b ha hb => ?_)
      rw [(hkey e he a.1 a.2 ha).1, (hkey e' he' b.1 b.2 hb).1] at hlt
      exact lt_of_append_lt hlt
    rw [hmap, List.pairwise_map] at hdecoded
    exact hdecoded.imp fun hlt => hlt _ _ rfl rfl

/-- A scan of `list_refs`. -/
theorem run_listRefs (s : Slate) (repo : RepoId) (start : Option String) :
    ∃ x, (listRefs repo start).run handler s = some (x, s) ∧
      (∀ refs, x = .ok refs → ExactRefs s repo (Starts start) refs) ∧ ((∃ e, x = .error e) → UnreadableRef s repo) := by
  refine ⟨decodeRefs (s.kv.data.entries.filter fun e => (scanStart repo start).isPrefixOf e.1), ?_,
    fun refs hrefs => exactRefs_of_decode hrefs, fun herror => ?_⟩
  · have hscan : (scan (scanStart repo start) : SlateProg SlateError _).run handler s =
        some (.ok (s.kv.data.entries.filter fun e => (scanStart repo start).isPrefixOf e.1), s) := rfl
    have hlist : listRefs repo start = scan (scanStart repo start) >>= fun entries => Prog.ofExcept (decodeRefs entries) := by
      cases start <;> rfl
    rw [hlist, Prog.run_bind_ok hscan, Prog.run_ofExcept]
  · obtain ⟨e, he⟩ := herror
    obtain ⟨entry, hentry, hdecode⟩ := decodeRefs_error he
    rw [List.mem_filter, List.isPrefixOf_iff_prefix] at hentry
    exact ⟨entry, hentry.1, segmentPrefix_of_scanStart hentry.2, e, hdecode⟩

end Scan

/-! ## The union of scans -/

section Gather

variable {s : Slate} {repo : RepoId}

/-- A map that holds exactly the refs asked for. -/
def Gathered (s : Slate) (repo : RepoId) (Asked : String → Prop) (m : SortedMap String RefTarget) : Prop :=
  ∀ name target, m.get name = some target ↔ RefAt s repo name target ∧ Asked name

theorem Gathered.insert {Asked : String → Prop} {m : SortedMap String RefTarget} (h : Gathered s repo Asked m)
    {name : String} {target : RefTarget} (hat : RefAt s repo name target) :
    Gathered s repo (fun n => n = name ∨ Asked n) (m.insert name target) := by
  intro n t
  rw [SortedMap.get_insert]
  by_cases hn : n = name
  · subst hn
    rw [if_pos rfl]
    constructor
    · intro ht
      cases ht
      exact ⟨hat, .inl rfl⟩
    · intro ht
      rw [hat.unique ht.1]
  · rw [if_neg hn, h]
    exact and_congr_right fun _ => by simp [hn]

theorem Gathered.foldl : ∀ {found : List (String × RefTarget)} {Asked : String → Prop} {m : SortedMap String RefTarget},
    Gathered s repo Asked m → (∀ ref ∈ found, RefAt s repo ref.1 ref.2) →
    Gathered s repo (fun n => n ∈ found.map (·.1) ∨ Asked n)
      (found.foldl (fun refs (name, target) => refs.insert name target) m)
  | [], Asked, m, h, _ => fun n t => by simpa using h n t
  | (name, target) :: found, Asked, m, h, hfound => by
    have hrest := (h.insert (hfound _ (List.mem_cons_self ..))).foldl fun ref href =>
      hfound ref (List.mem_cons_of_mem _ href)
    intro n t
    refine (hrest n t).trans (and_congr_right fun _ => ?_)
    simp only [List.map_cons, List.mem_cons]
    tauto

/-- A list of refs gathered in a map. -/
theorem Gathered.exact {Asked Asked' : String → Prop} {m : SortedMap String RefTarget} {found : List (String × RefTarget)}
    (h : Gathered s repo Asked m) (hfound : ExactRefs s repo Asked' found) :
    Gathered s repo (fun n => Asked' n ∨ Asked n) (found.foldl (fun refs (name, target) => refs.insert name target) m) := by
  have hrefs : ∀ ref ∈ found, RefAt s repo ref.1 ref.2 := fun ref href => ((hfound.mem ref.1 ref.2).1 href).1
  intro n t
  refine (h.foldl hrefs n t).trans (and_congr_right fun hat => or_congr_left ?_)
  rw [List.mem_map]
  constructor
  · intro hmem
    obtain ⟨⟨n', t'⟩, href, rfl⟩ := hmem
    exact ((hfound.mem n' t').1 href).2
  · intro hasked
    exact ⟨(n, t), (hfound.mem n t).2 ⟨hat, hasked⟩, rfl⟩

/-- The names under one of some prefixes. -/
def StartsAny (prefixes : List String) (name : String) : Prop := ∃ p ∈ prefixes, asBytes p <+: asBytes name

theorem run_gatherFrom : ∀ (prefixes : List String) {Asked : String → Prop} {m : SortedMap String RefTarget},
    Gathered s repo Asked m → ∃ x, (gatherFrom repo prefixes m).run handler s = some (x, s) ∧
      (∀ m', x = .ok m' → Gathered s repo (fun n => StartsAny prefixes n ∨ Asked n) m') ∧
      ((∃ e, x = .error e) → UnreadableRef s repo)
  | [], Asked, m, h => by
    refine ⟨.ok m, rfl, fun m' hm' => ?_, fun he => ?_⟩
    · cases hm'
      intro n t
      simpa [StartsAny] using h n t
    · obtain ⟨e, he⟩ := he
      cases he
  | p :: prefixes, Asked, m, h => by
    obtain ⟨x, hlist, hok, herror⟩ := run_listRefs s repo (some p)
    cases x with
    | error e => exact ⟨.error e, Prog.run_bind_error hlist, (fun m' hm' => nomatch hm'), fun _ => herror ⟨e, rfl⟩⟩
    | ok found =>
      obtain ⟨x, hrun, hgathered, herror⟩ := run_gatherFrom prefixes (h.exact (hok found rfl))
      refine ⟨x, (Prog.run_bind_ok hlist).trans hrun, fun m' hm' n t => ?_, herror⟩
      refine (hgathered m' hm' n t).trans (and_congr_right fun _ => ?_)
      have hstarts : Starts (some p) n ↔ asBytes p <+: asBytes n := by simp [Starts]
      have hany : StartsAny (p :: prefixes) n ↔ asBytes p <+: asBytes n ∨ StartsAny prefixes n := by simp [StartsAny]
      simp only [hstarts, hany]
      tauto

/-- `gather_refs` gives exactly the refs asked for, or meets one it cannot
read. -/
theorem run_gatherRefs (s : Slate) (repo : RepoId) (prefixes : List String) :
    ∃ x, (gatherRefs repo prefixes).run handler s = some (x, s) ∧
      (∀ refs, x = .ok refs → ExactRefs s repo (fun name => prefixes = [] ∨ StartsAny prefixes name) refs) ∧
      ((∃ e, x = .error e) → UnreadableRef s repo) := by
  unfold gatherRefs
  split
  · rename_i hempty
    obtain ⟨x, hrun, hok, herror⟩ := run_listRefs s repo none
    refine ⟨x, hrun, fun refs hrefs => ?_, herror⟩
    obtain ⟨hmem, hsorted⟩ := hok refs hrefs
    refine ⟨fun name target => ?_, hsorted⟩
    rw [hmem]
    simp [Starts, List.isEmpty_iff.1 hempty]
  · rename_i hempty
    have hnone : Gathered s repo (fun _ => False) .empty := fun n t => by simp
    obtain ⟨x, hrun, hgathered, herror⟩ := run_gatherFrom prefixes hnone
    refine ⟨x.map SortedMap.entries, ?_, fun refs hrefs => ?_, fun he => ?_⟩
    · rw [Prog.run_bind, hrun]
      cases x <;> rfl
    · cases x with
      | error e => cases hrefs
      | ok m =>
        cases hrefs
        refine ⟨fun name target => ?_, m.sorted.imp fun hlt => asBytes_lt_iff.2 hlt⟩
        rw [SortedMap.mem_entries, hgathered m rfl]
        simp [List.isEmpty_iff.not.1 hempty]
    · obtain ⟨e, he⟩ := he
      cases x with
      | error e' => exact herror ⟨e', rfl⟩
      | ok m => cases he

end Gather

end Slate

/-! ## The keyspace -/

/-- The keys that are built for a segment. -/
def Segment.keys : Segment → Set Bytes
  | .metadata => Set.range fun key : RepoId × String => metaKey key.1 key.2
  | .object => Set.range fun key : RepoId × ObjectId => objectKey key.1 key.2
  | .ref => Set.range fun key : RepoId × String => refKey key.1 key.2
  | .commitGraph => Set.range fun key : RepoId × ObjectId => commitKey key.1 key.2

theorem Segment.preamble_of_mem_keys {segment : Segment} {key : Bytes} (h : key ∈ segment.keys) :
    ∃ repo rest, key = encodePreamble repo segment ++ rest := by
  cases segment with
  | metadata | object | ref | commitGraph =>
    obtain ⟨⟨repo, suffix⟩, rfl⟩ := h
    exact ⟨repo, _, rfl⟩

theorem Segment.disjoint_keys {a b : Segment} (h : a ≠ b) : Disjoint a.keys b.keys := by
  refine Set.disjoint_left.2 fun key ha hb => ?_
  obtain ⟨repo, rest, hkey⟩ := Segment.preamble_of_mem_keys ha
  obtain ⟨repo', rest', hkey'⟩ := Segment.preamble_of_mem_keys hb
  exact h (preamble_inj (hkey.symm.trans hkey')).2.1

/-- No two keys collide. -/
structure CollisionFree : Prop where
  metaKey : Function.Injective fun key : RepoId × String => metaKey key.1 key.2
  objectKey : Function.Injective fun key : RepoId × ObjectId => objectKey key.1 key.2
  refKey : Function.Injective fun key : RepoId × String => refKey key.1 key.2
  commitKey : Function.Injective fun key : RepoId × ObjectId => commitKey key.1 key.2
  disjoint : ∀ a b : Segment, a ≠ b → Disjoint a.keys b.keys

theorem collisionFree : CollisionFree where
  metaKey _ _ h := Prod.ext_iff.2 (metaKey_inj.1 h)
  objectKey _ _ h := Prod.ext_iff.2 (objectKey_inj.1 h)
  refKey _ _ h := Prod.ext_iff.2 (refKey_inj.1 h)
  commitKey _ _ h := Prod.ext_iff.2 (commitKey_inj.1 h)
  disjoint _ _ h := Segment.disjoint_keys h

/-- Each decoder reads the keys of its builder, and no other bytes. -/
structure KeysReadBack : Prop where
  metaKey : ∀ bytes repo name, decodeMetaKey bytes = .ok (repo, name) ↔ metaKey repo name = bytes
  objectKey : ∀ bytes repo oid k, decodeObjectKey bytes k = .ok (repo, oid) ↔ objectKey repo oid = bytes ∧ oid.kind = k
  refKey : ∀ bytes repo name, decodeRefKey bytes = .ok (repo, name) ↔ refKey repo name = bytes
  commitKey : ∀ bytes repo oid k, decodeCommitKey bytes k = .ok (repo, oid) ↔ commitKey repo oid = bytes ∧ oid.kind = k

theorem keysReadBack : KeysReadBack where
  metaKey _ _ _ := decodeKey_name
  objectKey _ _ _ _ := decodeKey_oid
  refKey _ _ _ := by
    rw [decodeRefKey]
    exact decodeKey_name
  commitKey _ _ _ _ := decodeKey_oid

/-- The keyspace is free of collisions, and a scan for refs is exact: in every
state `gather_refs` gives the repository's refs under one of the prefixes (all
of them for no prefix), each once, in the order of the names' bytes. It fails
only where an entry of the repository's ref segment does not decode. -/
theorem keyspace_exact : CollisionFree ∧ KeysReadBack ∧
    (∀ (repo repo' : RepoId) (p name : String),
      refPrefix repo p <+: refKey repo' name ↔ repo' = repo ∧ asBytes p <+: asBytes name) ∧
    ∀ (s : Slate) (repo : RepoId) (prefixes : List String),
      ∃ x, (Slate.gatherRefs repo prefixes).run Slate.handler s = some (x, s) ∧
        (∀ refs, x = .ok refs →
          s.ExactRefs repo (fun name => prefixes = [] ∨ Slate.StartsAny prefixes name) refs) ∧
        ((∃ e, x = .error e) → s.UnreadableRef repo) :=
  ⟨collisionFree, keysReadBack, fun _ _ _ _ => refPrefix_isPrefixOf, Slate.run_gatherRefs⟩

namespace Sample

/-- Two refs of repository 1, and one of repository 2. -/
def refStore : Slate :=
  ⟨Kv.empty.commit [(refKey ⟨1⟩ "refs/tags/v1", some (RefTarget.reference "HEAD").encode),
    (refKey ⟨1⟩ "refs/heads/main", some (RefTarget.reference "HEAD").encode),
    (refKey ⟨2⟩ "refs/heads/main", some (RefTarget.reference "HEAD").encode)], fun _ => none⟩

end Sample

/-- Two prefixes that overlap, and one twice. -/
theorem keyspace_exact_overlapping : ∃ refs,
    (Slate.gatherRefs ⟨1⟩ ["refs/heads/", "refs/", "refs/heads/"]).run Slate.handler Sample.refStore =
      some (.ok refs, Sample.refStore) ∧
    Sample.refStore.ExactRefs ⟨1⟩
      (fun name => ["refs/heads/", "refs/", "refs/heads/"] = [] ∨
        Slate.StartsAny ["refs/heads/", "refs/", "refs/heads/"] name) refs ∧
    refs.map (·.1) = ["refs/heads/main", "refs/tags/v1"] := by
  obtain ⟨x, hrun, hok, -⟩ := keyspace_exact.2.2.2 Sample.refStore ⟨1⟩ ["refs/heads/", "refs/", "refs/heads/"]
  have heval : ((Slate.gatherRefs ⟨1⟩ ["refs/heads/", "refs/", "refs/heads/"]).run Slate.handler Sample.refStore).map
      (fun r => r.1.toOption.map fun refs => refs.map (·.1)) = some (some ["refs/heads/main", "refs/tags/v1"]) := by
    decide +kernel
  rw [hrun] at heval
  cases x with
  | error e => cases heval
  | ok refs => exact ⟨refs, hrun, hok refs rfl, Option.some.inj (Option.some.inj heval)⟩

end Miscreant
