/-
Offset deltas and what is sent.

Planning with offset deltas collects the objects a second way, with a path for
each blob, and schedules them anew. The two collections go side by side
(`simulates_collectAll`): names and paths are read along and decide nothing.
So the second plan has the objects of the first, in another order
(`planPack_ofsDeltas`).

A recorded path has the names on the way from a root tree, joined by slashes.
Empty names at its front add no slash: the walk has an empty path for the root
itself (`joinPath`), and cannot tell a directory without a name from it.
-/
import Miscreant.LookupFacts
import Miscreant.BackfillFacts
import Miscreant.PlanFacts

namespace Miscreant

open Lib

variable {E : Env} {db : E.Db}

/-! ## Paths -/

/-- Names joined by slashes. -/
def slashJoin (names : List Bytes) : Bytes := List.intercalate [UInt8.ofNat '/'.toNat] names

theorem slashJoin_cons (p n : Bytes) (names : List Bytes) :
    slashJoin (p :: n :: names) = slashJoin ((p ++ [UInt8.ofNat '/'.toNat] ++ n) :: names) := by
  unfold slashJoin
  cases names with
  | nil => simp [List.intercalate_cons_cons]
  | cons m names => simp [List.intercalate_cons_cons]

theorem foldl_joinPath_cons : ∀ {p : Bytes} (names : List Bytes), p ≠ [] → names.foldl joinPath p = slashJoin (p :: names)
  | p, [], _ => by simp [slashJoin]
  | p, n :: names, hp => by
    have hjoin : joinPath p n = p ++ [UInt8.ofNat '/'.toNat] ++ n := by simp [joinPath, hp]
    rw [List.foldl_cons, hjoin, foldl_joinPath_cons names (by simp), ← slashJoin_cons]

/-- The path of some names, as the walk builds it up. -/
theorem foldl_joinPath : ∀ names : List Bytes, names.foldl joinPath [] = slashJoin (names.dropWhile List.isEmpty)
  | [] => rfl
  | [] :: names => foldl_joinPath names
  | (b :: name) :: names => @foldl_joinPath_cons (b :: name) names (List.cons_ne_nil b name)

/-- `names` lead from the tree `root` to `x`, one for each entry. -/
inductive Env.NamesTo (E : Env) (db : E.Db) (root : ObjectId) : List Bytes → ObjectId → Prop
  | root : E.NamesTo db root [] root
  | entry {names : List Bytes} {t : ObjectId} {entries : List TreeEntryRef} {e : TreeEntryRef}
      (hnames : E.NamesTo db root names t) (ht : E.treeAt db t = some entries) (he : e ∈ entries)
      (hm : e.mode ≠ .commit) : E.NamesTo db root (names ++ [e.filename]) e.oid

/-- `path` is the way from the root tree of a commit in `sent` to `x`: its
names joined by slashes, less the empty ones at the front. -/
def Env.SentPath (E : Env) (db : E.Db) (sent : List ObjectId) (path : Bytes) (x : ObjectId) : Prop :=
  ∃ c ∈ sent, ∃ commit names, E.commitAt db c = some commit ∧ E.NamesTo db commit.tree names x ∧
    path = slashJoin (names.dropWhile List.isEmpty)

/-- `path` is what the walk records on the way from `root` to `x`. -/
def Env.WalkPath (E : Env) (db : E.Db) (root : ObjectId) (path : Bytes) (x : ObjectId) : Prop :=
  ∃ names, E.NamesTo db root names x ∧ names.foldl joinPath [] = path

theorem Env.WalkPath.root (t : ObjectId) : E.WalkPath db t [] t := ⟨[], .root, rfl⟩

theorem Env.WalkPath.sent {sent : List ObjectId} {c x : ObjectId} {commit : CommitRef} {path : Bytes}
    (h : E.WalkPath db commit.tree path x) (hc : E.commitAt db c = some commit) (hsent : c ∈ sent) :
    E.SentPath db sent path x := by
  obtain ⟨names, hnames, rfl⟩ := h
  exact ⟨c, hsent, commit, names, hc, hnames, foldl_joinPath names⟩

/-- The name of an entry, when names are read. -/
def TreeEntry.name : TreeEntry → Option Bytes
  | .subtree _ name | .leaf _ name => name

/-- An entry as it is read without names. -/
def TreeEntry.unnamed : TreeEntry → TreeEntry
  | .subtree oid _ => .subtree oid none
  | .leaf oid _ => .leaf oid none

namespace Walker

theorem entriesAt_unnamed (t : ObjectId) : E.entriesAt db false t = (E.entriesAt db true t).map TreeEntry.unnamed := by
  rw [Env.entriesAt, Env.entriesAt, List.map_filterMap]
  refine List.filterMap_congr fun r _ => ?_
  cases hm : r.mode <;> simp [keepEntry, hm, TreeEntry.unnamed]

/-- An entry read with its name leads one name further. -/
theorem walkPath_entry {root t : ObjectId} {path : Bytes} {e : TreeEntry} (hpath : E.WalkPath db root path t)
    (he : e ∈ E.entriesAt db true t) :
    ∃ name, e.name = some name ∧ E.WalkPath db root (joinPath path name) e.oid := by
  obtain ⟨entries, ht, r, hr, hkeep⟩ := mem_entriesAt.1 he
  obtain ⟨names, hnames, rfl⟩ := hpath
  have hfields : r.mode ≠ .commit ∧ e.name = some r.filename ∧ e.oid = r.oid := by
    unfold keepEntry at hkeep
    split at hkeep
    · rename_i hm
      cases hkeep
      exact ⟨by simp [hm], rfl, rfl⟩
    · cases hkeep
    · rename_i hm
      cases hkeep
      exact ⟨hm, rfl, rfl⟩
  obtain ⟨hm, hname, hoid⟩ := hfields
  refine ⟨r.filename, hname, names ++ [r.filename], ?_, ?_⟩
  · rw [hoid]
    exact .entry hnames ht hr hm
  · rw [List.foldl_append]
    rfl

/-! ## Two walks side by side -/

/-- Two readings of a level, without paths and with them, on the way from the
tree `root`; `kept` was collected before. -/
structure TreeLevel.Beside (E : Env) (db : E.Db) (kept : List ObjectId) (root : ObjectId) (s s' : TreeLevel) : Prop where
  objects : s'.objects = s.objects
  next : s'.next.map (·.1) = s.next.map (·.1)
  candidates : s'.candidates.map (·.1) = s.candidates.map (·.1)
  seen : s'.candidateSeen = s.candidateSeen
  subtrees : ∀ p ∈ s'.next, (E.treeAt db p.1).isSome ∧ E.WalkPath db root p.2 p.1
  leaves : ∀ p ∈ s'.candidates, E.IsBlob db p.1 ∧ E.WalkPath db root p.2 p.1
  present : ∀ x ∈ s.objects.order, (E.objectAt db x).isSome
  kept : ∀ x ∈ kept, x ∈ s.objects.order

section Beside

variable {kept : List ObjectId} {root : ObjectId} {haveObjects : Finset ObjectId} {s s' : TreeLevel}

theorem objectAt_of_treeAt {t : ObjectId} (h : (E.treeAt db t).isSome) : (E.objectAt db t).isSome := by
  obtain ⟨entries, ht⟩ := Option.isSome_iff_exists.1 h
  obtain ⟨body, ho, -⟩ := treeAt_eq_some.1 ht
  rw [ho]
  rfl

theorem TreeLevel.Beside.addEntry (ht : TreesTyped E db) (h : TreeLevel.Beside E db kept root s s') (parentPath : Bytes)
    {path : Bytes} {t : ObjectId} {e : TreeEntry} (hpath : E.WalkPath db root path t) (he : e ∈ E.entriesAt db true t) :
    ∃ s₁ s₁', s.addEntry haveObjects false parentPath e.unnamed = some s₁ ∧
      s'.addEntry haveObjects true path e = some s₁' ∧ TreeLevel.Beside E db kept root s₁ s₁' := by
  obtain ⟨n, hname, hwalk⟩ := walkPath_entry hpath he
  cases e with
  | subtree child name =>
    obtain rfl : name = some n := hname
    have htree := subtree_treeAt ht he
    by_cases hnew : ¬ s.objects.contains child ∧ child ∉ haveObjects
    · refine ⟨{ s with objects := s.objects.insert child, next := s.next ++ [(child, [])] },
        { s' with objects := s'.objects.insert child, next := s'.next ++ [(child, joinPath path n)] },
        if_pos hnew, if_pos (by rw [h.objects]; exact hnew), ?_⟩
      exact
        { objects := by rw [h.objects]
          next := by rw [List.map_append, List.map_append, h.next]; rfl
          candidates := h.candidates
          seen := h.seen
          subtrees := by
            rw [List.forall_mem_append]
            exact ⟨h.subtrees, List.forall_mem_singleton.2 ⟨htree, hwalk⟩⟩
          leaves := h.leaves
          present := fun x hx => by
            rcases OrderedOidSet.mem_insert.1 hx with hx | rfl
            · exact h.present x hx
            · exact objectAt_of_treeAt htree
          kept := fun x hx => OrderedOidSet.mem_insert.2 (.inl (h.kept x hx)) }
    · exact ⟨s, s', if_neg hnew, if_neg (by rw [h.objects]; exact hnew), h⟩
  | leaf child name =>
    obtain rfl : name = some n := hname
    by_cases hnew : child ∉ haveObjects ∧ ¬ s.objects.contains child ∧ child ∉ s.candidateSeen
    · refine ⟨{ s with candidates := s.candidates ++ [(child, [])], candidateSeen := insert child s.candidateSeen },
        { s' with
          candidates := s'.candidates ++ [(child, joinPath path n)]
          candidateSeen := insert child s'.candidateSeen },
        if_pos hnew, if_pos (by rw [h.objects, h.seen]; exact hnew), ?_⟩
      exact
        { objects := h.objects
          next := h.next
          candidates := by rw [List.map_append, List.map_append, h.candidates]; rfl
          seen := by rw [h.seen]
          subtrees := h.subtrees
          leaves := by
            rw [List.forall_mem_append]
            exact ⟨h.leaves, List.forall_mem_singleton.2 ⟨leaf_isBlob ht he, hwalk⟩⟩
          present := h.present
          kept := h.kept }
    · exact ⟨s, s', if_neg hnew, if_neg (by rw [h.objects, h.seen]; exact hnew), h⟩

variable (haveObjects) in
/-- Two readings of the same entries. -/
theorem TreeLevel.Beside.addEntries (ht : TreesTyped E db) : ∀ {l l' : List (Bytes × TreeEntry)} {s s' : TreeLevel},
    TreeLevel.Beside E db kept root s s' → List.Forall₂ (fun a b => a.2 = b.2.unnamed) l l' →
    (∀ b ∈ l', ∃ t, E.WalkPath db root b.1 t ∧ b.2 ∈ E.entriesAt db true t) →
    ∃ s₁ s₁', TreeLevel.addEntries haveObjects false l s = some s₁ ∧
      TreeLevel.addEntries haveObjects true l' s' = some s₁' ∧ TreeLevel.Beside E db kept root s₁ s₁' := by
  intro l l' s s' h hall hread
  induction hall generalizing s s' with
  | nil => exact ⟨s, s', rfl, rfl, h⟩
  | @cons a b l l' heq hall ih =>
    obtain ⟨parentPath, _⟩ := a
    obtain ⟨path, e⟩ := b
    obtain rfl : _ = e.unnamed := heq
    obtain ⟨t, hpath, he⟩ := hread (path, e) (List.mem_cons_self ..)
    obtain ⟨s₁, s₁', h₁, h₁', hbeside⟩ := @TreeLevel.Beside.addEntry E db kept root haveObjects s s' ht h parentPath path t e
      hpath he
    obtain ⟨s₂, s₂', h₂, h₂', hbeside⟩ := ih hbeside fun b hb => hread b (List.mem_cons_of_mem _ hb)
    exact ⟨s₂, s₂', by rw [TreeLevel.addEntries, h₁]; exact h₂, by rw [TreeLevel.addEntries, h₁']; exact h₂', hbeside⟩

/-- The same level has the same entries. -/
theorem forall₂_levelEntries : ∀ {level level' : List (ObjectId × Bytes)}, level'.map (·.1) = level.map (·.1) →
    List.Forall₂ (fun a b => a.2 = b.2.unnamed) (E.levelEntries db false level) (E.levelEntries db true level')
  | [], [], _ => .nil
  | (t, p) :: level, (t', p') :: level', h => by
    obtain ⟨rfl, hrest⟩ := List.cons.inj h
    have hfirst : List.Forall₂ (fun a b => a.2 = b.2.unnamed)
        ((E.entriesAt db false t').map fun e => (p, e)) ((E.entriesAt db true t').map fun e => (p', e)) := by
      rw [entriesAt_unnamed, List.map_map, List.forall₂_map_left_iff, List.forall₂_map_right_iff]
      exact List.forall₂_same.2 fun e _ => rfl
    exact List.rel_append hfirst (forall₂_levelEntries hrest)

theorem mem_levelEntries_path {level : List (ObjectId × Bytes)} {b : Bytes × TreeEntry}
    (h : b ∈ E.levelEntries db true level) : ∃ p ∈ level, p.2 = b.1 ∧ b.2 ∈ E.entriesAt db true p.1 := by
  induction level with
  | nil => cases h
  | cons p level ih =>
    have hcons : E.levelEntries db true (p :: level) =
        ((E.entriesAt db true p.1).map fun entry => (p.2, entry)) ++ E.levelEntries db true level := rfl
    rw [hcons, List.mem_append] at h
    rcases h with h | h
    · obtain ⟨e, he, rfl⟩ := List.mem_map.1 h
      exact ⟨p, List.mem_cons_self .., rfl, he⟩
    · obtain ⟨q, hq, hpath, he⟩ := ih h
      exact ⟨q, List.mem_cons_of_mem _ hq, hpath, he⟩

end Beside

/-- Two collections, without paths and with them, on the way through the
commits `sent`. -/
structure Collected.Beside (E : Env) (db : E.Db) (sent : List ObjectId) (c c' : Collected) : Prop where
  objects : c'.objects = c.objects
  present : ∀ x ∈ c.objects.order, (E.objectAt db x).isSome
  paths : ∀ x path, c'.blobPaths.get x = some path → E.SentPath db sent path x

theorem get_blobPaths_foldl {x : ObjectId} {path : Bytes} : ∀ (candidates : List (ObjectId × Bytes)) {c : Collected},
    (candidates.foldl (Collected.addBlob true) c).blobPaths.get x = some path →
    c.blobPaths.get x = some path ∨ (x, path) ∈ candidates
  | [], _, h => .inl h
  | p :: candidates, c, h => by
    rcases get_blobPaths_foldl candidates h with h | h
    · unfold Collected.addBlob at h
      dsimp only at h
      split at h
      · rw [SortedMap.get_insert] at h
        split at h
        · rename_i heq
          cases h
          exact .inr (by rw [heq]; exact List.mem_cons_self ..)
        · exact .inl h
      · exact .inl h
    · exact .inr (List.mem_cons_of_mem _ h)

theorem map_admitted {filter : FilterSpec} {candidates candidates' : List (ObjectId × Bytes)}
    (h : candidates'.map (·.1) = candidates.map (·.1)) :
    (admitted E db filter candidates').map (·.1) = (admitted E db filter candidates).map (·.1) := by
  cases filter with
  | none => exact h
  | blobNone => rfl
  | blobLimit limit =>
    have hfilter : ∀ l : List (ObjectId × Bytes), (admitted E db (.blobLimit limit) l).map (·.1) =
        (l.map (·.1)).filter fun x => (E.kindSize db x).2 ≤ limit := by
      intro l
      rw [admitted, List.filter_map]
      rfl
    rw [hfilter, hfilter, h]

theorem mem_of_mem_admitted {filter : FilterSpec} {candidates : List (ObjectId × Bytes)} {p : ObjectId × Bytes}
    (h : p ∈ admitted E db filter candidates) : p ∈ candidates := by
  cases filter with
  | none => exact h
  | blobNone => cases h
  | blobLimit limit => exact (List.mem_filter.1 h).1

section Walks

variable {sent kept : List ObjectId} {haveObjects : Finset ObjectId} {filter : FilterSpec}

/-- Two walks of the tree `root`, each with its level, that have collected
`kept`. -/
structure WalksBeside (E : Env) (db : E.Db) (sent kept : List ObjectId) (root : ObjectId)
    (s s' : Collected × List (ObjectId × Bytes)) : Prop extends Collected.Beside E db sent s.1 s'.1 where
  level : s'.2.map (·.1) = s.2.map (·.1)
  walk : ∀ p ∈ s'.2, (E.treeAt db p.1).isSome ∧ E.WalkPath db root p.2 p.1
  kept : ∀ x ∈ kept, x ∈ s.1.objects.order

/-- Both collect, `kept` with the rest. -/
def CollectBeside (E : Env) (db : E.Db) (sent kept : List ObjectId) (c c' : Collected) : Prop :=
  Collected.Beside E db sent c c' ∧ ∀ x ∈ kept, x ∈ c.objects.order

/-- Both walks take the same level. -/
theorem simulates_walkStep (hdb : Intact E db) (ht : TreesTyped E db) {c : ObjectId} {commit : CommitRef}
    (hc : E.commitAt db c = some commit) (hsent : c ∈ sent) {s s' : Collected × List (ObjectId × Bytes)}
    (h : WalksBeside E db sent kept commit.tree s s') :
    Prog.Simulates Db.handler (· = db)
      (Sum.LiftRel (WalksBeside E db sent kept commit.tree) (CollectBeside E db sent kept))
      (walkStep E haveObjects filter false s) (walkStep E haveObjects filter true s') := by
  obtain ⟨collected, level⟩ := s
  obtain ⟨collected', level'⟩ := s'
  by_cases hl : level = []
  · have hl' : level' = [] := List.map_eq_nil_iff.1 (h.level.trans (by rw [hl]; rfl))
    rw [hl, hl']
    exact .ret (.inr ⟨h.toBeside, h.kept⟩)
  · have hl' : level' ≠ [] := fun hnil => hl (List.map_eq_nil_iff.1 (h.level.symm.trans (by rw [hnil]; rfl)))
    have htyped' : ∀ t ∈ level'.map (·.1), (E.treeAt db t).isSome := by
      intro t hmem
      obtain ⟨p, hp, rfl⟩ := List.mem_map.1 hmem
      exact (h.walk p hp).1
    have htyped : ∀ t ∈ level.map (·.1), (E.treeAt db t).isSome := fun t hmem => htyped' t (by rw [h.level]; exact hmem)
    have hstart : TreeLevel.Beside E db kept commit.tree ⟨collected.objects, [], [], ∅⟩ ⟨collected'.objects, [], [], ∅⟩ :=
      ⟨h.objects, rfl, rfl, rfl, by simp, by simp, h.present, h.kept⟩
    obtain ⟨read, read', hread, hread', hbeside⟩ := hstart.addEntries haveObjects ht
      (forall₂_levelEntries h.level) fun b hb => by
        obtain ⟨p, hp, hpath, he⟩ := mem_levelEntries_path hb
        exact ⟨p.1, by rw [← hpath]; exact (h.walk p hp).2, he⟩
    have hblob' : ∀ x ∈ read'.candidates.map (·.1), E.IsBlob db x := by
      intro x hx
      obtain ⟨p, hp, rfl⟩ := List.mem_map.1 hx
      exact (hbeside.leaves p hp).1
    have hblob : ∀ x ∈ read.candidates.map (·.1), E.IsBlob db x := fun x hx =>
      hblob' x (by rw [hbeside.candidates]; exact hx)
    have hrun := run_walkStep_read filter hdb hl htyped hread hblob
    have hrun' := run_walkStep_read filter hdb hl' htyped' hread' hblob'
    intro s a s' hs hstep
    rw [hs] at hstep ⊢
    cases hrun.symm.trans hstep
    refine ⟨rfl, _, hrun', .inl ⟨⟨?_, fun x hx => ?_, fun x path hx => ?_⟩, hbeside.next, hbeside.subtrees, fun x hx => ?_⟩⟩
    · rw [objects_foldl_addBlob, objects_foldl_addBlob, map_admitted hbeside.candidates, hbeside.objects]
    · rcases (mem_foldl_addBlob false _ _).1 hx with hx | hx
      · exact hbeside.present x hx
      · obtain ⟨body, hb⟩ := hblob x ((mem_admitted hblob).1 hx).1
        rw [hb]
        rfl
    · rcases get_blobPaths_foldl _ hx with hx | hx
      · exact h.paths x path hx
      · exact (hbeside.leaves _ (mem_of_mem_admitted hx)).2.sent hc hsent
    · exact (mem_foldl_addBlob false _ _).2 (.inl (hbeside.kept x hx))

theorem simulates_walkTree (hdb : Intact E db) (ht : TreesTyped E db) (fuel : Nat) {id : ObjectId} {commit : CommitRef}
    (hc : E.commitAt db id = some commit) (hsent : id ∈ sent) {c c' : Collected}
    (h : CollectBeside E db sent kept c c') :
    Prog.Simulates Db.handler (· = db) (CollectBeside E db sent kept)
      (walkTree E fuel commit.tree c haveObjects filter false) (walkTree E fuel commit.tree c' haveObjects filter true) := by
  obtain ⟨hbeside, hkept⟩ := h
  refine Prog.Simulates.loop (fun s s' hs => simulates_walkStep hdb ht hc hsent hs) fuel ?_
  have htree := root_treeAt ht hc
  by_cases hnew : ¬ c.objects.contains commit.tree ∧ commit.tree ∉ haveObjects
  · rw [if_pos hnew, if_pos (by rw [hbeside.objects]; exact hnew)]
    refine ⟨⟨by rw [hbeside.objects], fun x hx => ?_, hbeside.paths⟩, rfl,
      List.forall_mem_singleton.2 ⟨htree, .root commit.tree⟩, fun x hx => OrderedOidSet.mem_insert.2 (.inl (hkept x hx))⟩
    rcases OrderedOidSet.mem_insert.1 hx with hx | rfl
    · exact hbeside.present x hx
    · exact objectAt_of_treeAt htree
  · rw [if_neg hnew, if_neg (by rw [hbeside.objects]; exact hnew)]
    exact ⟨hbeside, rfl, by simp, hkept⟩

theorem CollectBeside.insert {c c' : Collected} (h : CollectBeside E db sent kept c c') {id : ObjectId}
    (hid : (E.objectAt db id).isSome) :
    CollectBeside E db sent (id :: kept) { c with objects := c.objects.insert id }
      { c' with objects := c'.objects.insert id } := by
  obtain ⟨hbeside, hkept⟩ := h
  refine ⟨⟨by rw [hbeside.objects], fun x hx => ?_, hbeside.paths⟩, fun x hx => ?_⟩
  · rcases OrderedOidSet.mem_insert.1 hx with hx | rfl
    · exact hbeside.present x hx
    · exact hid
  · rcases List.mem_cons.1 hx with rfl | hx
    · exact OrderedOidSet.mem_insert.2 (.inr rfl)
    · exact OrderedOidSet.mem_insert.2 (.inl (hkept x hx))

variable (haveObjects filter) in
/-- Both collections take the same send list. -/
theorem simulates_collectAll (hdb : Intact E db) (ht : TreesTyped E db) (fuel : Nat)
    {records : SortedMap ObjectId CommitGraphRecord} (hrecords : RecordsRooted E db records) :
    ∀ (ids : List (ObjectId × Kind × Nat)) {kept : List ObjectId} {c c' : Collected}, CollectBeside E db sent kept c c' →
      (∀ entry ∈ ids, entry.1 ∈ sent ∧ (E.objectAt db entry.1).isSome) →
      Prog.Simulates Db.handler (· = db)
        (fun c c' => Collected.Beside E db sent c c' ∧
          ∀ x, x ∈ kept ∨ x ∈ ids.map (·.1) → x ∈ c.objects.order)
        (collectAll E fuel records haveObjects filter false ids c)
        (collectAll E fuel records haveObjects filter true ids c')
  | [], kept, c, c', h, _ => .ret ⟨h.1, fun x hx => h.2 x (hx.resolve_right (by simp))⟩
  | (id, kind, size) :: ids, kept, c, c', h, hids => by
    obtain ⟨hsent, hid⟩ := hids _ (List.mem_cons_self ..)
    have hrest : ∀ entry ∈ ids, entry.1 ∈ sent ∧ (E.objectAt db entry.1).isSome := fun entry hentry =>
      hids entry (List.mem_cons_of_mem _ hentry)
    have hmem : ∀ {c : Collected}, (∀ x, x ∈ id :: kept ∨ x ∈ ids.map (·.1) → x ∈ c.objects.order) →
        ∀ x, x ∈ kept ∨ x ∈ ((id, kind, size) :: ids).map (·.1) → x ∈ c.objects.order := by
      intro c hall x hx
      rw [List.map_cons, List.mem_cons] at hx
      rcases hx with hx | rfl | hx
      · exact hall x (.inl (List.mem_cons_of_mem _ hx))
      · exact hall x (.inl (List.mem_cons_self ..))
      · exact hall x (.inr hx)
    have hnext : ∀ {c c' : Collected}, CollectBeside E db sent (id :: kept) c c' →
        Prog.Simulates Db.handler (· = db)
          (fun c c' => Collected.Beside E db sent c c' ∧
            ∀ x, x ∈ kept ∨ x ∈ ((id, kind, size) :: ids).map (·.1) → x ∈ c.objects.order)
          (collectAll E fuel records haveObjects filter false ids c)
          (collectAll E fuel records haveObjects filter true ids c') := fun hc =>
      (simulates_collectAll hdb ht fuel hrecords ids hc hrest).mono fun _ _ hr => ⟨hr.1, hmem hr.2⟩
    cases kind with
    | commit =>
      cases hrecord : records.get id with
      | none =>
        intro s a s' _ hrun
        simp only [collectAll, hrecord] at hrun
        cases hrun
      | some record =>
        obtain ⟨generation, rootTree, parents⟩ := record
        obtain ⟨commit, hc, rfl⟩ := hrecords id _ hrecord
        rw [collectAll, collectAll, hrecord]
        exact (simulates_walkTree hdb ht fuel hc hsent (h.insert hid)).bind fun _ _ hr => hnext hr
    | tag => exact hnext (h.insert hid)
    | tree | blob =>
      intro s a s' _ hrun
      cases hrun

end Walks

/-! ## Two collections -/

/-- Metadata is answered for objects that are there. -/
theorem objectInfo_ok (hdb : Intact E db) {ids : List ObjectId} {infos : List (ObjectId × Kind × Nat)} {db' : E.Db}
    (hrun : (objectInfo E ids).run Db.handler db = some (.ok infos, db')) :
    db' = db ∧ infos.map (·.1) = ids ∧ ∀ x ∈ ids, (E.objectAt db x).isSome := by
  rw [objectInfo, Prog.run_bind_ok (run_sizes hdb ids)] at hrun
  obtain ⟨rfl, hall⟩ := Prog.forEach_inv (I := (· = db))
    (R := fun (entry : ObjectId × Option (Kind × Nat)) (info : ObjectId × Kind × Nat) => entry.2.isSome ∧ info.1 = entry.1)
    (fun entry s info s' hs hrun => by
      obtain ⟨id, size⟩ := entry
      cases size with
      | none => cases hrun
      | some ks =>
        cases hrun
        exact ⟨hs, rfl, rfl⟩) rfl hrun
  obtain ⟨hsome, hall⟩ := (List.forall₂_and_left _ _).1 hall
  refine ⟨rfl, ?_, fun x hx => ?_⟩
  · have heq : List.Forall₂ (fun x y => x = y) ids (infos.map (·.1)) :=
      List.forall₂_map_right_iff.2 ((List.forall₂_map_left_iff.1 hall).imp fun _ _ h => h.symm)
    rw [List.forall₂_eq_eq_eq] at heq
    exact heq.symm
  · have hx := hsome _ (List.mem_map_of_mem (f := fun x => (x, sizeAt E db' x)) hx)
    simpa [sizeAt] using hx

section Collect

variable {db₀ db' : E.Db} (hcodec : E.codec = .bytes) {fuel : Nat} {toSend haves : List ObjectId} {filter : FilterSpec}
  {collected : CollectedObjects}

include hcodec

/-- With paths, collection gives the same objects, and paths from the root
trees of the commits sent. -/
theorem collectInner_beside (h : TypedStore E db)
    (hrun : (collectInner E fuel toSend haves filter false).run Db.handler db = some (.ok collected, db')) :
    Reindexed E db db' ∧ ∃ collected', (collectInner E fuel toSend haves filter true).run Db.handler db =
        some (.ok collected', db') ∧
      collected'.objects = collected.objects ∧ (∀ x ∈ collected.objects, (E.objectAt db' x).isSome) ∧
      (∀ x ∈ toSend, x ∈ collected.objects) ∧
      ∀ x path, collected'.blobPaths.get x = some path → E.SentPath db' toSend path x := by
  obtain ⟨⟨fetched, records⟩, db₁, hfetch, hrun⟩ := Prog.run_bind_ok_inv hrun
  obtain ⟨roots, db₂, hroots, hrun⟩ := Prog.run_bind_ok_inv hrun
  obtain ⟨haveObjects, db₃, hexpand, hrun⟩ := Prog.run_bind_ok_inv hrun
  obtain ⟨classified, db₄, hinfo, hrun⟩ := Prog.run_bind_ok_inv hrun
  obtain ⟨⟨fetched', records'⟩, db₅, hfetch', hrun⟩ := Prog.run_bind_ok_inv hrun
  obtain ⟨checked, db₆, hcheck, hrun⟩ := Prog.run_bind_ok_inv hrun
  obtain ⟨c, db₇, hcollect, hret⟩ := Prog.run_bind_ok_inv hrun
  cases hret
  obtain ⟨h₁, hrooted⟩ := prefetchRecords_rooted hcodec (.refl h) (fun _ _ hr => by simp at hr) hfetch
  have h₂ := Prog.Keeps.ofExcept _ db₁ _ db₂ h₁ hroots
  have h₃ := keeps_readsObjects (readsObjects_expandHaves fuel roots filter) db₂ _ db₃ h₂ hexpand
  obtain ⟨rfl, hids, hpresent⟩ := objectInfo_ok h₃.toIntact hinfo
  obtain ⟨h₅, hrooted'⟩ := prefetchRecords_rooted hcodec h₃ hrooted hfetch'
  have h₆ : Reindexed E db db₆ := (Prog.Keeps.forEach (fun _ => .ofExcept _) _) db₅ _ db₆ h₅ hcheck
  have hobj : ∀ x, E.objectAt db₆ x = E.objectAt db₄ x := fun x =>
    (h₆.toSameData.objectAt x).trans (h₃.toSameData.objectAt x).symm
  have hrecords : RecordsRooted E db₆ records' := fun c r hr => h₆.toSameData.rootOf.2 (hrooted' c r hr)
  have hstart : CollectBeside E db₆ toSend [] ⟨.default, .empty⟩ ⟨.default, .empty⟩ :=
    ⟨⟨rfl, (fun _ hx => nomatch hx), (fun _ _ hx => by simp at hx)⟩, fun _ hx => nomatch hx⟩
  have hsim := simulates_collectAll haveObjects filter h₆.toIntact h₆.toTreesTyped fuel hrecords classified hstart
    fun entry hentry => by
      have hmem : entry.1 ∈ toSend := hids ▸ List.mem_map_of_mem hentry
      exact ⟨hmem, by rw [hobj]; exact hpresent _ hmem⟩
  obtain ⟨rfl, c', hcollect', hbeside, hall⟩ := hsim db₆ c db' rfl hcollect
  refine ⟨h₆, ⟨c'.objects.intoVec, c'.blobPaths⟩, ?_, congrArg OrderedOidSet.intoVec hbeside.objects, hbeside.present,
    fun x hx => hall x (.inr (by rw [hids]; exact hx)), hbeside.paths⟩
  refine (Prog.run_bind_ok hfetch).trans ((Prog.run_bind_ok hroots).trans ((Prog.run_bind_ok hexpand).trans ?_))
  refine (Prog.run_bind_ok hinfo).trans ((Prog.run_bind_ok hfetch').trans ((Prog.run_bind_ok hcheck).trans ?_))
  exact Prog.run_bind_ok hcollect'

end Collect

end Walker

/-! ## Two plans -/

theorem SameData.treeAt {db' : E.Db} (h : SameData db db') (t : ObjectId) : E.treeAt db' t = E.treeAt db t := by
  rw [Env.treeAt, Env.treeAt, h.objectAt]

theorem SameData.namesTo {db' : E.Db} (h : SameData db db') {root x : ObjectId} {names : List Bytes}
    (hnames : E.NamesTo db' root names x) : E.NamesTo db root names x := by
  induction hnames with
  | root => exact .root
  | entry _ ht he hm ih => exact .entry ih (by rwa [h.treeAt] at ht) he hm

theorem SameData.sentPath {db' : E.Db} (h : SameData db db') {sent sent' : List ObjectId} (hsub : ∀ c ∈ sent, c ∈ sent')
    {path : Bytes} {x : ObjectId} (hpath : E.SentPath db' sent path x) : E.SentPath db sent' path x := by
  obtain ⟨c, hc, commit, names, hcommit, hnames, rfl⟩ := hpath
  exact ⟨c, hsub c hc, commit, names, by rwa [h.commitAt] at hcommit, h.namesTo hnames, rfl⟩

namespace UploadPack

open Walker

/-- Directly wanted objects are there. -/
theorem partitionWants_ok (hdb : Intact E db) {wants : List ObjectId} {partition : WantPartition} {db' : E.Db}
    (hrun : (partitionWants E wants).run Db.handler db = some (.ok partition, db')) :
    db' = db ∧ ∀ x ∈ partition.direct, (E.objectAt db x).isSome := by
  have hpresent := partitionWants_present hdb hrun
  rw [run_partitionWants hdb hpresent] at hrun
  cases hrun
  exact ⟨rfl, fun x hx => hpresent x (List.mem_of_mem_filter (List.mem_eraseDups.1 hx))⟩

/-- `plan'` sends what `plan` sends, in an order of its own. -/
structure Rescheduled (E : Env) (db : E.Db) (plan plan' : PackPlan) : Prop where
  common : plan'.common = plan.common
  perm : (plan'.objects.map (·.oid)).Perm (plan.objects.map (·.oid))
  /-- What has no delta group comes first, in the order it was walked in. -/
  order : ∃ fixed blobs, plan'.objects = plainSchedule fixed ++ blobs ∧ fixed.Sublist (plan.objects.map (·.oid)) ∧
    ∀ o ∈ blobs, o.deltaGroup.isSome
  /-- A delta group is the hash of a path to a blob. -/
  grouped : ∀ o ∈ plan'.objects, ∀ group, o.deltaGroup = some group → E.IsBlob db o.oid ∧
    ∃ path, group = nameHash path ∧ E.SentPath db (plan.objects.map (·.oid)) path o.oid

/-- Where discovery and collection are run, every path recorded is one from
the root tree of a commit that is sent. -/
def RecordsPaths (E : Env) (fuel : Nat) (wants haves : List ObjectId) (filter : FilterSpec) (db db' : E.Db)
    (plan : PackPlan) : Prop :=
  ∀ partition, E.run (partitionWants E wants) db = some (.ok partition, db) → partition.history ≠ [] →
    ∃ selection db₁ collected, E.run (selectCommits E fuel partition.history haves) db = some (.ok selection, db₁) ∧
      E.run (collectWithPaths E fuel selection.toSend selection.common filter) db₁ = some (.ok collected, db') ∧
      ∀ x path, collected.blobPaths.get x = some path → E.SentPath db (plan.objects.map (·.oid)) path x

theorem grouped_schedule {collected : CollectedObjects} {scheduled : List ScheduledObject}
    (h : OfsSchedule E db collected scheduled) {o : ScheduledObject} (ho : o ∈ scheduled) {group : UInt32}
    (hgroup : o.deltaGroup = some group) :
    E.IsBlob db o.oid ∧ ∃ path, group = nameHash path ∧ collected.blobPaths.get o.oid = some path := by
  obtain ⟨fixed, blobs, rfl, -, hblobs⟩ := h.split
  rcases List.mem_append.1 ho with ho | ho
  · obtain ⟨x, -, rfl⟩ := List.mem_map.1 ho
    cases hgroup
  · obtain ⟨hblob, path, hpath, heq⟩ := hblobs o ho
    cases hgroup.symm.trans heq
    exact ⟨hblob, path, rfl, hpath⟩

end UploadPack

open UploadPack Walker in
/-- **Offset deltas do not change what is sent.** Where every commit has a record
and planning succeeds without offset deltas, it succeeds with them, with the
same common commits and the same objects, and writes nothing in either case. Objects without a delta group keep their
order and come first; those with one are blobs, grouped by a path from the
root tree of a commit that is sent, and all recorded paths are such. -/
theorem planPack_ofsDeltas (hcodec : E.codec = .bytes) (h : TypedStore E db) (hall : AllRecorded E db) {fuel : Nat}
    {wants haves : List ObjectId} {filter : FilterSpec} {plan : PackPlan} {db' : E.Db}
    (hrun : E.run (planPack E fuel wants haves filter false) db = some (.ok plan, db')) :
    db' = db ∧ ∃ plan', E.run (planPack E fuel wants haves filter true) db = some (.ok plan', db') ∧ Rescheduled E db plan plan' ∧
      RecordsPaths E fuel wants haves filter db db' plan := by
  refine ⟨keeps_planPack (keeps_getCommitInfo_recorded h.toIntact hall) _ _ _ _ _ db _ db' rfl hrun, ?_⟩
  obtain ⟨partition, db₁, hpartition, hplan⟩ := Prog.run_bind_ok_inv hrun
  clear hrun
  obtain ⟨rfl, hdirect⟩ := partitionWants_ok h.toIntact hpartition
  by_cases hempty : partition.history.isEmpty = true
  · rw [if_pos hempty] at hplan
    cases hplan
    refine ⟨_, (Prog.run_bind_ok hpartition).trans (by rw [if_pos hempty]; rfl), ⟨rfl, .refl _, ?_, ?_⟩, ?_⟩
    · refine ⟨partition.direct, [], (List.append_nil _).symm, ?_, by simp⟩
      rw [map_oid_plainSchedule]
    · intro o ho group hgroup
      obtain ⟨x, -, rfl⟩ := List.mem_map.1 ho
      cases hgroup
    · intro partition' hpartition' hne
      cases hpartition.symm.trans hpartition'
      exact absurd (List.isEmpty_iff.1 hempty) hne
  · rw [if_neg hempty] at hplan
    obtain ⟨selection, db₂, hselect, hplan⟩ := Prog.run_bind_ok_inv hplan
    obtain ⟨objects, db₃, hcollect, hplan⟩ := Prog.run_bind_ok_inv hplan
    obtain ⟨collected, db₄, hinner, hret⟩ := Prog.run_bind_ok_inv hcollect
    cases hret
    cases hplan
    have hdb₂ : Reindexed E db₁ db₂ := keeps_selectCommits (keeps_getCommitInfo hcodec) fuel _ _ _ _ _ (.refl h) hselect
    obtain ⟨hdb', collected', hinner', hobjects, hpresent, hsent, hpaths⟩ :=
      collectInner_beside hcodec hdb₂.toTypedStore hinner
    have hsame : SameData db₁ db' := (hdb₂.trans hdb').toSameData
    have hsent' : ∀ c ∈ selection.toSend, c ∈ (plainSchedule (addDirect partition.direct collected.objects)).map (·.oid) := by
      intro c hc
      rw [map_oid_plainSchedule, mem_addDirect]
      exact .inl (hsent c hc)
    have hall : ∀ x ∈ addDirect partition.direct collected'.objects, (E.objectAt db' x).isSome := by
      intro x hx
      rcases (mem_addDirect _ _).1 hx with hx | hx
      · exact hpresent x (by rwa [hobjects] at hx)
      · rw [hsame.objectAt]
        exact hdirect x hx
    obtain ⟨scheduled, hscheduled, hschedule⟩ :=
      @run_scheduleForOfs E db' hdb'.toIntact ⟨addDirect partition.direct collected'.objects, collected'.blobPaths⟩ hall
    refine ⟨⟨scheduled, selection.common⟩, ?_, ⟨rfl, ?_, ?_, ?_⟩, ?_⟩
    · refine (Prog.run_bind_ok hpartition).trans ?_
      rw [if_neg hempty]
      exact (Prog.run_bind_ok hselect).trans ((Prog.run_bind_ok hinner').trans (Prog.run_bind_ok hscheduled))
    · rw [map_oid_plainSchedule, ← hobjects]
      exact hschedule.perm
    · obtain ⟨fixed, blobs, heq, hsub, hblobs⟩ := hschedule.split
      refine ⟨fixed, blobs, heq, ?_, fun o ho => ?_⟩
      · rw [map_oid_plainSchedule, ← hobjects]
        exact hsub
      · obtain ⟨-, path, -, hgroup⟩ := hblobs o ho
        rw [hgroup]
        rfl
    · intro o ho group hgroup
      obtain ⟨⟨body, hblob⟩, path, hpath, hget⟩ := grouped_schedule hschedule ho hgroup
      rw [hsame.objectAt] at hblob
      exact ⟨⟨body, hblob⟩, path, hpath, hsame.sentPath hsent' (hpaths o.oid path hget)⟩
    · intro partition' hpartition' _
      cases hpartition.symm.trans hpartition'
      exact ⟨selection, db₂, collected', hselect, hinner', fun x path hx => hsame.sentPath hsent' (hpaths x path hx)⟩

namespace Sample

theorem typedStore : TypedStore env Sample.db where
  toIntact := intact_storeOf
  toTreesTyped := typed
  roots c v r hv hr := by
    obtain ⟨r', hr', commit, hc, -, htree, -⟩ := correct_db c v trivial hv
    cases hr.symm.trans hr'
    exact ⟨commit, hc, htree⟩

theorem planned_db : (env.run (UploadPack.planPack env 20 [tagId, blobId] [rootId] .none false) Sample.db).map
    (fun x => x.1.toOption.isSome) = some true := by decide +kernel

end Sample

/-- Asking for a tag and its blob. -/
theorem planPack_ofsDeltas_sample :
    ∃ plan plan' db', Sample.env.run (UploadPack.planPack Sample.env 20 [Sample.tagId, Sample.blobId] [Sample.rootId] .none
        false) Sample.db = some (.ok plan, db') ∧
      Sample.env.run (UploadPack.planPack Sample.env 20 [Sample.tagId, Sample.blobId] [Sample.rootId] .none true)
        Sample.db = some (.ok plan', db') ∧
      UploadPack.Rescheduled Sample.env Sample.db plan plan' := by
  obtain ⟨⟨x, db'⟩, hrun, hok⟩ := Option.map_eq_some_iff.1 Sample.planned_db
  cases x with
  | error e => cases hok
  | ok plan =>
    obtain ⟨-, plan', hrun', hplan', -⟩ := planPack_ofsDeltas rfl Sample.typedStore Sample.indexed.allRecorded hrun
    exact ⟨plan, plan', db', hrun, hrun', hplan'⟩

/-! A repository whose root has a directory without a name. -/

namespace Sample

def outerId : ObjectId := sha1Id 0x29d8d0779161d5d14df3e431ea6d4c85753f0434
def namelessId : ObjectId := sha1Id 0xd8b45857042a536ebe6f7672edddb92922a4132b

def outerBody : Bytes := ascii "40000 \x00" ++ treeId.bytes
def namelessBody : Bytes := ascii
  "tree 29d8d0779161d5d14df3e431ea6d4c85753f0434\nauthor m <m@m> 0 +0000\ncommitter m <m@m> 0 +0000\n\nn\n"

def namelessTable : ParseTable where
  commits := [(namelessBody, ⟨outerId, []⟩)]
  tags := []
  trees := [(treeBody, [⟨.blob, ascii "a", blobId⟩]), (outerBody, [⟨.tree, [], treeId⟩])]
  commits_sha1 := List.forall_mem_singleton.2 ⟨rfl, by simp⟩

def namelessEnv : Env := namelessTable.env 1000

def namelessObjects : List (ObjectId × Kind × Bytes) :=
  [(blobId, .blob, blobBody), (treeId, .tree, treeBody), (outerId, .tree, outerBody), (namelessId, .commit, namelessBody)]

def nameless : namelessEnv.Db := namelessEnv.storeOf namelessObjects []

theorem objectAt_nameless (x : ObjectId) : namelessEnv.objectAt nameless x = namelessObjects.lookup x := objectAt_storeOf x

theorem commitAt_nameless {c : ObjectId} {commit : CommitRef} (h : namelessEnv.commitAt nameless c = some commit) :
    c = namelessId ∧ commit = ⟨outerId, []⟩ := by
  obtain ⟨body, ho, hp⟩ := commitAt_eq_some.1 h
  have hmem : (c, Kind.commit, body) ∈ namelessObjects := mem_of_objectAt ho
  simp only [namelessObjects, List.mem_cons, Prod.mk.injEq, List.not_mem_nil, reduceCtorEq] at hmem
  obtain ⟨rfl, rfl⟩ : c = namelessId ∧ body = namelessBody := by tauto
  refine ⟨rfl, ?_⟩
  have hparse : namelessEnv.gix.commitFromBytes namelessBody namelessId.kind = some ⟨outerId, []⟩ := by
    simp [namelessEnv, ParseTable.env, ParseTable.gix, namelessId, sha1Id, namelessTable, List.lookup_cons]
  exact (Option.some.inj (hparse.symm.trans hp)).symm

theorem objectAt_outer : namelessEnv.objectAt nameless outerId = some (.tree, outerBody) := by
  rw [objectAt_nameless]
  rfl

theorem objectAt_inner : namelessEnv.objectAt nameless treeId = some (.tree, treeBody) := by
  rw [objectAt_nameless]
  rfl

theorem treeAt_outer : namelessEnv.treeAt nameless outerId = some [⟨.tree, [], treeId⟩] := by
  have hne : (outerBody == treeBody) = false := by decide +kernel
  refine treeAt_eq_some.2 ⟨outerBody, objectAt_outer, ?_⟩
  simp [namelessEnv, ParseTable.env, ParseTable.gix, outerId, sha1Id, namelessTable, List.lookup_cons, hne]

theorem treeAt_inner : namelessEnv.treeAt nameless treeId = some [⟨.blob, ascii "a", blobId⟩] := by
  refine treeAt_eq_some.2 ⟨treeBody, objectAt_inner, ?_⟩
  simp [namelessEnv, ParseTable.env, ParseTable.gix, treeId, sha1Id, namelessTable, List.lookup_cons]

theorem tree_nameless {t : ObjectId} {body : Bytes} (h : namelessEnv.objectAt nameless t = some (.tree, body)) :
    t = treeId ∨ t = outerId := by
  have hmem : (t, Kind.tree, body) ∈ namelessObjects := mem_of_objectAt h
  simp only [namelessObjects, List.mem_cons, Prod.mk.injEq, List.not_mem_nil, reduceCtorEq] at hmem
  tauto

theorem entry_nameless {t : ObjectId} {entries : List TreeEntryRef} {e : TreeEntryRef}
    (h : namelessEnv.treeAt nameless t = some entries) (he : e ∈ entries) :
    t = treeId ∧ e = ⟨.blob, ascii "a", blobId⟩ ∨ t = outerId ∧ e = ⟨.tree, [], treeId⟩ := by
  obtain ⟨body, ho, -⟩ := treeAt_eq_some.1 h
  rcases tree_nameless ho with rfl | rfl
  · cases treeAt_inner.symm.trans h
    exact .inl ⟨rfl, List.mem_singleton.1 he⟩
  · cases treeAt_outer.symm.trans h
    exact .inr ⟨rfl, List.mem_singleton.1 he⟩

theorem typedStore_nameless : TypedStore namelessEnv nameless where
  toIntact := intact_storeOf
  decodes t body h := by
    rcases tree_nameless h with rfl | rfl
    · rw [treeAt_inner]
      rfl
    · rw [treeAt_outer]
      rfl
  root c commit h := by
    obtain ⟨rfl, rfl⟩ := commitAt_nameless h
    exact ⟨_, objectAt_outer⟩
  subtree t entries h e he hm := by
    rcases entry_nameless h he with ⟨-, rfl⟩ | ⟨-, rfl⟩
    · cases hm
    · exact ⟨_, objectAt_inner⟩
  leaf t entries h e he hm _ := by
    rcases entry_nameless h he with ⟨-, rfl⟩ | ⟨-, rfl⟩
    · exact ⟨blobBody, by rw [objectAt_nameless]; rfl⟩
    · exact absurd rfl hm
  roots c v r hv _ := by
    cases hv

/-- The blob is reached by one way only. -/
theorem namesTo_nameless {names : List Bytes} (h : namelessEnv.NamesTo nameless outerId names blobId) :
    names = [[], ascii "a"] := by
  have hstart : ∀ {names : List Bytes} {x : ObjectId}, namelessEnv.NamesTo nameless outerId names x →
      (x = outerId → names = []) ∧ (x = treeId → names = [[]]) ∧ (x = blobId → names = [[], ascii "a"]) := by
    intro names x hnames
    induction hnames with
    | root => exact ⟨fun _ => rfl, fun h => absurd h (by decide +kernel), fun h => absurd h (by decide +kernel)⟩
    | @entry names t entries e _ ht he _ ih =>
      rcases entry_nameless ht he with ⟨rfl, rfl⟩ | ⟨rfl, rfl⟩
      · refine ⟨fun h => absurd h (by decide +kernel), fun h => absurd h (by decide +kernel), fun _ => ?_⟩
        rw [ih.2.1 rfl]
        rfl
      · refine ⟨fun h => absurd h (by decide +kernel), fun _ => ?_, fun h => absurd h (by decide +kernel)⟩
        rw [ih.1 rfl]
        rfl
  exact (hstart h).2.2 rfl

/-- What is collected for the commit, and the path of the blob. -/
def namelessPath : namelessEnv.Prog WalkError (List ObjectId × Option Bytes) := do
  let selection ← Walker.selectCommits namelessEnv 20 [namelessId] []
  let collected ← Walker.collectWithPaths namelessEnv 20 selection.toSend selection.common .none
  pure (selection.toSend, collected.blobPaths.get blobId)

theorem run_namelessPath : ∃ db', namelessEnv.run namelessPath nameless = some (.ok ([namelessId], some (ascii "a")), db') :=
  Prog.exists_ok (by decide +kernel)

theorem planned_nameless : (namelessEnv.run (UploadPack.planPack namelessEnv 20 [namelessId] [] .none false) nameless).map
    (fun x => x.1.toOption.isSome) = some true := by decide +kernel

end Sample

open Sample in
/-- In a directory without a name, the recorded path of a file is its name
alone: the slash in front of it is missing. -/
theorem planPack_ofsDeltas_nameless :
    TypedStore namelessEnv nameless ∧
      (∃ plan db', namelessEnv.run (UploadPack.planPack namelessEnv 20 [namelessId] [] .none false) nameless =
        some (.ok plan, db')) ∧
      ∃ selection db₁ collected db₂ path,
        namelessEnv.run (Walker.selectCommits namelessEnv 20 [namelessId] []) nameless = some (.ok selection, db₁) ∧
        namelessEnv.run (Walker.collectWithPaths namelessEnv 20 selection.toSend selection.common .none) db₁ =
          some (.ok collected, db₂) ∧
        collected.blobPaths.get blobId = some path ∧
        ¬ ∃ c ∈ selection.toSend, ∃ commit names, namelessEnv.commitAt nameless c = some commit ∧
          namelessEnv.NamesTo nameless commit.tree names blobId ∧ path = slashJoin names := by
  obtain ⟨⟨x, db'⟩, hplan, hok⟩ := Option.map_eq_some_iff.1 planned_nameless
  obtain ⟨db₂, hpath⟩ := run_namelessPath
  obtain ⟨selection, db₁, hselect, hpath⟩ := Prog.run_bind_ok_inv hpath
  obtain ⟨collected, db₃, hcollect, hret⟩ := Prog.run_bind_ok_inv hpath
  have hvalues := Except.ok.inj (Prod.mk.inj (Option.some.inj hret)).1
  refine ⟨typedStore_nameless, ?_, selection, db₁, collected, db₃, ascii "a", hselect, hcollect,
    (Prod.mk.inj hvalues).2, fun hreal => ?_⟩
  · cases x with
    | error e => cases hok
    | ok plan => exact ⟨plan, db', hplan⟩
  · obtain ⟨c, -, commit, names, hc, hnames, heq⟩ := hreal
    obtain ⟨-, rfl⟩ := commitAt_nameless hc
    rw [namesTo_nameless hnames] at heq
    revert heq
    decide

end Miscreant
