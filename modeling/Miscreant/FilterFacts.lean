/-
A filter removes the filtered blobs, and nothing else.

The filtered walk is run beside the unfiltered one. What it has collected is
always what the other has, less what the filter drops (`Collected.Filtered`):
trees are never dropped, so both read the same levels; a dropped blob may be
a candidate again and again, but is turned down each time. The have-sets may
differ, though not on what passes (`HaveSet.agree`).
-/
import Miscreant.CollectFacts

namespace Miscreant

open Lib Walker

variable {E : Env} {db : E.Db}

/-- What a filter lets through: everything but the blobs it drops. -/
def Env.passes (E : Env) (db : E.Db) (filter : FilterSpec) (x : ObjectId) : Bool :=
  match filter with
  | .none => true
  | .blobNone => (E.kindSize db x).1 ≠ .blob
  | .blobLimit limit => ¬ ((E.kindSize db x).1 = .blob ∧ limit < (E.kindSize db x).2)

theorem Env.passes_of_kind {filter : FilterSpec} {x : ObjectId} (h : (E.kindSize db x).1 ≠ .blob) :
    E.passes db filter x = true := by
  cases filter <;> simp [Env.passes, h]

theorem Env.passes_of_tree {filter : FilterSpec} {x : ObjectId} (h : (E.treeAt db x).isSome) :
    E.passes db filter x = true := by
  obtain ⟨entries, he⟩ := Option.isSome_iff_exists.1 h
  obtain ⟨body, ho, -⟩ := treeAt_eq_some.1 he
  exact Env.passes_of_kind (by simp [Env.kindSize, ho])

theorem kindSize_blob {x : ObjectId} (h : E.IsBlob db x) : (E.kindSize db x).1 = .blob := by
  obtain ⟨body, ho⟩ := h
  simp [Env.kindSize, ho]

/-! ## Ordered sets -/

namespace OrderedOidSet

variable {keep : ObjectId → Bool} {s s' : OrderedOidSet} {x : ObjectId}

theorem contains_filtered (h : s'.order = s.order.filter keep) (hx : keep x = true) :
    s'.contains x = s.contains x := by
  simp [contains, h, hx]

/-- Inserting what passes into what passes. -/
theorem insert_kept (h : s'.order = s.order.filter keep) (hx : keep x = true) :
    (s'.insert x).order = (s.insert x).order.filter keep := by
  unfold insert
  by_cases hmem : x ∈ s.order
  · rw [dif_pos hmem, dif_pos (by rw [h]; exact List.mem_filter.2 ⟨hmem, hx⟩)]
    exact h
  · rw [dif_neg hmem, dif_neg (by rw [h]; exact fun hin => hmem (List.mem_filter.1 hin).1)]
    simp [h, hx]

theorem insert_dropped (h : s'.order = s.order.filter keep) (hx : keep x = false) :
    s'.order = (s.insert x).order.filter keep := by
  unfold insert
  split
  · exact h
  · simp [h, hx]

theorem foldl_insert_filter : ∀ (xs : List ObjectId) {s s' : OrderedOidSet}, s'.order = s.order.filter keep →
    ((xs.filter keep).foldl insert s').order = (xs.foldl insert s).order.filter keep
  | [], s, s', h => h
  | x :: xs, s, s', h => by
    cases hx : keep x with
    | true =>
      rw [List.filter_cons_of_pos hx, List.foldl_cons, List.foldl_cons]
      exact foldl_insert_filter xs (insert_kept h hx)
    | false =>
      rw [List.filter_cons_of_neg (by simp [hx]), List.foldl_cons]
      exact foldl_insert_filter xs (insert_dropped h hx)

end OrderedOidSet

namespace Walker

/-! ## Have-sets -/

theorem HaveSet.mem_or_blob {filter : FilterSpec} {roots : List ObjectId} {haveObjects : Finset ObjectId}
    (h : HaveSet E db filter roots haveObjects) {r x : ObjectId} (hr : r ∈ roots) (hin : E.InTree db r x) :
    x ∈ haveObjects ∨ filter = .blobNone ∧ E.IsBlob db x := by
  induction hin with
  | refl => exact .inl (h.roots r hr)
  | tail _ hyz ih =>
    rcases ih with hy | ⟨-, hb⟩
    · exact h.closed _ hy _ hyz
    · exact absurd hyz (Env.IsBlob.not_entry hb)

/-- The have-sets of two filters agree on what passes. -/
theorem HaveSet.agree {filter : FilterSpec} {roots : List ObjectId} {haveObjects haveObjects' : Finset ObjectId}
    (h : HaveSet E db .none roots haveObjects) (h' : HaveSet E db filter roots haveObjects') {x : ObjectId}
    (hx : E.passes db filter x = true) : x ∈ haveObjects' ↔ x ∈ haveObjects := by
  rw [h.mem_iff (by decide)]
  refine ⟨h'.sound x, fun ⟨r, hr, hin⟩ => ?_⟩
  rcases h'.mem_or_blob hr hin with hmem | ⟨rfl, hb⟩
  · exact hmem
  · simp [Env.passes, kindSize_blob hb] at hx

/-! ## A level -/

section Level

variable {keep : ObjectId → Bool} {haveObjects haveObjects' : Finset ObjectId}

/-- The same level, read with a filter. -/
structure TreeLevel.Filtered (keep : ObjectId → Bool) (s s' : TreeLevel) : Prop where
  objects : s'.objects.order = s.objects.order.filter keep
  next : s'.next = s.next
  candidates : s'.candidates.filter (fun p => keep p.1) = s.candidates.filter fun p => keep p.1
  seen : ∀ x, keep x = true → (x ∈ s'.candidateSeen ↔ x ∈ s.candidateSeen)

/-- `s` with a new candidate. -/
def TreeLevel.nominate (s : TreeLevel) (x : ObjectId) : TreeLevel :=
  { s with candidates := s.candidates ++ [(x, [])], candidateSeen := insert x s.candidateSeen }

theorem TreeLevel.addEntry_leaf (s : TreeLevel) (parentPath : Bytes) (x : ObjectId) (name : Option Bytes) :
    s.addEntry haveObjects false parentPath (.leaf x name) = some
      (if x ∉ haveObjects ∧ ¬ s.objects.contains x ∧ x ∉ s.candidateSeen then s.nominate x else s) := by
  unfold TreeLevel.addEntry
  dsimp only
  split
  · rfl
  · rfl

theorem TreeLevel.addEntry_subtree (s : TreeLevel) (parentPath : Bytes) (x : ObjectId) (name : Option Bytes) :
    s.addEntry haveObjects false parentPath (.subtree x name) = some
      (if ¬ s.objects.contains x ∧ x ∉ haveObjects then
        { s with objects := s.objects.insert x, next := s.next ++ [(x, [])] } else s) := by
  unfold TreeLevel.addEntry
  dsimp only
  split
  · rfl
  · rfl

theorem TreeLevel.Filtered.nominate_dropped {s s' : TreeLevel} (h : TreeLevel.Filtered keep s s') {x : ObjectId}
    (hx : keep x = false) : TreeLevel.Filtered keep (s.nominate x) s' ∧ TreeLevel.Filtered keep s (s'.nominate x) := by
  have hne : ∀ y, keep y = true → y ≠ x := by
    rintro y hy rfl
    rw [hx] at hy
    cases hy
  refine ⟨⟨h.objects, h.next, ?_, fun y hy => ?_⟩, ⟨h.objects, h.next, ?_, fun y hy => ?_⟩⟩
  · simp [TreeLevel.nominate, hx, h.candidates]
  · simp [TreeLevel.nominate, hne y hy, h.seen y hy]
  · simp [TreeLevel.nominate, hx, h.candidates]
  · simp [TreeLevel.nominate, hne y hy, h.seen y hy]

theorem TreeLevel.Filtered.nominate {s s' : TreeLevel} (h : TreeLevel.Filtered keep s s') (x : ObjectId) :
    TreeLevel.Filtered keep (s.nominate x) (s'.nominate x) := by
  refine ⟨h.objects, h.next, ?_, fun y hy => ?_⟩
  · simp only [TreeLevel.nominate, List.filter_append, h.candidates]
  · simp only [TreeLevel.nominate, Finset.mem_insert, h.seen y hy]

/-- One entry: a subtree is taken by both or by neither, a blob that passes
is a candidate of both or of neither. -/
theorem TreeLevel.Filtered.addEntry {s s' : TreeLevel} (h : TreeLevel.Filtered keep s s')
    (hhave : ∀ x, keep x = true → (x ∈ haveObjects' ↔ x ∈ haveObjects)) {entry : TreeEntry}
    (hsubtree : ∀ x name, entry = .subtree x name → keep x = true) (parentPath : Bytes) :
    ∃ t t', s.addEntry haveObjects false parentPath entry = some t ∧
      s'.addEntry haveObjects' false parentPath entry = some t' ∧ TreeLevel.Filtered keep t t' := by
  cases entry with
  | subtree x name =>
    have hx := hsubtree x name rfl
    rw [TreeLevel.addEntry_subtree, TreeLevel.addEntry_subtree]
    refine ⟨_, _, rfl, rfl, ?_⟩
    simp only [OrderedOidSet.contains_filtered h.objects hx, hhave x hx]
    split
    · exact ⟨OrderedOidSet.insert_kept h.objects hx, by simp only [h.next], h.candidates, h.seen⟩
    · exact h
  | leaf x name =>
    rw [TreeLevel.addEntry_leaf, TreeLevel.addEntry_leaf]
    refine ⟨_, _, rfl, rfl, ?_⟩
    cases hx : keep x with
    | true =>
      simp only [OrderedOidSet.contains_filtered h.objects hx, hhave x hx, h.seen x hx]
      split
      · exact h.nominate x
      · exact h
    | false =>
      -- Whether either takes it does not matter.
      have hright : ∀ {t : TreeLevel}, TreeLevel.Filtered keep t s' → TreeLevel.Filtered keep t
          (if x ∉ haveObjects' ∧ ¬ s'.objects.contains x ∧ x ∉ s'.candidateSeen then s'.nominate x else s') := by
        intro t h
        split
        · exact (h.nominate_dropped hx).2
        · exact h
      split
      · exact hright (h.nominate_dropped hx).1
      · exact hright h

theorem TreeLevel.Filtered.addEntries (hhave : ∀ x, keep x = true → (x ∈ haveObjects' ↔ x ∈ haveObjects)) :
    ∀ {entries : List (Bytes × TreeEntry)} {s s' : TreeLevel}, TreeLevel.Filtered keep s s' →
      (∀ p ∈ entries, ∀ x name, p.2 = .subtree x name → keep x = true) →
      ∃ t t', TreeLevel.addEntries haveObjects false entries s = some t ∧
        TreeLevel.addEntries haveObjects' false entries s' = some t' ∧ TreeLevel.Filtered keep t t'
  | [], s, s', h, _ => ⟨s, s', rfl, rfl, h⟩
  | (parentPath, entry) :: entries, s, s', h, hsubtrees => by
    obtain ⟨t, t', ht, ht', h₁⟩ := h.addEntry hhave (hsubtrees _ (List.mem_cons_self ..)) parentPath
    obtain ⟨u, u', hu, hu', h₂⟩ := TreeLevel.Filtered.addEntries hhave h₁ fun p hp =>
      hsubtrees p (List.mem_cons_of_mem _ hp)
    exact ⟨u, u', by rw [TreeLevel.addEntries, ht]; exact hu, by rw [TreeLevel.addEntries, ht']; exact hu', h₂⟩

end Level

/-! ## The walk -/

section Walk

variable {filter : FilterSpec} {haveObjects haveObjects' : Finset ObjectId}

/-- What the filtered walk has collected is what the other has, less what the
filter drops. -/
def Collected.Filtered (keep : ObjectId → Bool) (c c' : Collected) : Prop :=
  c'.objects.order = c.objects.order.filter keep

/-- A filter admits the candidates that pass. -/
theorem admitted_eq {candidates : List (ObjectId × Bytes)} (hblob : ∀ x ∈ candidates.map (·.1), E.IsBlob db x) :
    admitted E db filter candidates = candidates.filter fun p => E.passes db filter p.1 := by
  have hkind : ∀ p ∈ candidates, (E.kindSize db p.1).1 = .blob := fun p hp => kindSize_blob (hblob _ (List.mem_map_of_mem hp))
  cases filter with
  | none => simp [admitted, Env.passes]
  | blobNone =>
    refine (List.filter_eq_nil_iff.2 fun p hp => ?_).symm
    simp [Env.passes, hkind p hp]
  | blobLimit limit =>
    refine List.filter_congr fun p hp => ?_
    simp [Env.passes, hkind p hp]

/-- Admitting the candidates of a level with and without the filter. -/
theorem Collected.Filtered.admitBlobs {s s' : TreeLevel} (h : TreeLevel.Filtered (E.passes db filter) s s')
    (hblob : ∀ x ∈ s.candidates.map (·.1), E.IsBlob db x) (hblob' : ∀ x ∈ s'.candidates.map (·.1), E.IsBlob db x)
    {c c' : Collected} :
    Collected.Filtered (E.passes db filter)
      ((admitted E db .none s.candidates).foldl (Collected.addBlob false) { c with objects := s.objects })
      ((admitted E db filter s'.candidates).foldl (Collected.addBlob false) { c' with objects := s'.objects }) := by
  have hfold := OrderedOidSet.foldl_insert_filter (s.candidates.map (·.1)) h.objects
  have hmap : (s'.candidates.filter fun p => E.passes db filter p.1).map (·.1) =
      (s.candidates.map (·.1)).filter (E.passes db filter) := by
    rw [h.candidates, List.filter_map]
    rfl
  have hnone : s.candidates.filter (fun p => E.passes db .none p.1) = s.candidates :=
    List.filter_eq_self.2 fun _ _ => rfl
  unfold Collected.Filtered
  rw [objects_foldl_addBlob, objects_foldl_addBlob, admitted_eq hblob, admitted_eq hblob', hnone, hmap]
  exact hfold

variable (hdb : Intact E db) (ht : TreesTyped E db)
  (hhave : ∀ x, E.passes db filter x = true → (x ∈ haveObjects' ↔ x ∈ haveObjects))

include hdb ht hhave

/-- A turn of the two walks. -/
theorem filtered_walkStep {c c' : Collected} {level : List (ObjectId × Bytes)}
    (h : Collected.Filtered (E.passes db filter) c c') (htyped : ∀ t ∈ level.map (·.1), (E.treeAt db t).isSome) :
    Prog.Simulates Db.handler (· = db)
      (Sum.LiftRel (fun x y : Collected × List (ObjectId × Bytes) => Collected.Filtered (E.passes db filter) x.1 y.1 ∧
        y.2 = x.2 ∧ ∀ t ∈ x.2.map (·.1), (E.treeAt db t).isSome) (Collected.Filtered (E.passes db filter)))
      (walkStep E haveObjects .none false (c, level)) (walkStep E haveObjects' filter false (c', level)) := by
  by_cases hl : level = []
  · subst hl
    exact .ret (.inr h)
  have hentries : ∀ p ∈ E.levelEntries db false level, ∃ t, p.2 ∈ E.entriesAt db false t := by
    intro p hp
    obtain ⟨t, -, hin⟩ := (mem_levelEntries (e := p.2)).1 (List.mem_map_of_mem hp)
    exact ⟨t, hin⟩
  have hsubtree : ∀ {x name}, TreeEntry.subtree x name ∈ (E.levelEntries db false level).map (·.2) →
      (E.treeAt db x).isSome := by
    intro x name hmem
    obtain ⟨p, hp, heq⟩ := List.mem_map.1 hmem
    obtain ⟨t, hin⟩ := hentries p hp
    rw [heq] at hin
    exact subtree_treeAt ht hin
  have hleaf : ∀ {x name}, TreeEntry.leaf x name ∈ (E.levelEntries db false level).map (·.2) → E.IsBlob db x := by
    intro x name hmem
    obtain ⟨p, hp, heq⟩ := List.mem_map.1 hmem
    obtain ⟨t, hin⟩ := hentries p hp
    rw [heq] at hin
    exact leaf_isBlob ht hin
  have hnamed : ∀ p ∈ E.levelEntries db false level, p.2.Named false := by
    intro p hp
    obtain ⟨t, hin⟩ := hentries p hp
    exact named_of_mem hin
  have hstart : TreeLevel.Filtered (E.passes db filter)
      { objects := c.objects, next := [], candidates := [], candidateSeen := ∅ }
      { objects := c'.objects, next := [], candidates := [], candidateSeen := ∅ } :=
    ⟨h, rfl, rfl, fun _ _ => Iff.rfl⟩
  obtain ⟨s, s', hs, hs', hfiltered⟩ := hstart.addEntries hhave fun p hp x name heq =>
    Env.passes_of_tree (hsubtree (List.mem_map.2 ⟨p, hp, heq⟩))
  -- What each of them read: its candidates are blobs, its next level trees.
  have hread : ∀ {haveObjects : Finset ObjectId} {objects : OrderedOidSet} {s : TreeLevel},
      TreeLevel.addEntries haveObjects false (E.levelEntries db false level)
        { objects, next := [], candidates := [], candidateSeen := ∅ } = some s →
      (∀ x ∈ s.candidates.map (·.1), E.IsBlob db x) ∧ ∀ t ∈ s.next.map (·.1), (E.treeAt db t).isSome := by
    intro haveObjects objects s hs
    obtain ⟨s₁, hs₁, hread⟩ := TreeLevel.addEntries_spec haveObjects (E.levelEntries db false level)
      (s := { objects, next := [], candidates := [], candidateSeen := ∅ }) (by simp [TreeLevel.Seen]) hnamed
    cases hs.symm.trans hs₁
    refine ⟨fun x hx => ?_, fun t htn => ?_⟩
    · obtain ⟨-, name, hmem⟩ := (hread.candidates x hx).resolve_left (by simp)
      exact hleaf hmem
    · obtain ⟨-, -, -, name, hmem⟩ := (hread.next t htn).resolve_left (by simp)
      exact hsubtree hmem
  obtain ⟨hblob, hnext⟩ := hread hs
  obtain ⟨hblob', -⟩ := hread hs'
  rintro _ a _ rfl hrun
  rw [run_walkStep_read .none hdb hl htyped hs hblob] at hrun
  cases hrun
  exact ⟨rfl, _, run_walkStep_read filter hdb hl htyped hs' hblob',
    .inl ⟨.admitBlobs hfiltered hblob hblob', hfiltered.next, hnext⟩⟩

theorem filtered_walkTree (fuel : Nat) {c c' : Collected} (h : Collected.Filtered (E.passes db filter) c c')
    {rootTree : ObjectId} (hroot : (E.treeAt db rootTree).isSome) :
    Prog.Simulates Db.handler (· = db) (Collected.Filtered (E.passes db filter))
      (walkTree E fuel rootTree c haveObjects .none false) (walkTree E fuel rootTree c' haveObjects' filter false) := by
  have hpass := @Env.passes_of_tree E db filter rootTree hroot
  refine Prog.Simulates.loop (T := fun x y : Collected × List (ObjectId × Bytes) =>
    Collected.Filtered (E.passes db filter) x.1 y.1 ∧ y.2 = x.2 ∧ ∀ t ∈ x.2.map (·.1), (E.treeAt db t).isSome) ?_ fuel ?_
  · rintro ⟨c, level⟩ ⟨c', level'⟩ ⟨hc, rfl, htyped⟩
    exact filtered_walkStep hdb ht hhave hc htyped
  · simp only [OrderedOidSet.contains_filtered h hpass, hhave rootTree hpass]
    split
    · exact ⟨OrderedOidSet.insert_kept h hpass, rfl, by simpa using hroot⟩
    · exact ⟨h, rfl, by simp⟩

theorem filtered_collectAll (fuel : Nat) {records : SortedMap ObjectId CommitGraphRecord}
    (hrecords : ∀ c r, records.get c = some r → (E.treeAt db r.rootTree).isSome) :
    ∀ {ids : List (ObjectId × Kind × Nat)} {c c' : Collected}, Collected.Filtered (E.passes db filter) c c' →
      (∀ entry ∈ ids, E.passes db filter entry.1 = true) →
      Prog.Simulates Db.handler (· = db) (Collected.Filtered (E.passes db filter))
        (collectAll E fuel records haveObjects .none false ids c)
        (collectAll E fuel records haveObjects' filter false ids c')
  | [], c, c', h, _ => .ret h
  | (id, kind, size) :: ids, c, c', h, hids => by
    have hins : Collected.Filtered (E.passes db filter) { c with objects := c.objects.insert id }
        { c' with objects := c'.objects.insert id } := OrderedOidSet.insert_kept h (hids _ (List.mem_cons_self ..))
    have hrest : ∀ entry ∈ ids, E.passes db filter entry.1 = true := fun entry hentry =>
      hids entry (List.mem_cons_of_mem _ hentry)
    cases kind with
    | commit =>
      cases hrecord : records.get id with
      | none =>
        intro s a s' _ hrun
        simp only [collectAll, hrecord] at hrun
        cases hrun
      | some record =>
        rw [collectAll, collectAll, hrecord]
        exact (filtered_walkTree hdb ht hhave fuel hins (hrecords id record hrecord)).bind fun _ _ hr =>
          filtered_collectAll fuel hrecords hr hrest
    | tag =>
      rw [collectAll, collectAll]
      exact filtered_collectAll fuel hrecords hins hrest
    | tree | blob =>
      intro s a s' _ hrun
      cases hrun

end Walk

/-! ## A whole collection -/

/-- A filtered collection is the other one, less what the filter drops. -/
theorem run_collect_filtered (hdb : Indexed E db) (ht : TreesTyped E db) {toSend : List ObjectId}
    (hsend : ∀ x ∈ toSend, Sendable E db x) (haves : List ObjectId) {fuel : Nat}
    (hfuel : 2 * Fintype.card ObjectId + 1 < fuel) :
    ∃ objects, (collect E fuel toSend haves .none).run Db.handler db = some (.ok objects, db) ∧
      ∀ filter, (collect E fuel toSend haves filter).run Db.handler db =
        some (.ok (objects.filter (E.passes db filter)), db) := by
  obtain ⟨collected, -, hrun, -, -, -⟩ := run_collectInner hdb ht hsend haves .none false hfuel
  refine ⟨collected.objects, Prog.run_bind_ok hrun, fun filter => ?_⟩
  obtain ⟨⟨fetched, records⟩, db₁, hfetch, hrun⟩ := Prog.run_bind_ok_inv hrun
  obtain ⟨roots, db₂, hroots, hrun⟩ := Prog.run_bind_ok_inv hrun
  obtain ⟨haveObjects, db₃, hexpand, hrun⟩ := Prog.run_bind_ok_inv hrun
  obtain ⟨classified, db₄, hinfo, hrun⟩ := Prog.run_bind_ok_inv hrun
  obtain ⟨⟨fetched', records'⟩, db₅, hfetch', hrun⟩ := Prog.run_bind_ok_inv hrun
  obtain ⟨checked, db₆, hcheck, hrun⟩ := Prog.run_bind_ok_inv hrun
  obtain ⟨c, db₇, hcollect, hret⟩ := Prog.run_bind_ok_inv hrun
  cases hret
  have hpos : 0 < fuel := by omega
  cases (hdb.run_prefetchRecords hpos .empty haves).symm.trans hfetch
  rw [haveRoots_spec hdb, Prog.run_ofExcept] at hroots
  cases hroots
  have htyped : ∀ r ∈ E.rootTrees db (misses .empty ∅ haves), (E.treeAt db r).isSome :=
    fun _ => treeAt_of_mem_rootTrees ht
  obtain ⟨haveObjects₁, hexpand₁, hset⟩ := run_expandHaves hdb.toIntact ht .none _ htyped hfuel
  cases hexpand₁.symm.trans hexpand
  obtain ⟨haveObjects', hexpand', hset'⟩ := run_expandHaves hdb.toIntact ht filter _ htyped hfuel
  have hpresent : ∀ x ∈ toSend, (E.objectAt db x).isSome := by
    intro x hx
    obtain ⟨kind, body, ho, -⟩ := hsend x hx
    rw [ho]
    rfl
  cases (run_objectInfo hdb.toIntact toSend hpresent).symm.trans hinfo
  cases (hdb.run_prefetchRecords hpos _ _).symm.trans hfetch'
  obtain rfl : db₆ = db := Prog.Keeps.forEach (I := (· = db)) (fun _ => .ofExcept _) _ db _ db₆ rfl hcheck
  have hempty : ∀ x r, (SortedMap.empty : SortedMap ObjectId CommitGraphRecord).get x = some r →
      E.infoAt db₆ x = some r := by simp
  have hcached := prefetched_cached (prefetched_cached hempty haves) (commitIds E db₆ toSend)
  have hsim := @filtered_collectAll E db₆ filter haveObjects haveObjects' hdb.toIntact ht
    (fun x hx => hset.agree hset' hx) fuel _ (fun x r hr => by
      obtain ⟨commit, hc, hroot, -⟩ := hdb.commit_of_infoAt (hcached x r hr)
      rw [hroot]
      exact root_treeAt ht hc) (toSend.map fun x => (x, E.kindSize db₆ x)) ⟨.default, .empty⟩ ⟨.default, .empty⟩ rfl
    (List.forall_mem_map.2 fun x hx => by
      obtain ⟨kind, body, ho, hk⟩ := hsend x hx
      refine Env.passes_of_kind ?_
      rcases hk with rfl | rfl
      · simp [Env.kindSize, ho]
      · simp [Env.kindSize, ho])
  obtain ⟨-, c', hcollect', hfiltered⟩ := hsim _ c _ rfl hcollect
  have hinner : (collectInner E fuel toSend haves filter false).run Db.handler db₆ =
      some (.ok ⟨c'.objects.intoVec, c'.blobPaths⟩, db₆) := by
    refine (Prog.run_bind_ok hfetch).trans ((Prog.run_bind_ok ?_).trans ((Prog.run_bind_ok hexpand').trans ?_))
    · rw [haveRoots_spec hdb, Prog.run_ofExcept]
    · exact (Prog.run_bind_ok hinfo).trans ((Prog.run_bind_ok hfetch').trans ((Prog.run_bind_ok hcheck).trans
        (Prog.run_bind_ok hcollect')))
  rw [collect, Prog.run_bind_ok hinner]
  exact congrArg (fun objects => some (Except.ok objects, db₆)) hfiltered

end Walker

open Walker in
/-- A filter removes exactly the blobs it names. Of every send list and every
have list, the objects with `blob:none` are those without a filter less the
blobs, and with a limit less the blobs over it, in the same order. -/
theorem collect_filters {E : Env} {db : E.Db} (hdb : Indexed E db) (ht : TreesTyped E db) {toSend : List ObjectId}
    (hsend : ∀ x ∈ toSend, Sendable E db x) (haves : List ObjectId) :
    ∃ N, ∀ fuel ≥ N, ∃ objects, E.run (collect E fuel toSend haves .none) db = some (.ok objects, db) ∧
      E.run (collect E fuel toSend haves .blobNone) db =
        some (.ok (objects.filter fun x => (E.kindSize db x).1 ≠ .blob), db) ∧
      ∀ limit, E.run (collect E fuel toSend haves (.blobLimit limit)) db =
        some (.ok (objects.filter fun x => ¬ ((E.kindSize db x).1 = .blob ∧ limit < (E.kindSize db x).2)), db) := by
  refine ⟨2 * Fintype.card ObjectId + 2, fun fuel hfuel => ?_⟩
  obtain ⟨objects, hrun, hfilters⟩ := run_collect_filtered hdb ht hsend haves (by omega : 2 * Fintype.card ObjectId + 1 < fuel)
  exact ⟨objects, hrun, hfilters .blobNone, fun limit => hfilters (.blobLimit limit)⟩

open Walker Sample in
theorem collect_filters_sample : ∃ N, ∀ fuel ≥ N, ∃ objects,
    env.run (collect env fuel [tipId] [rootId] .none) Sample.db = some (.ok objects, Sample.db) ∧
      env.run (collect env fuel [tipId] [rootId] .blobNone) Sample.db =
        some (.ok (objects.filter fun x => (env.kindSize Sample.db x).1 ≠ .blob), Sample.db) := by
  have hsend : ∀ x ∈ [tipId], Sendable env Sample.db x := by
    intro x hx
    obtain rfl := List.mem_singleton.1 hx
    exact ⟨_, _, objectAt_tip, .inl rfl⟩
  obtain ⟨N, hN⟩ := collect_filters Sample.indexed Sample.typed hsend [rootId]
  refine ⟨N, fun fuel hfuel => ?_⟩
  obtain ⟨objects, hrun, hnone, -⟩ := hN fuel hfuel
  exact ⟨objects, hrun, hnone⟩

end Miscreant
