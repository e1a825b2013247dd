/-
Typed stores, and what a fetch leaves of one.

A discovery may write commit-graph records that were missing. Whatever it
meets, the objects stay as they are, and a record it finds or writes has the
tree of its commit (`getCommitInfo_rooted`): that much of a record is right
without anything being known of the ancestry.
-/
import Miscreant.PushFacts
import Miscreant.UploadPack

namespace Miscreant

open Lib

variable {E : Env} {db db' : E.Db}

/-! ## Typed stores -/

/-- `r` is a record of the commit `c` as far as its tree goes. -/
def Env.RootOf (E : Env) (db : E.Db) (c : ObjectId) (r : CommitGraphRecord) : Prop :=
  ∃ commit, E.commitAt db c = some commit ∧ r.rootTree = commit.tree

/-- A well-typed store, closed under references: what is stored can be read,
commits and trees refer to objects of the kinds they declare, and a stored
commit-graph record has the tree of its commit. -/
structure TypedStore (E : Env) (db : E.Db) : Prop extends Intact E db, TreesTyped E db where
  roots : ∀ c v r, db.graph c = some v → E.codec.decode v c.kind = .ok r → E.RootOf db c r

theorem SameData.rootOf (h : SameData db db') {c : ObjectId} {r : CommitGraphRecord} :
    E.RootOf db' c r ↔ E.RootOf db c r := by
  simp only [Env.RootOf, h.commitAt]

theorem SameData.treesTyped (h : SameData db db') (ht : TreesTyped E db) : TreesTyped E db' := by
  have hobj := funext h.objectAt
  have htree : E.treeAt db' = E.treeAt db := by
    funext t
    rw [Env.treeAt, Env.treeAt, h.objectAt]
  have hblob : ∀ x, E.IsBlob db' x ↔ E.IsBlob db x := fun x => by simp only [Env.IsBlob, h.objectAt]
  exact
    { decodes := fun t body ho => by
        rw [htree]
        exact ht.decodes t body (by rwa [hobj] at ho)
      root := fun c commit hc => by
        rw [hobj]
        exact ht.root c commit (by rwa [h.commitAt] at hc)
      subtree := fun t entries he e hmem hm => by
        rw [hobj]
        exact ht.subtree t entries (by rwa [htree] at he) e hmem hm
      leaf := fun t entries he e hmem hm hm' => (hblob _).2 (ht.leaf t entries (by rwa [htree] at he) e hmem hm hm') }

/-- A store that differs in its records alone. -/
structure Reindexed (E : Env) (db db' : E.Db) : Prop extends TypedStore E db', SameData db db'

theorem Reindexed.refl (h : TypedStore E db) : Reindexed E db db := { h with objects := rfl, blobs := rfl }

theorem Reindexed.trans {db'' : E.Db} (h : Reindexed E db db') (h' : Reindexed E db' db'') : Reindexed E db db'' :=
  { h'.toTypedStore with
    objects := h'.objects.trans h.objects
    blobs := h'.blobs.trans h.blobs }

/-! ## Lookups -/

/-- A record is read back with its tree, or not at all. -/
theorem rootOf_encode (hcodec : E.codec = .bytes) {c : ObjectId} {commit : CommitRef} (hc : E.commitAt db c = some commit)
    {g : UInt32} {r : CommitGraphRecord}
    (hr : E.codec.decode (E.codec.encode ⟨g, commit.tree, commit.parents⟩) c.kind = .ok r) : E.RootOf db c r := by
  refine ⟨commit, hc, ?_⟩
  obtain ⟨body, -, hp⟩ := commitAt_eq_some.1 hc
  obtain ⟨ht, hps⟩ := E.gix.commit_kind body c.kind commit hp
  by_cases hn : commit.parents.length ≤ 255
  · have hfaithful := (Env.faithful_bytes_iff hcodec hc g).2 hn
    cases hfaithful.symm.trans hr
    rfl
  · have htrailing := @CommitGraphRecord.decode_encode_trailing _ ⟨g, commit.tree, commit.parents⟩ ht hps
      (Nat.lt_of_not_le hn)
    rw [hcodec] at hr
    cases htrailing.symm.trans hr

namespace Walker

/-- What is parsed of some commits is theirs. -/
def ParsedOf (E : Env) (db : E.Db) (parsed : SortedMap ObjectId (ObjectId × List ObjectId)) : Prop :=
  ∀ x entry, parsed.get x = some entry →
    ∃ commit, E.commitAt db x = some commit ∧ entry = (commit.tree, commit.parents)

theorem parsedCommit_ok (hdb : Intact E db) {parsed parsed' : SortedMap ObjectId (ObjectId × List ObjectId)}
    (hparsed : ParsedOf E db parsed) {x : ObjectId} {entry : ObjectId × List ObjectId}
    (hrun : (parsedCommit E parsed x).run Db.handler db = some (.ok (entry, parsed'), db')) :
    db' = db ∧ ParsedOf E db parsed' ∧
      ∃ commit, E.commitAt db x = some commit ∧ entry = (commit.tree, commit.parents) := by
  unfold parsedCommit at hrun
  cases hget : parsed.get x with
  | some entry' =>
    rw [hget] at hrun
    cases hrun
    exact ⟨rfl, hparsed, hparsed x entry hget⟩
  | none =>
    rw [hget] at hrun
    obtain ⟨entry', db₁, hparse, hret⟩ := Prog.run_bind_ok_inv hrun
    cases hret
    cases hc : E.commitAt db x with
    | none =>
      obtain ⟨e, -, hfail⟩ := run_parseCommit_none hdb hc
      cases hparse.symm.trans hfail
    | some commit =>
      cases hparse.symm.trans (run_parseCommit_ok hdb hc)
      refine ⟨rfl, fun y entry' hy => ?_, commit, rfl, rfl⟩
      rw [SortedMap.get_insert] at hy
      split at hy
      · rename_i heq
        cases hy
        exact ⟨commit, by rw [heq, hc], rfl⟩
      · exact hparsed y entry' hy

/-- The state of a lookup. -/
structure Backfill.Rooted (E : Env) (db₀ : E.Db) (target : ObjectId) (s : Backfill) (db : E.Db) : Prop
    extends Reindexed E db₀ db where
  parsed : ParsedOf E db₀ s.parsed
  result : ∀ r, s.result = some r → E.RootOf db₀ target r

/-- What one turn of a lookup leaves. -/
def Backfill.TurnRooted (E : Env) (db₀ : E.Db) (target : ObjectId) :
    Except WalkError (Backfill ⊕ Option CommitGraphRecord) → E.Db → Prop
  | .ok (.inl s), db => Backfill.Rooted E db₀ target s db
  | .ok (.inr result), db => Reindexed E db₀ db ∧ ∀ record, result = some record → E.RootOf db₀ target record
  | .error _, db => Reindexed E db₀ db

/-- The record of a commit is put. -/
theorem Reindexed.put (hcodec : E.codec = .bytes) {db₀ : E.Db} (h : Reindexed E db₀ db) {c : ObjectId} {commit : CommitRef}
    (hc : E.commitAt db₀ c = some commit) (g : UInt32) :
    Reindexed E db₀ (db.apply (.graph c (E.codec.encode ⟨g, commit.tree, commit.parents⟩))) := by
  have hsame : SameData db (db.apply (.graph c (E.codec.encode ⟨g, commit.tree, commit.parents⟩))) := ⟨rfl, rfl⟩
  refine ⟨⟨hsame.intact h.toIntact, hsame.treesTyped h.toTreesTyped, fun x v r hx hr => ?_⟩, h.objects, h.blobs⟩
  rw [hsame.rootOf]
  by_cases heq : x = c
  · subst heq
    have hv : v = E.codec.encode ⟨g, commit.tree, commit.parents⟩ := by
      have hget : (db.apply (.graph x (E.codec.encode ⟨g, commit.tree, commit.parents⟩))).graph x =
          some (E.codec.encode ⟨g, commit.tree, commit.parents⟩) := Function.update_self ..
      exact Option.some.inj (hx.symm.trans hget)
    rw [hv] at hr
    exact h.toSameData.rootOf.2 (rootOf_encode hcodec hc hr)
  · have hget : (db.apply (.graph c (E.codec.encode ⟨g, commit.tree, commit.parents⟩))).graph x = db.graph x :=
      Function.update_of_ne heq ..
    exact h.roots x v r (by rwa [hget] at hx) hr

/-- What a lookup that ended with `r` leaves, and says of `c`. -/
def Rooted (E : Env) (db₀ : E.Db) (c : ObjectId) (r : Except WalkError CommitGraphRecord) (db : E.Db) : Prop :=
  Reindexed E db₀ db ∧ ∀ record, r = .ok record → E.RootOf db₀ c record

section Lookups

variable {db₀ : E.Db} (hcodec : E.codec = .bytes)

theorem readsObjects_graph {α : Type} {p : E.Prog WalkError α} (hp : ReadsObjects p) {r : Except WalkError α}
    (hrun : p.run Db.handler db = some (r, db')) : db' = db := by
  refine (Prog.AllOps.run_inv (I := fun s => s = db) (fun o s ho hs => ?_) hp rfl hrun)
  cases o with
  | getObject oid | blobGet oid => exact hs
  | _ => exact ho.elim

include hcodec

/-- One turn of a lookup. -/
theorem backfillStep_rooted {target : ObjectId} {s : Backfill} {r : Except WalkError (Backfill ⊕ Option CommitGraphRecord)}
    (h : Backfill.Rooted E db₀ target s db) (hrun : (backfillStep E target s).run Db.handler db = some (r, db')) :
    Backfill.TurnRooted E db₀ target r db' := by
  unfold backfillStep at hrun
  cases hstack : s.stack with
  | nil =>
    rw [hstack] at hrun
    cases hrun
    exact ⟨h.toReindexed, h.result⟩
  | cons top rest =>
    rw [hstack] at hrun
    dsimp only at hrun
    split at hrun
    · cases hrun
      exact ⟨h.toReindexed, h.parsed, h.result⟩
    · rw [Prog.run_bind, run_getCommitGraph_mapErr] at hrun
      cases hgraph : E.graphAt db top with
      | error e =>
        rw [hgraph] at hrun
        cases hrun
        exact h.toReindexed
      | ok found =>
        rw [hgraph] at hrun
        cases found with
        | some record =>
          cases hrun
          exact ⟨h.toReindexed, h.parsed, h.result⟩
        | none =>
          dsimp only [Except.mapError] at hrun
          rcases Prog.run_bind_inv hrun with ⟨⟨entry, parsed'⟩, db₁, hparse, hrest⟩ | ⟨e, hfail, rfl⟩
          · have hcommits : ∀ x, E.commitAt db x = E.commitAt db₀ x := h.toSameData.commitAt
            obtain ⟨rfl, hparsed', commit, hc, rfl⟩ := parsedCommit_ok h.toIntact
              (fun x entry hx => by rw [hcommits]; exact h.parsed x entry hx) hparse
            have hparsed₀ : ParsedOf E db₀ parsed' := fun x entry hx => by
              rw [← hcommits]
              exact hparsed' x entry hx
            rw [hcommits] at hc
            dsimp only at hrest
            split at hrest
            · cases hrest
              refine ⟨Reindexed.put hcodec h.toReindexed hc _, hparsed₀, fun record hrecord => ?_⟩
              dsimp only at hrecord
              split at hrecord
              · rename_i htop
                cases hrecord
                exact ⟨commit, by rw [← htop, hc], rfl⟩
              · exact h.result record hrecord
            · cases hrest
              exact ⟨h.toReindexed, hparsed₀, h.result⟩
          · obtain rfl := readsObjects_graph (readsObjects_parsedCommit s.parsed top) hfail
            exact h.toReindexed

/-- A lookup finds or writes records with the trees of their commits. -/
theorem getCommitInfo_rooted {fuel : Nat} {c : ObjectId} {r : Except WalkError CommitGraphRecord}
    (h : Reindexed E db₀ db) (hrun : (getCommitInfo E fuel c).run Db.handler db = some (r, db')) : Rooted E db₀ c r db' := by
  rw [getCommitInfo, Prog.run_bind, run_getCommitGraph_mapErr] at hrun
  cases hgraph : E.graphAt db c with
  | error e =>
    rw [hgraph] at hrun
    cases hrun
    exact ⟨h, by simp⟩
  | ok found =>
    rw [hgraph] at hrun
    cases found with
    | some record =>
      cases hrun
      refine ⟨h, fun record' heq => ?_⟩
      cases heq
      unfold Env.graphAt at hgraph
      split at hgraph
      · cases hgraph
      · rename_i value hvalue
        split at hgraph
        · rename_i record' hdecode
          cases hgraph
          exact h.toSameData.rootOf.1 (h.roots c value record hvalue hdecode)
        · cases hgraph
    | none =>
      have hloop : ∀ (x : Except WalkError (Option CommitGraphRecord)) (db₁ : E.Db),
          (Prog.loop (backfillStep E c) fuel ⟨[c], .empty, .empty, none⟩).run Db.handler db = some (x, db₁) →
          Reindexed E db₀ db₁ ∧ ∀ record, x = .ok (some record) → E.RootOf db₀ c record := by
        intro x db₁ hloop
        have hparsed : ParsedOf E db₀ .empty := fun x entry hx => by simp at hx
        refine Prog.loop_inv (backfillStep E c) (I := fun s db => Backfill.Rooted E db₀ c s db)
          (Q := fun x db₁ => Reindexed E db₀ db₁ ∧ ∀ record, x = .ok (some record) → E.RootOf db₀ c record)
          (fun s db₁ y db₂ hs hstep => ?_) ⟨h, hparsed, fun _ hr => by cases hr⟩ hloop
        have hturn := backfillStep_rooted hcodec hs hstep
        rcases y with e | s' | result
        · exact ⟨hturn, by simp⟩
        · exact hturn
        · exact ⟨hturn.1, fun record heq => hturn.2 record (Except.ok.inj heq)⟩
      rcases Prog.run_bind_inv hrun with ⟨result, db₁, hresult, hret⟩ | ⟨e, hfail, rfl⟩
      · obtain ⟨hdb₁, hroot⟩ := hloop _ _ hresult
        cases result with
        | none =>
          cases hret
          exact ⟨hdb₁, by simp⟩
        | some record =>
          cases hret
          exact ⟨hdb₁, fun record' heq => hroot record' (congrArg (Except.ok ∘ some) (Except.ok.inj heq))⟩
      · exact ⟨(hloop _ _ hfail).1, by simp⟩

end Lookups

/-! ## What planning leaves -/

section Planning

variable {db₀ : E.Db} {ε α : Type}

theorem readsObjects_size (oid : ObjectId) : ReadsObjects (ObjectDb.size E oid : E.Prog ε _) :=
  Prog.AllOps.bind ⟨trivial, fun _ => trivial⟩ fun _ => trivial

/-- What only reads objects keeps what holds of the state. -/
theorem keeps_readsObjects {I : E.Db → Prop} {p : E.Prog ε α} (hp : ReadsObjects p) : p.Keeps Db.handler I :=
  Prog.AllOps.keeps (fun o s ho hs => by
    cases o with
    | getObject oid | blobGet oid => exact hs
    | _ => exact ho.elim) hp

theorem readsObjects_peelWants (fuel : Nat) (wants : List ObjectId) : ReadsObjects (peelWants E fuel wants) := by
  refine Prog.AllOps.bind (Prog.AllOps.forEach (fun want => (Prog.AllOps.loop (fun s => ?_) fuel _).attempt) _)
    fun chains => Prog.AllOps.bind (Prog.AllOps.forEach (fun x => .ofExcept x) _) fun _ => trivial
  refine Prog.AllOps.bind (readsObjects_get s.1).mapErr fun object => ?_
  match object with
  | none => trivial
  | some (.commit, body) => trivial
  | some (.tag, body) =>
    dsimp only
    split <;> trivial
  | some (.blob, body) => trivial
  | some (.tree, body) => trivial

theorem readsObjects_partitionWants (wants : List ObjectId) : ReadsObjects (partitionWants E wants) := by
  refine Prog.AllOps.bind (Prog.AllOps.forEach (fun want => ?_) _) fun sizes =>
    Prog.AllOps.bind (Prog.AllOps.forEach (fun x => ?_) _) fun _ => trivial
  · exact Prog.AllOps.bind (readsObjects_size want) fun _ => trivial
  · obtain ⟨want, size⟩ := x
    cases size <;> trivial

theorem readsObjects_objectInfo (ids : List ObjectId) : ReadsObjects (objectInfo E ids) := by
  refine Prog.AllOps.bind (Prog.AllOps.forEach (fun id => ?_) _) fun sizes => Prog.AllOps.forEach (fun x => ?_) _
  · exact Prog.AllOps.bind (readsObjects_size id) fun _ => trivial
  · obtain ⟨id, size⟩ := x
    cases size <;> trivial

theorem readsObjects_readTrees (ids : List ObjectId) (includeNames : Bool) :
    ReadsObjects (readTrees E ids includeNames) := by
  refine Prog.AllOps.bind (Prog.AllOps.forEach (fun id => Prog.AllOps.attempt ?_) _)
    fun results => Prog.AllOps.forEach (fun x => .ofExcept x) _
  refine Prog.AllOps.bind (readsObjects_get id).mapErr fun object => ?_
  cases object with
  | none => trivial
  | some object =>
    dsimp only
    split
    · trivial
    · exact .ofExcept _

theorem readsObjects_expandHaves (fuel : Nat) (roots : List ObjectId) (filter : FilterSpec) :
    ReadsObjects (expandHaves E fuel roots filter) := by
  refine Prog.AllOps.loop (fun s => ?_) fuel _
  unfold expandStep
  split
  · trivial
  · exact Prog.AllOps.bind (readsObjects_readTrees _ _) fun _ => trivial

theorem readsObjects_walkTree (fuel : Nat) (rootTree : ObjectId) (c : Collected) (haveObjects : Finset ObjectId)
    (filter : FilterSpec) (recordPaths : Bool) :
    ReadsObjects (walkTree E fuel rootTree c haveObjects filter recordPaths) := by
  refine Prog.AllOps.loop (fun s => ?_) fuel _
  obtain ⟨c, level⟩ := s
  unfold walkStep
  dsimp only
  split
  · trivial
  · refine Prog.AllOps.bind (readsObjects_readTrees _ _) fun trees => Prog.AllOps.bind (.ofOption _) fun read =>
      Prog.AllOps.bind ?_ fun _ => trivial
    cases filter with
    | none | blobNone => trivial
    | blobLimit limit => exact Prog.AllOps.bind (readsObjects_objectInfo _) fun _ => trivial

theorem readsObjects_collectAll (fuel : Nat) (records : SortedMap ObjectId CommitGraphRecord)
    (haveObjects : Finset ObjectId) (filter : FilterSpec) (recordPaths : Bool) :
    ∀ (ids : List (ObjectId × Kind × Nat)) (c : Collected),
      ReadsObjects (collectAll E fuel records haveObjects filter recordPaths ids c)
  | [], _ => trivial
  | (_, .commit, _) :: rest, _ =>
    Prog.AllOps.bind (.ofOption _) fun _ => Prog.AllOps.bind (readsObjects_walkTree ..) fun _ =>
      readsObjects_collectAll fuel records haveObjects filter recordPaths rest _
  | (_, .tag, _) :: rest, _ => readsObjects_collectAll fuel records haveObjects filter recordPaths rest _
  | (_, .tree, _) :: _, _ => trivial
  | (_, .blob, _) :: _, _ => trivial

theorem readsObjects_scheduleForOfs (collected : CollectedObjects) : ReadsObjects (UploadPack.scheduleForOfs E collected) :=
  Prog.AllOps.bind (readsObjects_objectInfo _) fun _ => Prog.AllOps.bind (.ofOption _) fun _ => trivial

/-! Whatever lookups keep, planning keeps. -/

variable {I : E.Db → Prop} (hlookup : ∀ fuel c, (getCommitInfo E fuel c).Keeps Db.handler I)

include hlookup

theorem keeps_prefetchRecords (fuel : Nat) (cache : SortedMap ObjectId CommitGraphRecord) (ids : List ObjectId) :
    (prefetchRecords E fuel cache ids).Keeps Db.handler I :=
  (Prog.Keeps.forEach (fun c => (hlookup fuel c).attempt.bind fun _ => .ret _) _).bind fun _ => .ret _

theorem keeps_selectCommits (fuel : Nat) (wants haves : List ObjectId) :
    (selectCommits E fuel wants haves).Keeps Db.handler I := by
  have hstep : ∀ s, (selectStep E fuel s).Keeps Db.handler I := by
    intro s
    unfold selectStep
    split
    · exact .ret _
    · split
      · exact .fail _
      · refine (keeps_prefetchRecords hlookup fuel _ _).bind fun fetched => ?_
        refine (Prog.Keeps.forEach (fun entry => ?_) _).bind fun _ => ?_
        · exact .ofExcept _
        exact (Prog.Keeps.ofOption _).bind fun _ => .ret _
  refine (keeps_prefetchRecords hlookup fuel _ _).bind fun fetched => (Prog.Keeps.ofExcept _).bind fun marked => ?_
  refine (keeps_readsObjects (readsObjects_peelWants fuel wants)).bind fun peeled => ?_
  refine (keeps_prefetchRecords hlookup fuel _ _).bind fun fetched => ?_
  exact (Prog.Keeps.ofExcept _).bind fun discovery => (Prog.Keeps.loop hstep fuel _).bind fun s => .ret _

theorem keeps_collectInner (fuel : Nat) (toSend haves : List ObjectId) (filter : FilterSpec) (recordPaths : Bool) :
    (collectInner E fuel toSend haves filter recordPaths).Keeps Db.handler I := by
  refine (keeps_prefetchRecords hlookup fuel _ _).bind fun fetched => (Prog.Keeps.ofExcept _).bind fun roots => ?_
  refine (keeps_readsObjects (readsObjects_expandHaves ..)).bind fun expanded => ?_
  refine (keeps_readsObjects (readsObjects_objectInfo _)).bind fun classified => ?_
  refine (keeps_prefetchRecords hlookup fuel _ _).bind fun fetched => ?_
  refine (Prog.Keeps.forEach (fun entry => .ofExcept _) _).bind fun _ => ?_
  exact (keeps_readsObjects (readsObjects_collectAll ..)).bind fun _ => .ret _

theorem keeps_planPack (fuel : Nat) (wants haves : List ObjectId) (filter : FilterSpec) (ofsDeltas : Bool) :
    (UploadPack.planPack E fuel wants haves filter ofsDeltas).Keeps Db.handler I := by
  refine (keeps_readsObjects (readsObjects_partitionWants wants)).bind fun partition => ?_
  split
  · exact .ret _
  · refine (keeps_selectCommits hlookup fuel _ _).bind fun selection => ?_
    cases ofsDeltas with
    | true =>
      exact (keeps_collectInner hlookup fuel _ _ _ _).bind fun _ =>
        (keeps_readsObjects (readsObjects_scheduleForOfs _)).bind fun _ => .ret _
    | false => exact ((keeps_collectInner hlookup fuel _ _ _ _).bind fun _ => .ret _).bind fun _ => .ret _

end Planning

/-! ## Where every commit has a record -/

section Recorded

variable (hdb : Intact E db) (hall : AllRecorded E db)

theorem still_getCommitGraph (c : ObjectId) :
    ((Store.getCommitGraph E.codec c).mapErr WalkError.store).Still Db.handler db := by
  have hread : (Prog.op (StoreOp.getCommitGraph c) Prog.ret : E.Prog StoreError _).Still Db.handler db := ⟨rfl, trivial⟩
  refine Prog.Still.mapErr (hread.bind fun value _ => ?_)
  cases value with
  | none => trivial
  | some value =>
    dsimp only
    cases E.codec.decode value c.kind <;> trivial

theorem still_readsObjects {ε α : Type} {p : E.Prog ε α} (hp : ReadsObjects p) : p.Still Db.handler db :=
  Prog.AllOps.still (fun o ho => by
    cases o with
    | getObject oid | blobGet oid => rfl
    | _ => exact ho.elim) hp

include hdb hall

/-- Where every commit has a record, a lookup writes none. -/
theorem still_getCommitInfo (fuel : Nat) (c : ObjectId) : (getCommitInfo E fuel c).Still Db.handler db := by
  refine Prog.Still.bind (still_getCommitGraph c) fun record hrun => ?_
  cases record with
  | some record => trivial
  | none =>
    -- no record, so no commit: there is nothing to go on to
    have hread := run_getCommitGraph_mapErr WalkError.store db c
    have hgraph : E.graphAt db c = .ok none := by
      rw [hread] at hrun
      cases hg : E.graphAt db c with
      | error e => simp [hg, Except.mapError] at hrun
      | ok found => simpa [hg, Except.mapError] using hrun
    have hnone : db.graph c = none := by
      unfold Env.graphAt at hgraph
      split at hgraph
      · assumption
      · split at hgraph <;> cases hgraph
    have hcommit : E.commitAt db c = none := by
      by_contra hsome
      have hrecord := hall c (Option.isSome_iff_ne_none.2 hsome)
      rw [hnone] at hrecord
      cases hrecord
    obtain ⟨e, -, hparse⟩ := run_parseCommit_none hdb hcommit
    refine Prog.Still.bind ?_ fun result _ => by cases result <;> trivial
    cases fuel with
    | zero => trivial
    | succ fuel =>
      rw [Prog.run_loop_succ]
      refine Prog.Still.bind ?_ fun next hnext => ?_
      · refine Prog.Still.bind (still_getCommitGraph c) fun record _ => ?_
        cases record with
        | some record => trivial
        | none =>
          refine Prog.Still.bind (still_readsObjects (readsObjects_parsedCommit _ _)) fun entry hentry => ?_
          cases (hentry.symm.trans (Prog.run_bind_error hparse))
      · have hstep : (backfillStep E c ⟨[c], .empty, .empty, none⟩).run Db.handler db = some (.error e, db) := by
          simp only [backfillStep, SortedMap.get_empty, Option.isSome_none, Bool.false_eq_true, if_false]
          rw [Prog.run_bind_ok (hread.trans (by rw [hgraph]; rfl))]
          exact Prog.run_bind_error (Prog.run_bind_error hparse)
        cases hnext.symm.trans hstep

theorem keeps_getCommitInfo_recorded (fuel : Nat) (c : ObjectId) :
    (getCommitInfo E fuel c).Keeps Db.handler (· = db) := by
  intro s r s' hs hrun
  obtain rfl : s = db := hs
  exact (still_getCommitInfo hdb hall fuel c).run hrun

end Recorded

/-! ## What is fetched -/

section Fetched

variable {db₀ : E.Db} (hcodec : E.codec = .bytes)

include hcodec

theorem keeps_getCommitInfo (fuel : Nat) (c : ObjectId) :
    (getCommitInfo E fuel c).Keeps Db.handler (Reindexed E db₀) :=
  fun _ _ _ hs hrun => (getCommitInfo_rooted hcodec hs hrun).1

/-- The cached records have the trees of their commits. -/
def RecordsRooted (E : Env) (db : E.Db) (records : SortedMap ObjectId CommitGraphRecord) : Prop :=
  ∀ c r, records.get c = some r → E.RootOf db c r

omit hcodec in
theorem recordsRooted_cacheFetched : ∀ (fetched : List (ObjectId × Except WalkError CommitGraphRecord))
    {cache : SortedMap ObjectId CommitGraphRecord}, RecordsRooted E db₀ cache →
    (∀ entry ∈ fetched, ∀ r, entry.2 = .ok r → E.RootOf db₀ entry.1 r) → RecordsRooted E db₀ (cacheFetched cache fetched)
  | [], cache, hcache, _ => hcache
  | (c, .error e) :: fetched, cache, hcache, h =>
    recordsRooted_cacheFetched fetched hcache fun entry hentry => h entry (List.mem_cons_of_mem _ hentry)
  | (c, .ok r) :: fetched, cache, hcache, h => by
    refine recordsRooted_cacheFetched fetched (fun x r' hx => ?_)
      fun entry hentry => h entry (List.mem_cons_of_mem _ hentry)
    rw [SortedMap.get_insert] at hx
    split at hx
    · rename_i heq
      cases hx
      rw [heq]
      exact h (c, .ok r) (List.mem_cons_self ..) r rfl
    · exact hcache x r' hx

theorem prefetchRecords_rooted {fuel : Nat} {cache : SortedMap ObjectId CommitGraphRecord} {ids : List ObjectId}
    {fetched : List (ObjectId × Except WalkError CommitGraphRecord)} {records : SortedMap ObjectId CommitGraphRecord}
    (hdb : Reindexed E db₀ db) (hcache : RecordsRooted E db₀ cache)
    (hrun : (prefetchRecords E fuel cache ids).run Db.handler db = some (.ok (fetched, records), db')) :
    Reindexed E db₀ db' ∧ RecordsRooted E db₀ records := by
  obtain ⟨fetched', db₁, hfetch, hret⟩ := Prog.run_bind_ok_inv hrun
  cases hret
  have hone : ∀ c s (entry : ObjectId × Except WalkError CommitGraphRecord) s', True → Reindexed E db₀ s →
      (do
        let record ← (getCommitInfo E fuel c).attempt
        pure (c, record) : E.Prog WalkError _).run Db.handler s = some (.ok entry, s') →
      Reindexed E db₀ s' ∧ ∀ r, entry.2 = .ok r → E.RootOf db₀ entry.1 r := by
    intro c s entry s' _ hs hrun
    obtain ⟨r, s₁, hinfo, hret⟩ := Prog.run_bind_ok_inv hrun
    cases hret
    rw [Prog.run_attempt] at hinfo
    obtain ⟨⟨r', s₂⟩, hinfo, heq⟩ := Option.map_eq_some_iff.1 hinfo
    cases heq
    exact getCommitInfo_rooted hcodec hs hinfo
  obtain ⟨hdb', hall⟩ := Prog.forEach_answers hone (fun _ _ => trivial) hdb hfetch
  exact ⟨hdb', recordsRooted_cacheFetched _ hcache hall⟩

end Fetched

end Walker

end Miscreant
