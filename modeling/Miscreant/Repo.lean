/-
What a store state means as a repository: the object an id names
(`Env.objectAt`), the commit it parses to (`Env.commitAt`), the record of its
commit-graph segment (`Env.infoAt`), and the references between objects.

The reads of the lower layers are stated here once, in these terms
(`run_get`, `run_getCommitGraph`, `run_parseCommit`, `run_readTree`); the
proofs above use them and never look inside the programs.
-/
import Miscreant.Promote
import Miscreant.ValuesFacts
import Mathlib.Logic.Relation

namespace Miscreant

open Lib

variable {E : Env}

/-! ## The store's operations -/

section Operations

variable {V ε : Type} (db : Db V)

@[simp] theorem run_getObject (oid : ObjectId) :
    (Store.getObject oid : StoreProg V ε _).run Db.handler db = some (.ok (db.objects oid), db) := rfl

@[simp] theorem run_objectExists (oid : ObjectId) :
    (Store.objectExists oid : StoreProg V ε _).run Db.handler db = some (.ok (db.objects oid).isSome, db) := rfl

@[simp] theorem run_putObject (oid : ObjectId) (record : ObjectRecord) (d : Durability) :
    (Store.putObject oid record d : StoreProg V ε _).run Db.handler db =
      some (.ok (), db.apply (.object oid record)) := rfl

@[simp] theorem run_blobGet (oid : ObjectId) :
    (BlobStore.get oid : StoreProg V ε _).run Db.handler db = some (.ok (db.blobs oid), db) := rfl

@[simp] theorem run_blobPut (oid : ObjectId) (bytes : Bytes) :
    (BlobStore.put oid bytes : StoreProg V ε _).run Db.handler db =
      some (.ok (), { db with blobs := Function.update db.blobs oid (some bytes) }) := rfl

@[simp] theorem run_getRef (name : String) :
    (Store.getRef name : StoreProg V ε _).run Db.handler db = some (.ok (db.refs.get name), db) := rfl

@[simp] theorem run_listRefs :
    (Store.listRefs : StoreProg V ε _).run Db.handler db = some (.ok db.refs.entries, db) := rfl

@[simp] theorem run_flush : (Store.flush : StoreProg V ε _).run Db.handler db = some (.ok (), db) := rfl

end Operations

@[simp] theorem run_putCommitGraph {ε : Type} (db : E.Db) (oid : ObjectId) (record : CommitGraphRecord)
    (d : Durability) : (Store.putCommitGraph E.codec oid record d : E.Prog ε _).run Db.handler db =
      some (.ok (), db.apply (.graph oid (E.codec.encode record))) := rfl

/-! ## Objects -/

/-- The length and zlib stream behind a record. -/
def streamAt {V : Type} (db : Db V) (oid : ObjectId) : ObjectRecord → Option (Nat × Bytes)
  | .blobPointer size => (db.blobs oid).map fun bytes => (size, bytes)
  | .blobInline uncompressedLen zlib | .tree uncompressedLen zlib | .commit uncompressedLen zlib
  | .tag uncompressedLen zlib => some (uncompressedLen, zlib)

/-- The object `oid` names: its kind and content. -/
def Env.objectAt (E : Env) (db : E.Db) (oid : ObjectId) : Option (Kind × Bytes) :=
  (db.objects oid).bind fun record =>
    (streamAt db oid record).bind fun (len, zlib) =>
      (E.zlib.inflate zlib len).map fun content => (record.kind, content)

/-- Every record's content can be read back at its recorded size: nothing in
the store is corrupt. -/
structure Intact (E : Env) (db : E.Db) : Prop where
  object : ∀ oid, (db.objects oid).isSome → (E.objectAt db oid).isSome
  size : ∀ oid record kind body, db.objects oid = some record → E.objectAt db oid = some (kind, body) →
    record.size = body.length

theorem objectAt_kind {db : E.Db} {oid : ObjectId} {record : ObjectRecord} {kind : Kind} {body : Bytes}
    (hr : db.objects oid = some record) (h : E.objectAt db oid = some (kind, body)) : record.kind = kind := by
  simp only [Env.objectAt, hr, Option.bind_some] at h
  cases hs : streamAt db oid record with
  | none => simp [hs] at h
  | some lz =>
    obtain ⟨len, zlib⟩ := lz
    simp only [hs, Option.bind_some, Option.map_eq_some_iff] at h
    obtain ⟨content, _, he⟩ := h
    cases he
    rfl

theorem objectAt_isSome {db : E.Db} {oid : ObjectId} (h : (E.objectAt db oid).isSome) :
    (db.objects oid).isSome := by
  cases hr : db.objects oid with
  | none => simp [Env.objectAt, hr] at h
  | some record => rfl

theorem Intact.objects_isSome {db : E.Db} (hdb : Intact E db) (oid : ObjectId) :
    (db.objects oid).isSome ↔ (E.objectAt db oid).isSome :=
  ⟨hdb.object oid, objectAt_isSome⟩

/-- What `ObjectDb::get` answers. -/
theorem run_get {db : E.Db} (hdb : Intact E db) (oid : ObjectId) :
    (ObjectDb.get E oid).run Db.handler db = some (.ok (E.objectAt db oid), db) := by
  have hobj := hdb.object oid
  simp only [ObjectDb.get, Prog.run_bind, run_getObject]
  simp only [Env.objectAt] at hobj ⊢
  cases hr : db.objects oid with
  | none => rfl
  | some record =>
    have hsome := hobj (by simp [hr])
    simp only [hr, Option.bind_some] at hsome ⊢
    have hstream : ∀ lz, streamAt db oid record = some lz →
        (ObjectDb.stream E oid record).run Db.handler db = some (.ok lz, db) := by
      intro lz hlz
      cases record with
      | blobPointer size =>
        simp only [streamAt, Option.map_eq_some_iff] at hlz
        obtain ⟨bytes, hb, rfl⟩ := hlz
        simp [ObjectDb.stream, Prog.run_bind, hb]
      | blobInline len z | tree len z | commit len z | tag len z =>
        simp only [streamAt, Option.some.injEq] at hlz
        subst hlz
        rfl
    cases hs : streamAt db oid record with
    | none => simp [hs] at hsome
    | some lz =>
      obtain ⟨len, z⟩ := lz
      simp only [hs, Option.bind_some] at hsome ⊢
      rw [Prog.run_bind, hstream _ hs]
      cases hi : E.zlib.inflate z len with
      | none => simp [hi] at hsome
      | some content => simp [hi]

theorem run_get_mapErr {ε : Type} (f : ObjectDbError → ε) {db : E.Db} (hdb : Intact E db) (oid : ObjectId) :
    ((ObjectDb.get E oid).mapErr f).run Db.handler db = some (.ok (E.objectAt db oid), db) := by
  rw [Prog.run_mapErr, run_get hdb]
  rfl

/-- What `ObjectDb::size` answers. -/
theorem run_size {ε : Type} {db : E.Db} (hdb : Intact E db) (oid : ObjectId) :
    (ObjectDb.size E oid : E.Prog ε _).run Db.handler db =
      some (.ok ((E.objectAt db oid).map fun (kind, body) => (kind, body.length)), db) := by
  simp only [ObjectDb.size, Prog.run_bind, run_getObject, Prog.pure_eq, Prog.run_ret]
  cases hr : db.objects oid with
  | none => simp [Env.objectAt, hr]
  | some record =>
    obtain ⟨⟨kind, body⟩, ho⟩ := Option.isSome_iff_exists.1 (hdb.object oid (by simp [hr]))
    simp [ho, objectAt_kind hr ho, hdb.size oid record kind body hr ho]

/-! ## Commits and their records -/

/-- The commit `oid` names, parsed. -/
def Env.commitAt (E : Env) (db : E.Db) (oid : ObjectId) : Option CommitRef :=
  match E.objectAt db oid with
  | some (.commit, body) => E.gix.commitFromBytes body oid.kind
  | _ => none

/-- The record of each commit. -/
abbrev Info := ObjectId → Option CommitGraphRecord

namespace Info

/-- `y` is a parent of `x`. -/
def Parent (info : Info) (x y : ObjectId) : Prop := ∃ r, info x = some r ∧ y ∈ r.parents

/-- `a` is `c` or an ancestor of it. -/
def Ancestor (info : Info) (a c : ObjectId) : Prop := Relation.ReflTransGen info.Parent c a

/-- `a` is one of `cs` or an ancestor of one. -/
def Below (info : Info) (cs : List ObjectId) (a : ObjectId) : Prop := ∃ c ∈ cs, info.Ancestor a c

/-- A commit's parents have records. -/
def Closed (info : Info) : Prop := ∀ x y, info.Parent x y → (info y).isSome

theorem Below.parent {info : Info} {cs : List ObjectId} {x y : ObjectId} (h : info.Below cs x)
    (hp : info.Parent x y) : info.Below cs y := by
  obtain ⟨c, hc, ha⟩ := h
  exact ⟨c, hc, ha.tail hp⟩

theorem Below.self {info : Info} {cs : List ObjectId} {c : ObjectId} (h : c ∈ cs) : info.Below cs c :=
  ⟨c, h, .refl⟩

end Info

/-- What `Store::get_commit_graph` reads. -/
def Env.graphAt (E : Env) (db : E.Db) (oid : ObjectId) : Except StoreError (Option CommitGraphRecord) :=
  match db.graph oid with
  | none => .ok none
  | some value =>
    match E.codec.decode value oid.kind with
    | .ok record => .ok (some record)
    | .error e => .error (.value e)

/-- The commit-graph record of `oid`, when one is there and can be read. -/
def Env.infoAt (E : Env) (db : E.Db) : Info := fun oid =>
  match E.graphAt db oid with
  | .ok record => record
  | .error _ => none

@[simp] theorem run_graphValue {V ε : Type} (db : Db V) (oid : ObjectId) :
    (Prog.op (StoreOp.getCommitGraph oid) Prog.ret : StoreProg V ε (Option V)).run Db.handler db =
      some (.ok (db.graph oid), db) := rfl

theorem run_getCommitGraph (db : E.Db) (oid : ObjectId) :
    (Store.getCommitGraph E.codec oid).run Db.handler db = some (E.graphAt db oid, db) := by
  simp only [Store.getCommitGraph, Env.graphAt, Prog.run_bind, run_graphValue]
  cases hv : db.graph oid with
  | none => rfl
  | some value => cases hd : E.codec.decode value oid.kind <;> simp [hd]

theorem run_getCommitGraph_mapErr {ε : Type} (f : StoreError → ε) (db : E.Db) (oid : ObjectId) :
    ((Store.getCommitGraph E.codec oid).mapErr f).run Db.handler db = some ((E.graphAt db oid).mapError f, db) := by
  rw [Prog.run_mapErr, run_getCommitGraph]
  rfl

/-- What `Walker::parse_commit` answers. -/
theorem run_parseCommit {db : E.Db} (hdb : Intact E db) (oid : ObjectId) :
    (Walker.parseCommit E oid).run Db.handler db =
      some (match E.objectAt db oid with
        | none => .error (.missingObject oid)
        | some (kind, body) =>
          if kind ≠ .commit then .error (.unexpectedKind oid .commit kind)
          else match E.gix.commitFromBytes body oid.kind with
            | none => .error (.decode oid)
            | some commit => .ok (commit.tree, commit.parents), db) := by
  rw [Walker.parseCommit, Prog.run_bind, run_get_mapErr _ hdb]
  simp only
  cases ho : E.objectAt db oid with
  | none => rfl
  | some kb =>
    obtain ⟨kind, body⟩ := kb
    by_cases hk : kind = .commit
    · subst hk
      cases hc : E.gix.commitFromBytes body oid.kind <;> simp [hc]
    · simp [hk]

theorem run_parseCommit_ok {db : E.Db} (hdb : Intact E db) {oid : ObjectId} {commit : CommitRef}
    (hc : E.commitAt db oid = some commit) :
    (Walker.parseCommit E oid).run Db.handler db = some (.ok (commit.tree, commit.parents), db) := by
  rw [run_parseCommit hdb]
  simp only [Env.commitAt] at hc
  split at hc
  · rename_i body ho
    simp [ho, hc]
  · cases hc

/-- The object an error is about. -/
def WalkError.about : WalkError → Option ObjectId
  | .missingObject oid | .unexpectedKind oid _ _ | .decode oid => some oid
  | _ => none

theorem run_parseCommit_none {db : E.Db} (hdb : Intact E db) {oid : ObjectId} (hc : E.commitAt db oid = none) :
    ∃ e, e.about = some oid ∧ (Walker.parseCommit E oid).run Db.handler db = some (.error e, db) := by
  rw [run_parseCommit hdb]
  cases ho : E.objectAt db oid with
  | none => exact ⟨.missingObject oid, rfl, rfl⟩
  | some kb =>
    obtain ⟨kind, body⟩ := kb
    by_cases hk : kind = .commit
    · subst hk
      have hparse : E.gix.commitFromBytes body oid.kind = none := by simpa [Env.commitAt, ho] using hc
      exact ⟨.decode oid, rfl, by simp [hparse]⟩
    · exact ⟨.unexpectedKind oid .commit kind, rfl, by simp [hk]⟩

/-- `y` is a parent of the commit `x`. -/
def Env.Parent (E : Env) (db : E.Db) (x y : ObjectId) : Prop :=
  ∃ commit, E.commitAt db x = some commit ∧ y ∈ commit.parents

/-- `a` is `c` or an ancestor of it. -/
def Env.Ancestor (E : Env) (db : E.Db) (a c : ObjectId) : Prop := Relation.ReflTransGen (E.Parent db) c a

/-- Every commit of the repository has a readable record that agrees with it,
nothing else has one, and a commit's parents are commits. -/
structure Indexed (E : Env) (db : E.Db) : Prop extends Intact E db where
  decodes : ∀ c body, E.objectAt db c = some (.commit, body) → (E.gix.commitFromBytes body c.kind).isSome
  record : ∀ c commit, E.commitAt db c = some commit →
    ∃ r, E.graphAt db c = .ok (some r) ∧ r.rootTree = commit.tree ∧ r.parents = commit.parents
  onlyCommits : ∀ c, (db.graph c).isSome → (E.commitAt db c).isSome
  parents : ∀ c p, E.Parent db c p → (E.commitAt db p).isSome

/-- Every commit has a record. -/
def AllRecorded (E : Env) (db : E.Db) : Prop := ∀ c, (E.commitAt db c).isSome → (db.graph c).isSome

theorem Indexed.allRecorded {db : E.Db} (h : Indexed E db) : AllRecorded E db := by
  intro c hc
  obtain ⟨commit, hc⟩ := Option.isSome_iff_exists.1 hc
  obtain ⟨r, hr, -⟩ := h.record c commit hc
  unfold Env.graphAt at hr
  split at hr
  · cases hr
  · rename_i hv
    rw [hv]
    rfl

/-- Every record's generation is one more than the greatest of its parents',
`1` for a root. -/
def Generations (E : Env) (db : E.Db) : Prop :=
  ∀ c r, E.infoAt db c = some r →
    r.generation.toNat =
      1 + (r.parents.map fun p => ((E.infoAt db p).map (·.generation.toNat)).getD 0).foldr max 0

/-- A tag chain: the tags walked through, and the object they end in. -/
structure TagChain where
  tags : List ObjectId
  target : ObjectId
  deriving DecidableEq, Repr

/-- Following tags from `oid` gives `chain`, which ends in an object that is
not a tag. -/
inductive Env.Peels (E : Env) (db : E.Db) : ObjectId → TagChain → Prop
  | target {oid : ObjectId} {kind : Kind} {body : Bytes} (h : E.objectAt db oid = some (kind, body))
      (hk : kind ≠ .tag) : E.Peels db oid ⟨[], oid⟩
  | tag {oid : ObjectId} {body : Bytes} {tag : TagRef} {chain : TagChain} (h : E.objectAt db oid = some (.tag, body))
      (ht : E.gix.tagFromBytes body oid.kind = some tag) (hc : E.Peels db tag.target chain) :
      E.Peels db oid ⟨oid :: chain.tags, chain.target⟩

/-- `want` peels to a commit along `chain`. -/
def Env.PeelsToCommit (E : Env) (db : E.Db) (want : ObjectId) (chain : TagChain) : Prop :=
  E.Peels db want chain ∧ (E.commitAt db chain.target).isSome

/-! ## Trees -/

/-- The entries of a tree, when all of them decode. -/
def decoded {α : Type} : List (Option α) → Option (List α)
  | [] => some []
  | none :: _ => none
  | some a :: rest => (decoded rest).map (a :: ·)

theorem decoded_eq_some {α : Type} {l : List (Option α)} {as : List α} :
    decoded l = some as ↔ l = as.map some := by
  induction l generalizing as with
  | nil => cases as <;> simp [decoded]
  | cons o l ih =>
    cases o with
    | none => cases as <;> simp [decoded]
    | some a =>
      cases as with
      | nil => simp [decoded]
      | cons b as => simp [decoded, ih, and_comm]

/-- The entries of the tree `oid` names. -/
def Env.treeAt (E : Env) (db : E.Db) (oid : ObjectId) : Option (List TreeEntryRef) :=
  match E.objectAt db oid with
  | some (.tree, body) => decoded (E.gix.treeEntries body oid.kind)
  | _ => none

/-- `y` is an entry of the tree `x`, gitlinks aside. -/
def Env.Entry (E : Env) (db : E.Db) (x y : ObjectId) : Prop :=
  ∃ entries, E.treeAt db x = some entries ∧ ∃ e ∈ entries, e.mode ≠ .commit ∧ e.oid = y

/-- `y` is `root` or is reached from it through trees. -/
def Env.InTree (E : Env) (db : E.Db) (root y : ObjectId) : Prop := Relation.ReflTransGen (E.Entry db) root y

/-- `oid` names a blob. -/
def Env.IsBlob (E : Env) (db : E.Db) (oid : ObjectId) : Prop := ∃ body, E.objectAt db oid = some (.blob, body)

/-- The trees of a repository are closed under reference and of the kinds
their entries say: a commit's tree is a tree, a tree-mode entry names a tree,
any other but a gitlink a blob. -/
structure TreesTyped (E : Env) (db : E.Db) : Prop where
  decodes : ∀ t body, E.objectAt db t = some (.tree, body) → (E.treeAt db t).isSome
  root : ∀ c commit, E.commitAt db c = some commit → ∃ body, E.objectAt db commit.tree = some (.tree, body)
  subtree : ∀ t entries, E.treeAt db t = some entries → ∀ e ∈ entries, e.mode = .tree →
    ∃ body, E.objectAt db e.oid = some (.tree, body)
  leaf : ∀ t entries, E.treeAt db t = some entries → ∀ e ∈ entries, e.mode ≠ .tree → e.mode ≠ .commit →
    E.IsBlob db e.oid

theorem treeAt_eq_some {db : E.Db} {t : ObjectId} {entries : List TreeEntryRef} :
    E.treeAt db t = some entries ↔
      ∃ body, E.objectAt db t = some (.tree, body) ∧ E.gix.treeEntries body t.kind = entries.map some := by
  unfold Env.treeAt
  split
  · rename_i body ho
    simp [ho, decoded_eq_some]
  · rename_i h
    constructor
    · intro hc; cases hc
    · rintro ⟨body, ho, _⟩
      exact absurd ho (h body)

theorem Env.IsBlob.not_entry {db : E.Db} {x y : ObjectId} (h : E.IsBlob db x) : ¬ E.Entry db x y := by
  rintro ⟨entries, ht, _⟩
  obtain ⟨body, hb⟩ := h
  obtain ⟨body', ho, -⟩ := treeAt_eq_some.1 ht
  rw [hb] at ho
  cases ho

namespace Walker

/-- The entry of a tree as the walk keeps it. -/
def keepEntry (includeNames : Bool) (e : TreeEntryRef) : Option TreeEntry :=
  match e.mode with
  | .tree => some (.subtree e.oid (if includeNames then some e.filename else none))
  | .commit => none
  | _ => some (.leaf e.oid (if includeNames then some e.filename else none))

theorem treeEntries_map_some (id : ObjectId) (includeNames : Bool) (entries : List TreeEntryRef) :
    treeEntries id includeNames (entries.map some) = .ok (entries.filterMap (keepEntry includeNames)) := by
  induction entries with
  | nil => rfl
  | cons e entries ih => cases hm : e.mode <;> simp [treeEntries, ih, keepEntry, hm]

end Walker

/-- The entries of a tree as the walk keeps them. -/
def Env.entriesAt (E : Env) (db : E.Db) (includeNames : Bool) (t : ObjectId) : List TreeEntry :=
  ((E.treeAt db t).getD []).filterMap (Walker.keepEntry includeNames)

/-- What `Walker::read_tree` answers. -/
theorem run_readTree {db : E.Db} (hdb : Intact E db) (includeNames : Bool) {t : ObjectId}
    (ht : (E.treeAt db t).isSome) :
    (Walker.readTree E includeNames t).run Db.handler db = some (.ok (E.entriesAt db includeNames t), db) := by
  obtain ⟨entries, ht⟩ := Option.isSome_iff_exists.1 ht
  obtain ⟨body, ho, he⟩ := treeAt_eq_some.1 ht
  rw [Walker.readTree, Prog.run_bind_ok (run_get_mapErr _ hdb t), ho]
  simp [he, Walker.treeEntries_map_some, Env.entriesAt, ht]

theorem run_readTrees {db : E.Db} (hdb : Intact E db) (includeNames : Bool) {ids : List ObjectId}
    (ht : ∀ t ∈ ids, (E.treeAt db t).isSome) :
    (Walker.readTrees E ids includeNames).run Db.handler db =
      some (.ok (ids.map (E.entriesAt db includeNames)), db) := by
  have hread : (Prog.forEach (fun id => (Walker.readTree E includeNames id).attempt) ids :
      E.Prog WalkError _).run Db.handler db = some (.ok (ids.map fun t => .ok (E.entriesAt db includeNames t)), db) :=
    Prog.run_forEach fun t hmem => by
      rw [Prog.run_attempt, run_readTree hdb includeNames (ht t hmem)]
      rfl
  have hunwrap : (Prog.forEach Prog.ofExcept (ids.map fun t => .ok (E.entriesAt db includeNames t)) :
      E.Prog WalkError _).run Db.handler db = some (.ok (ids.map (E.entriesAt db includeNames)), db) := by
    refine Prog.run_forEach₂ (List.forall₂_map_left_iff.2 (List.forall₂_map_right_iff.2 ?_))
    exact List.forall₂_same.2 fun t _ => by rw [Prog.run_ofExcept]
  rw [Walker.readTrees, Prog.run_bind_ok hread, hunwrap]

/-! ## Reading records -/

theorem commitAt_eq_some {db : E.Db} {c : ObjectId} {commit : CommitRef} :
    E.commitAt db c = some commit ↔
      ∃ body, E.objectAt db c = some (.commit, body) ∧ E.gix.commitFromBytes body c.kind = some commit := by
  unfold Env.commitAt
  split
  · rename_i body ho
    simp [ho]
  · rename_i h
    constructor
    · intro hc; cases hc
    · rintro ⟨body, ho, _⟩
      exact absurd ho (h body)

/-- What asking for a commit's record gives where every commit has one. -/
def Env.fetchedAt (E : Env) (db : E.Db) (id : ObjectId) : Except WalkError CommitGraphRecord :=
  match E.infoAt db id with
  | some r => .ok r
  | none =>
    match E.objectAt db id with
    | none => .error (.missingObject id)
    | some (kind, _) => .error (.unexpectedKind id .commit kind)

/-- Asking for the record of what is not a commit. -/
theorem run_getCommitInfo_failed {db : E.Db} {fuel : Nat} (hfuel : 0 < fuel) {id : ObjectId} {e : WalkError}
    (hgraph : E.graphAt db id = .ok none)
    (hparse : (Walker.parseCommit E id).run Db.handler db = some (.error e, db)) :
    (Walker.getCommitInfo E fuel id).run Db.handler db = some (.error e, db) := by
  obtain ⟨fuel, rfl⟩ : ∃ m, fuel = m + 1 := ⟨fuel - 1, by omega⟩
  have hread : ((Store.getCommitGraph E.codec id).mapErr WalkError.store).run Db.handler db = some (.ok none, db) := by
    rw [run_getCommitGraph_mapErr, hgraph]
    rfl
  have hstep : (Walker.backfillStep E id { stack := [id], parsed := .empty, generations := .empty, result := none }).run
      Db.handler db = some (.error e, db) := by
    simp only [Walker.backfillStep, SortedMap.get_empty, Option.isSome_none, Bool.false_eq_true, if_false,
      Prog.run_bind, hread, Walker.parsedCommit, hparse]
  rw [Walker.getCommitInfo, Prog.run_bind_ok hread, Walker.backfillCommitInfo, Prog.run_loop_succ]
  exact Prog.run_bind_error (Prog.run_bind_error hstep)

namespace Indexed

variable {db : E.Db} (hdb : Indexed E db)

include hdb

theorem graphAt_of_infoAt {c : ObjectId} : E.graphAt db c = .ok (E.infoAt db c) := by
  cases hg : db.graph c with
  | none => simp [Env.infoAt, Env.graphAt, hg]
  | some v =>
    obtain ⟨commit, hc⟩ := Option.isSome_iff_exists.1 (hdb.onlyCommits c (by simp [hg]))
    obtain ⟨r, hr, -⟩ := hdb.record c commit hc
    simp [Env.infoAt, hr]

theorem infoAt_isSome {c : ObjectId} : (E.infoAt db c).isSome ↔ (E.commitAt db c).isSome := by
  constructor
  · intro h
    cases hg : db.graph c with
    | none => simp [Env.infoAt, Env.graphAt, hg] at h
    | some v => exact hdb.onlyCommits c (by simp [hg])
  · intro h
    obtain ⟨commit, hc⟩ := Option.isSome_iff_exists.1 h
    obtain ⟨r, hr, -⟩ := hdb.record c commit hc
    simp [Env.infoAt, hr]

theorem infoAt_of_commit {c : ObjectId} {commit : CommitRef} (hc : E.commitAt db c = some commit) :
    ∃ r, E.infoAt db c = some r ∧ r.rootTree = commit.tree ∧ r.parents = commit.parents := by
  obtain ⟨r, hr, h⟩ := hdb.record c commit hc
  exact ⟨r, by simp [Env.infoAt, hr], h⟩

theorem commit_of_infoAt {c : ObjectId} {r : CommitGraphRecord} (hr : E.infoAt db c = some r) :
    ∃ commit, E.commitAt db c = some commit ∧ r.rootTree = commit.tree ∧ r.parents = commit.parents := by
  obtain ⟨commit, hc⟩ := Option.isSome_iff_exists.1 ((hdb.infoAt_isSome (c := c)).1 (by simp [hr]))
  obtain ⟨r', hr', h⟩ := hdb.infoAt_of_commit hc
  cases hr.symm.trans hr'
  exact ⟨commit, hc, h⟩

theorem isCommit_iff {c : ObjectId} :
    (E.commitAt db c).isSome ↔ ∃ body, E.objectAt db c = some (.commit, body) := by
  constructor
  · intro h
    obtain ⟨commit, hc⟩ := Option.isSome_iff_exists.1 h
    obtain ⟨body, ho, -⟩ := commitAt_eq_some.1 hc
    exact ⟨body, ho⟩
  · rintro ⟨body, ho⟩
    obtain ⟨commit, hc⟩ := Option.isSome_iff_exists.1 (hdb.decodes c body ho)
    exact Option.isSome_iff_exists.2 ⟨commit, commitAt_eq_some.2 ⟨body, ho, hc⟩⟩

theorem run_getCommitInfo {fuel : Nat} (hfuel : 0 < fuel) (id : ObjectId) :
    (Walker.getCommitInfo E fuel id).run Db.handler db = some (E.fetchedAt db id, db) := by
  unfold Env.fetchedAt
  cases hi : E.infoAt db id with
  | some r =>
    rw [Walker.getCommitInfo, Prog.run_bind, run_getCommitGraph_mapErr, hdb.graphAt_of_infoAt, hi]
    rfl
  | none =>
    have hgraph : E.graphAt db id = .ok none := by rw [hdb.graphAt_of_infoAt, hi]
    have hcommit : E.commitAt db id = none := by
      rw [← Option.not_isSome_iff_eq_none, ← hdb.infoAt_isSome, hi]
      simp
    have hparse := run_parseCommit hdb.toIntact id
    cases ho : E.objectAt db id with
    | none => exact run_getCommitInfo_failed hfuel hgraph (by rw [hparse, ho])
    | some kb =>
      obtain ⟨kind, body⟩ := kb
      have hk : kind ≠ .commit := by
        rintro rfl
        have := hdb.isCommit_iff.2 ⟨body, ho⟩
        simp [hcommit] at this
      exact run_getCommitInfo_failed hfuel hgraph (by rw [hparse, ho]; simp [hk])

/-- What prefetching records gives, and the cache it leaves. -/
theorem run_prefetchRecords {fuel : Nat} (hfuel : 0 < fuel) (cache : SortedMap ObjectId CommitGraphRecord)
    (ids : List ObjectId) :
    (Walker.prefetchRecords E fuel cache ids).run Db.handler db =
      some (.ok ((Walker.misses cache ∅ ids).map fun id => (id, E.fetchedAt db id),
        Walker.cacheFetched cache ((Walker.misses cache ∅ ids).map fun id => (id, E.fetchedAt db id))), db) := by
  have hone : ∀ id ∈ Walker.misses cache ∅ ids,
      (do let record ← (Walker.getCommitInfo E fuel id).attempt
          pure (id, record) : E.Prog WalkError _).run Db.handler db = some (.ok (id, E.fetchedAt db id), db) := by
    intro id _
    rw [Prog.run_bind, Prog.run_attempt, hdb.run_getCommitInfo hfuel]
    rfl
  rw [Walker.prefetchRecords, Prog.run_bind, Prog.run_forEach hone]
  rfl

end Indexed

/-! ## Lists without repeats -/

theorem eraseDups_filter (p : ObjectId → Bool) (l : List ObjectId) :
    (l.filter p).eraseDups = l.eraseDups.filter p := by
  induction h : l.length using Nat.strongRecOn generalizing l with
  | _ n ih =>
  cases l with
  | nil => rfl
  | cons a l =>
    have hlen : (l.filter fun b => !b == a).length < n := by
      have := List.length_filter_le (fun b => !b == a) l
      simp only [List.length_cons] at h
      omega
    rw [List.eraseDups_cons, List.filter_cons, List.filter_cons]
    have ih' := ih _ hlen _ rfl
    split_ifs
    · rw [List.eraseDups_cons, ← ih', List.filter_comm]
    · have hne : ∀ b ∈ l.filter p, (!b == a) = true := by
        intro b hb
        have := List.of_mem_filter hb
        by_contra hba
        simp_all
      rw [← ih', List.filter_comm, List.filter_eq_self.2 hne]

theorem OrderedOidSet.order_foldl_insert :
    ∀ (ids : List ObjectId) (s : OrderedOidSet),
      (ids.foldl OrderedOidSet.insert s).order = s.order ++ (ids.filter fun id => id ∉ s.order).eraseDups
  | [], s => by simp
  | x :: ids, s => by
    rw [List.foldl_cons, order_foldl_insert ids]
    by_cases hx : x ∈ s.order
    · simp [OrderedOidSet.insert, hx]
    · simp only [OrderedOidSet.insert, hx, dite_false, List.append_assoc, List.singleton_append,
        List.filter_cons, decide_true, if_true, not_false_eq_true, List.eraseDups_cons, List.filter_filter]
      congr 3
      apply List.filter_congr
      intro y _
      by_cases hy : y = x <;> simp [hy]

namespace Walker

theorem misses_eq (cache : SortedMap ObjectId CommitGraphRecord) :
    ∀ (ids : List ObjectId) (seen : Finset ObjectId),
      misses cache seen ids = (ids.filter fun id => (cache.get id).isNone ∧ id ∉ seen).eraseDups
  | [], _ => rfl
  | x :: ids, seen => by
    simp only [misses, List.filter_cons, decide_eq_true_eq]
    split_ifs with h
    · rw [List.eraseDups_cons, misses_eq cache ids, List.filter_filter]
      congr 2
      apply List.filter_congr
      intro y _
      by_cases hy : y = x <;> simp [hy]
    · exact misses_eq cache ids seen

theorem mem_misses {cache : SortedMap ObjectId CommitGraphRecord} {id : ObjectId} {ids : List ObjectId}
    {seen : Finset ObjectId} : id ∈ misses cache seen ids ↔ id ∈ ids ∧ cache.get id = none ∧ id ∉ seen := by
  rw [misses_eq, List.mem_eraseDups, List.mem_filter]
  simp

/-- The cache after a fetch: the records fetched, and those before it. -/
theorem get_cacheFetched {f : ObjectId → Except WalkError CommitGraphRecord} {id : ObjectId} :
    ∀ (ids : List ObjectId) (cache : SortedMap ObjectId CommitGraphRecord),
      (cacheFetched cache (ids.map fun id => (id, f id))).get id =
        if id ∈ ids then (f id).toOption.or (cache.get id) else cache.get id
  | [], cache => by simp [cacheFetched]
  | x :: ids, cache => by
    rw [List.map_cons]
    cases hf : f x with
    | ok r =>
      rw [cacheFetched, get_cacheFetched ids, SortedMap.get_insert]
      by_cases hx : id = x
      · subst hx; simp [hf, Except.toOption]
      · simp [hx]
    | error e =>
      rw [cacheFetched, get_cacheFetched ids]
      by_cases hx : id = x
      · subst hx; simp [hf, Except.toOption]
      · simp [hx]

end Walker

theorem toOption_fetchedAt (db : E.Db) (id : ObjectId) : (E.fetchedAt db id).toOption = E.infoAt db id := by
  unfold Env.fetchedAt
  cases E.infoAt db id with
  | some r => rfl
  | none => cases E.objectAt db id <;> rfl

/-! ## Repositories given by a list of objects

A store that holds just the objects and records of two lists, under packages
that know just those objects: zlib at compression level 0, which stores its
input in one block, and parsers that are tables. -/

/-- The id of a sha1 hash, as a number. -/
def sha1Id (hash : Nat) : ObjectId where
  kind := .sha1
  bytes := (List.range 20).map fun i => UInt8.ofNat (hash / 256 ^ (19 - i))
  len := by simp [HashKind.lenInBytes]

/-- The bytes of a text. -/
def ascii (text : String) : Bytes := text.toList.map fun c => UInt8.ofNat c.toNat

/-- The Adler-32 checksum of a zlib stream. -/
def adler32 (content : Bytes) : Bytes :=
  let (a, b) := content.foldl (fun (a, b) byte => ((a + byte.toNat) % 65521, (b + a + byte.toNat) % 65521)) (1, 0)
  [b / 256, b, a / 256, a].map UInt8.ofNat

/-- A zlib stream of one stored block. -/
def storedStream (content : Bytes) : Bytes :=
  [0x78, 0x01, 0x01] ++ [content.length, content.length / 256, 65535 - content.length,
    (65535 - content.length) / 256].map UInt8.ofNat ++ content ++ adler32 content

theorem take_drop_storedStream (content : Bytes) : ((storedStream content).drop 7).take content.length = content := by
  simp [storedStream]

/-- zlib at level 0. -/
def storedZlib : Zlib where
  deflate content _ := storedStream content
  inflate stream len :=
    if storedStream ((stream.drop 7).take len) = stream then some ((stream.drop 7).take len) else none
  inflate_deflate content _ := by simp [take_drop_storedStream]

/-- What parsers say of a list of sha1 objects. -/
structure ParseTable where
  commits : List (Bytes × CommitRef)
  tags : List (Bytes × TagRef)
  trees : List (Bytes × List TreeEntryRef)
  commits_sha1 : ∀ c ∈ commits, c.2.tree.kind = .sha1 ∧ ∀ p ∈ c.2.parents, p.kind = .sha1

theorem ParseTable.sha1_nil : ∀ c ∈ ([] : List (Bytes × CommitRef)),
    c.2.tree.kind = .sha1 ∧ ∀ p ∈ c.2.parents, p.kind = .sha1 := by simp

/-- Parsers that know the objects of a table. -/
def ParseTable.gix (t : ParseTable) : Gix where
  commitFromBytes b k := if k = .sha1 then t.commits.lookup b else none
  tagFromBytes b k := if k = .sha1 then t.tags.lookup b else none
  treeEntries b k := if k = .sha1 then ((t.trees.lookup b).getD []).map some else [none]
  commit_kind b k c h := by
    split_ifs at h with hk
    subst hk
    obtain ⟨l₁, l₂, heq, -⟩ := List.lookup_eq_some_iff.1 h
    exact t.commits_sha1 (b, c) (by simp [heq])

/-- The packages for a table's objects, with commit-graph records as bytes. -/
def ParseTable.env (t : ParseTable) (inlineThreshold : Nat) : Env where
  gix := t.gix
  zlib := storedZlib
  codec := .bytes
  inlineThreshold
  compressionLevel := 0

/-- The record of an object held inline. -/
def Env.inlineRecord (E : Env) (kind : Kind) (body : Bytes) : ObjectRecord :=
  match kind with
  | .blob => .blobInline body.length (ObjectDb.compress E body)
  | .tree => .tree body.length (ObjectDb.compress E body)
  | .commit => .commit body.length (ObjectDb.compress E body)
  | .tag => .tag body.length (ObjectDb.compress E body)

/-- A store holding the listed objects and commit-graph records. -/
def Env.storeOf (E : Env) (objects : List (ObjectId × Kind × Bytes)) (graph : List (ObjectId × CommitGraphRecord)) :
    E.Db :=
  { (Db.empty : E.Db) with
    objects := fun oid => (objects.lookup oid).map fun (kind, body) => E.inlineRecord kind body
    graph := fun oid => (graph.lookup oid).map E.codec.encode }

section StoreOf

variable {objects : List (ObjectId × Kind × Bytes)} {graph : List (ObjectId × CommitGraphRecord)}

theorem objectAt_storeOf (oid : ObjectId) : E.objectAt (E.storeOf objects graph) oid = objects.lookup oid := by
  simp only [Env.objectAt, Env.storeOf]
  cases hl : objects.lookup oid with
  | none => rfl
  | some kb =>
    obtain ⟨kind, body⟩ := kb
    cases kind <;>
      simp [Env.inlineRecord, streamAt, ObjectDb.compress, E.zlib.inflate_deflate, ObjectRecord.kind]

theorem intact_storeOf : Intact E (E.storeOf objects graph) where
  object oid h := by
    rw [objectAt_storeOf]
    simpa [Env.storeOf] using h
  size oid record kind body hr ho := by
    rw [objectAt_storeOf] at ho
    simp only [Env.storeOf, ho, Option.map_some, Option.some.injEq] at hr
    subst hr
    cases kind <;> rfl

theorem mem_of_objectAt {oid : ObjectId} {kind : Kind} {body : Bytes}
    (h : E.objectAt (E.storeOf objects graph) oid = some (kind, body)) : (oid, kind, body) ∈ objects := by
  rw [objectAt_storeOf] at h
  obtain ⟨l₁, l₂, heq, -⟩ := List.lookup_eq_some_iff.1 h
  simp [heq]

theorem mem_of_graph {c : ObjectId} (h : ((E.storeOf objects graph).graph c).isSome) : ∃ r, (c, r) ∈ graph := by
  have h : (graph.lookup c).isSome := by simpa [Env.storeOf] using h
  obtain ⟨r, hr⟩ := Option.isSome_iff_exists.1 h
  obtain ⟨l₁, l₂, heq, -⟩ := List.lookup_eq_some_iff.1 hr
  exact ⟨r, by simp [heq]⟩

/-- A store whose records, listed, agree with the commits among its objects. -/
theorem indexed_storeOf
    (hcommits : (objects.all fun e => e.2.1 ≠ .commit || (E.gix.commitFromBytes e.2.2 e.1.kind).any fun commit =>
      ((E.graphAt (E.storeOf objects graph) e.1).toOption.bind id).any (fun r =>
        r.rootTree = commit.tree && r.parents = commit.parents) &&
        commit.parents.all fun p => (objects.lookup p).any fun o => o.1 = .commit) = true)
    (hgraph : (graph.all fun e => (objects.lookup e.1).any fun o => o.1 = .commit) = true) :
    Indexed E (E.storeOf objects graph) := by
  have hcommit : ∀ {c body}, E.objectAt (E.storeOf objects graph) c = some (.commit, body) →
      ∃ commit, E.gix.commitFromBytes body c.kind = some commit ∧
        (∃ r, E.graphAt (E.storeOf objects graph) c = .ok (some r) ∧ r.rootTree = commit.tree ∧
          r.parents = commit.parents) ∧
        ∀ p ∈ commit.parents, ((objects.lookup p).any fun o => o.1 = .commit) = true := by
    intro c body ho
    have hc := List.all_eq_true.1 hcommits _ (mem_of_objectAt ho)
    simp only [ne_eq, not_true_eq_false, decide_false, Bool.false_or, Option.any_eq_true, Bool.and_eq_true,
      decide_eq_true_eq, List.all_eq_true, Option.bind_eq_some_iff, id_eq] at hc
    obtain ⟨commit, hparse, ⟨r, ⟨found, hfound, rfl⟩, htree, hparents⟩, hall⟩ := hc
    have hread : E.graphAt (E.storeOf objects graph) c = .ok (some r) := by
      cases hg : E.graphAt (E.storeOf objects graph) c with
      | error e =>
        rw [hg] at hfound
        cases hfound
      | ok found =>
        rw [hg] at hfound
        exact congrArg Except.ok (Option.some.inj hfound)
    exact ⟨commit, hparse, ⟨r, hread, htree, hparents⟩, fun p hp => by simpa [Option.any_eq_true] using hall p hp⟩
  -- what is listed as a commit can be read as one
  have hlisted : ∀ {c}, ((objects.lookup c).any fun o => o.1 = .commit) = true →
      (E.commitAt (E.storeOf objects graph) c).isSome := by
    intro c hc
    obtain ⟨⟨kind, body⟩, hlookup, hkind⟩ := (Option.any_eq_true ..).1 hc
    obtain rfl : kind = .commit := of_decide_eq_true hkind
    have ho : E.objectAt (E.storeOf objects graph) c = some (.commit, body) := (objectAt_storeOf c).trans hlookup
    obtain ⟨commit, hparse, -⟩ := hcommit ho
    rw [commitAt_eq_some.2 ⟨body, ho, hparse⟩]
    rfl
  refine { toIntact := intact_storeOf, decodes := fun c body ho => ?_, record := fun c commit hc => ?_,
           onlyCommits := fun c hc => ?_, parents := fun c p hp => ?_ }
  · obtain ⟨commit, hparse, -⟩ := hcommit ho
    rw [hparse]
    rfl
  · obtain ⟨body, ho, hparse⟩ := commitAt_eq_some.1 hc
    obtain ⟨commit', hparse', hrecord, -⟩ := hcommit ho
    cases hparse.symm.trans hparse'
    exact hrecord
  · obtain ⟨r, hmem⟩ := mem_of_graph hc
    exact hlisted (List.all_eq_true.1 hgraph (c, r) hmem)
  · obtain ⟨commit, hc, hmem⟩ := hp
    obtain ⟨body, ho, hparse⟩ := commitAt_eq_some.1 hc
    obtain ⟨commit', hparse', -, hall⟩ := hcommit ho
    cases hparse.symm.trans hparse'
    exact hlisted (hall p hmem)

end StoreOf

/-! A small repository: a root commit of the empty tree, its child of a tree
with one file, and a tag of the child. -/

namespace Sample

def blobId : ObjectId := sha1Id 0x45b983be36b73c0788dc9cbcb76cbb80fc7bb057
def treeId : ObjectId := sha1Id 0xc49897f29f9819a0ab6850d7e22443508a1a29d5
def emptyTreeId : ObjectId := sha1Id 0x4b825dc642cb6eb9a060e54bf8d69288fbee4904
def rootId : ObjectId := sha1Id 0x1da828b304f7863e32a21dd6e1d19143b0c97a97
def tipId : ObjectId := sha1Id 0xb61cd6279760ffaab260f26ae26e8356b0fa887d
def tagId : ObjectId := sha1Id 0x3f41584301dda42188b0d637ee1e956a02814ac3

def blobBody : Bytes := ascii "hi\n"
def treeBody : Bytes := ascii "100644 a\x00" ++ blobId.bytes
def rootBody : Bytes := ascii
  "tree 4b825dc642cb6eb9a060e54bf8d69288fbee4904\nauthor m <m@m> 0 +0000\ncommitter m <m@m> 0 +0000\n\nr\n"
def tipBody : Bytes := ascii
  "tree c49897f29f9819a0ab6850d7e22443508a1a29d5\nparent 1da828b304f7863e32a21dd6e1d19143b0c97a97\n" ++ ascii
  "author m <m@m> 0 +0000\ncommitter m <m@m> 0 +0000\n\nt\n"
def tagBody : Bytes := ascii
  "object b61cd6279760ffaab260f26ae26e8356b0fa887d\ntype commit\ntag v\ntagger m <m@m> 0 +0000\n\nv\n"

def table : ParseTable where
  commits := [(rootBody, ⟨emptyTreeId, []⟩), (tipBody, ⟨treeId, [rootId]⟩)]
  tags := [(tagBody, ⟨tipId, .commit⟩)]
  trees := [(treeBody, [⟨.blob, ascii "a", blobId⟩])]
  commits_sha1 := by decide

def env : Env := table.env 1000

def objects : List (ObjectId × Kind × Bytes) :=
  [(blobId, .blob, blobBody), (treeId, .tree, treeBody), (emptyTreeId, .tree, []), (rootId, .commit, rootBody),
    (tipId, .commit, tipBody), (tagId, .tag, tagBody)]

def graph : List (ObjectId × CommitGraphRecord) := [(rootId, ⟨1, emptyTreeId, []⟩), (tipId, ⟨2, treeId, [rootId]⟩)]

def db : env.Db := env.storeOf objects graph

theorem objectAt_db (oid : ObjectId) : env.objectAt db oid = objects.lookup oid := objectAt_storeOf oid

theorem objectAt_root : env.objectAt db rootId = some (.commit, rootBody) := by rw [objectAt_db]; rfl

theorem objectAt_tip : env.objectAt db tipId = some (.commit, tipBody) := by rw [objectAt_db]; rfl

theorem tipBody_ne_rootBody : (tipBody == rootBody) = false := by decide +kernel

theorem parse_root : env.gix.commitFromBytes rootBody rootId.kind = some ⟨emptyTreeId, []⟩ := by
  simp [env, ParseTable.env, ParseTable.gix, rootId, sha1Id, table, List.lookup_cons]

theorem parse_tip : env.gix.commitFromBytes tipBody tipId.kind = some ⟨treeId, [rootId]⟩ := by
  simp [env, ParseTable.env, ParseTable.gix, tipId, sha1Id, table, List.lookup_cons, tipBody_ne_rootBody]

theorem commitAt_root : env.commitAt db rootId = some ⟨emptyTreeId, []⟩ :=
  commitAt_eq_some.2 ⟨rootBody, objectAt_root, parse_root⟩

theorem commitAt_tip : env.commitAt db tipId = some ⟨treeId, [rootId]⟩ :=
  commitAt_eq_some.2 ⟨tipBody, objectAt_tip, parse_tip⟩

theorem commitAt_blob : env.commitAt db blobId = none := by
  have hobj : env.objectAt db blobId = some (.blob, blobBody) := by rw [objectAt_db]; rfl
  simp [Env.commitAt, hobj]

theorem commit_mem {c : ObjectId} {body : Bytes} (h : env.objectAt db c = some (.commit, body)) :
    c = rootId ∨ c = tipId := by
  have hmem := mem_of_objectAt h
  simp only [objects, List.mem_cons, Prod.mk.injEq, List.not_mem_nil, reduceCtorEq] at hmem
  tauto

theorem graph_mem {c : ObjectId} (h : (db.graph c).isSome) : c = rootId ∨ c = tipId := by
  obtain ⟨r, hmem⟩ := mem_of_graph h
  simp only [graph, List.mem_cons, Prod.mk.injEq, List.not_mem_nil] at hmem
  tauto

theorem graphAt_root : env.graphAt db rootId = .ok (some ⟨1, emptyTreeId, []⟩) := by decide +kernel

theorem graphAt_tip : env.graphAt db tipId = .ok (some ⟨2, treeId, [rootId]⟩) := by decide +kernel

theorem indexed : Indexed env db := indexed_storeOf (by decide +kernel) (by decide +kernel)

theorem objectAt_tree : env.objectAt db treeId = some (.tree, treeBody) := by rw [objectAt_db]; rfl

theorem objectAt_emptyTree : env.objectAt db emptyTreeId = some (.tree, []) := by rw [objectAt_db]; rfl

theorem treeAt_tree : env.treeAt db treeId = some [⟨.blob, ascii "a", blobId⟩] :=
  treeAt_eq_some.2 ⟨treeBody, objectAt_tree, by
    simp [env, ParseTable.env, ParseTable.gix, treeId, sha1Id, table, List.lookup_cons]⟩

theorem treeAt_emptyTree : env.treeAt db emptyTreeId = some [] :=
  treeAt_eq_some.2 ⟨[], objectAt_emptyTree, rfl⟩

theorem tree_mem {t : ObjectId} {body : Bytes} (h : env.objectAt db t = some (.tree, body)) :
    t = treeId ∨ t = emptyTreeId := by
  have hmem := mem_of_objectAt h
  simp only [objects, List.mem_cons, Prod.mk.injEq, List.not_mem_nil, reduceCtorEq] at hmem
  tauto

theorem typed : TreesTyped env db where
  decodes t body h := by
    rcases tree_mem h with rfl | rfl
    · simp [treeAt_tree]
    · simp [treeAt_emptyTree]
  root c commit h := by
    obtain ⟨body, ho, -⟩ := commitAt_eq_some.1 h
    rcases commit_mem ho with rfl | rfl
    · cases commitAt_root.symm.trans h
      exact ⟨_, objectAt_emptyTree⟩
    · cases commitAt_tip.symm.trans h
      exact ⟨_, objectAt_tree⟩
  subtree t entries h e he hm := by
    obtain ⟨body, ho, -⟩ := treeAt_eq_some.1 h
    rcases tree_mem ho with rfl | rfl
    · cases treeAt_tree.symm.trans h
      simp only [List.mem_singleton] at he
      simp [he] at hm
    · cases treeAt_emptyTree.symm.trans h
      simp at he
  leaf t entries h e he _ _ := by
    obtain ⟨body, ho, -⟩ := treeAt_eq_some.1 h
    rcases tree_mem ho with rfl | rfl
    · cases treeAt_tree.symm.trans h
      simp only [List.mem_singleton] at he
      exact ⟨blobBody, by rw [he, objectAt_db]; rfl⟩
    · cases treeAt_emptyTree.symm.trans h
      simp at he

theorem peels_tag : env.PeelsToCommit db tagId ⟨[tagId], tipId⟩ := by
  have hobj : env.objectAt db tagId = some (.tag, tagBody) := by rw [objectAt_db]; rfl
  have hparse : env.gix.tagFromBytes tagBody tagId.kind = some ⟨tipId, .commit⟩ := by
    simp [env, ParseTable.env, ParseTable.gix, tagId, sha1Id, table, List.lookup_cons]
  refine ⟨.tag hobj hparse (.target objectAt_tip (by decide)), ?_⟩
  rw [commitAt_tip]
  rfl

theorem generations : Generations env db := by
  intro c r hr
  have hsome : (db.graph c).isSome := by
    cases hg : db.graph c with
    | none => simp [Env.infoAt, Env.graphAt, hg] at hr
    | some v => rfl
  have hroot : env.infoAt db rootId = some ⟨1, emptyTreeId, []⟩ := by rw [Env.infoAt, graphAt_root]
  have htip : env.infoAt db tipId = some ⟨2, treeId, [rootId]⟩ := by rw [Env.infoAt, graphAt_tip]
  rcases graph_mem hsome with rfl | rfl
  · cases hroot.symm.trans hr
    rfl
  · cases htip.symm.trans hr
    simp [hroot]

end Sample

end Miscreant
