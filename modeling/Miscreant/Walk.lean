/-
Fetch object discovery (`src/git/walk.rs`): which commits to send (Phase I,
`selectCommits`) and which trees, blobs and tags they require (Phase II,
`collect`), with the commit-graph records both read and the two ways those
records are recomputed (`backfillCommitInfo`, `rebuildCommitGraph`).

The concurrent batches of the source (`buffered`) are run here in input
order, which is the order their results are consumed in. That is what they do
where their parts do not meet: reads of objects never do, and lookups of
records do not where every commit has one (`prefetchRecords_concurrent`).
Lookups that meet in missing records are run as pools of threads
(`Miscreant.BackfillFacts`). `HashSet`s are
finite sets and `HashMap`s finite maps; none of the loops iterates over one
in an order that reaches its result. A `fuel` bounds the turns of each
unbounded loop.
-/
import Miscreant.ObjectDb
import Miscreant.Lib.MaxHeap
import Mathlib.Data.Finset.Basic

namespace Miscreant

open Lib

def MAX_REBUILD_SYMREF_DEPTH : Nat := 5
def MAX_REBUILD_TAG_PEEL_DEPTH : Nat := 5

/-- `WalkError`. -/
inductive WalkError
  | store (e : StoreError)
  | objects (e : ObjectDbError)
  | unknownWant (oid : ObjectId)
  | unsupportedWant (oid : ObjectId) (kind : Kind)
  | missingObject (oid : ObjectId)
  | unexpectedKind (oid : ObjectId) (expected actual : Kind)
  | decode (oid : ObjectId)
  | discoveryStalled (unresolved : Finset ObjectId)
  deriving DecidableEq

/-- A partial-clone filter. -/
inductive FilterSpec
  | none
  | blobNone
  | blobLimit (limit : Nat)
  deriving DecidableEq, Repr

/-- The outcome of commit discovery (Phase I). -/
structure Selection where
  toSend : List ObjectId
  common : List ObjectId
  boundedByHaves : Bool
  deriving DecidableEq, Repr

/-- Raw fetch wants split by how they are served. -/
structure WantPartition where
  history : List ObjectId
  direct : List ObjectId
  deriving DecidableEq, Repr

/-- A commit's role during discovery. -/
inductive Flag
  | Want
  | Have
  deriving DecidableEq, Repr

/-- A frontier entry, ordered by generation, then id. -/
structure QueueEntry where
  generation : UInt32
  oid : ObjectId
  deriving Repr

/-- What `QueueEntry`'s order compares. -/
def QueueEntry.ordKey (e : QueueEntry) : Lex (Nat × ObjectId) := toLex (e.generation.toNat, e.oid)

theorem QueueEntry.ordKey_injective : Function.Injective QueueEntry.ordKey := by
  rintro ⟨g, o⟩ ⟨g', o'⟩ h
  simp only [ordKey, EmbeddingLike.apply_eq_iff_eq, Prod.mk.injEq, UInt32.toNat_inj] at h
  obtain ⟨rfl, rfl⟩ := h
  rfl

instance : LinearOrder QueueEntry := LinearOrder.lift' QueueEntry.ordKey QueueEntry.ordKey_injective

/-- Mutable state of the Phase I walk. -/
structure Discovery where
  frontier : MaxHeap QueueEntry
  state : SortedMap ObjectId Flag
  /-- Commits marked WANT and not yet emitted or downgraded. -/
  pending : Finset ObjectId

def Discovery.default : Discovery := ⟨.empty, .empty, ∅⟩

/-- `Discovery::mark`. -/
def Discovery.mark (d : Discovery) (id : ObjectId) (flag : Flag) (generation : UInt32) : Discovery :=
  match d.state.get id, flag with
  | some .Have, _ | some .Want, .Want => d
  | some .Want, .Have =>
    { frontier := d.frontier.push ⟨generation, id⟩
      state := d.state.insert id .Have
      pending := d.pending.erase id }
  | none, .Have =>
    { d with
      frontier := d.frontier.push ⟨generation, id⟩
      state := d.state.insert id .Have }
  | none, .Want =>
    { frontier := d.frontier.push ⟨generation, id⟩
      state := d.state.insert id .Want
      pending := insert id d.pending }

/-- A tree entry relevant to the walk, with its name when asked for. -/
inductive TreeEntry
  | subtree (oid : ObjectId) (name : Option Bytes)
  | leaf (oid : ObjectId) (name : Option Bytes)
  deriving DecidableEq, Repr

/-- An insertion-ordered set of object ids. -/
structure OrderedOidSet where
  order : List ObjectId
  nodup : order.Nodup

namespace OrderedOidSet

def default : OrderedOidSet := ⟨[], .nil⟩

/-- `OrderedOidSet::insert`. -/
def insert (s : OrderedOidSet) (id : ObjectId) : OrderedOidSet :=
  if h : id ∈ s.order then s
  else ⟨s.order ++ [id], by simpa using s.nodup.concat h⟩

/-- `OrderedOidSet::contains`. -/
def contains (s : OrderedOidSet) (id : ObjectId) : Bool := decide (id ∈ s.order)

/-- `OrderedOidSet::into_vec`. -/
def intoVec (s : OrderedOidSet) : List ObjectId := s.order

end OrderedOidSet

/-- The Phase II object set, with one path for each blob reached through a
tree. -/
structure CollectedObjects where
  objects : List ObjectId
  blobPaths : SortedMap ObjectId Bytes

/-- `join_path`. -/
def joinPath (parent name : Bytes) : Bytes :=
  if parent.isEmpty then name else parent ++ [UInt8.ofNat '/'.toNat] ++ name

namespace Walker

variable (E : Env)

/-! ## Commit-graph records -/

/-- `Walker::parse_commit`. -/
def parseCommit (id : ObjectId) : E.Prog WalkError (ObjectId × List ObjectId) := do
  match ← (ObjectDb.get E id).mapErr .objects with
  | none => .fail (.missingObject id)
  | some (kind, body) =>
    if kind ≠ .commit then .fail (.unexpectedKind id .commit kind)
    else
      match E.gix.commitFromBytes body id.kind with
      | none => .fail (.decode id)
      | some commit => pure (commit.tree, commit.parents)

/-- `1 + max(parent generations)`, `1` when none is known, as a `u32`. -/
def nextGeneration (generations : SortedMap ObjectId UInt32) (parents : List ObjectId) : UInt32 :=
  1 + (parents.filterMap generations.get).foldl max 0

/-- The parsed commits of a traversal: `id`'s entry, parsing it the first
time it is asked for. -/
def parsedCommit (parsed : SortedMap ObjectId (ObjectId × List ObjectId)) (id : ObjectId) :
    E.Prog WalkError ((ObjectId × List ObjectId) × SortedMap ObjectId (ObjectId × List ObjectId)) :=
  match parsed.get id with
  | some entry => pure (entry, parsed)
  | none => do
    let entry ← parseCommit E id
    pure (entry, parsed.insert id entry)

/-- The state of a backfill: its stack (top first), the commits parsed, the
generations resolved, and the target's record once computed. -/
structure Backfill where
  stack : List ObjectId
  parsed : SortedMap ObjectId (ObjectId × List ObjectId)
  generations : SortedMap ObjectId UInt32
  result : Option CommitGraphRecord

/-- The parents whose generation is not yet resolved. -/
def missingParents (generations : SortedMap ObjectId UInt32) (parents : List ObjectId) : List ObjectId :=
  parents.filter fun parent => (generations.get parent).isNone

/-- One turn of the loop of `Walker::backfill_commit_info`. -/
def backfillStep (target : ObjectId) (s : Backfill) :
    E.Prog WalkError (Backfill ⊕ Option CommitGraphRecord) :=
  match s.stack with
  | [] => pure (.inr s.result)
  | top :: rest =>
    if (s.generations.get top).isSome then pure (.inl { s with stack := rest })
    else do
      match ← (Store.getCommitGraph E.codec top).mapErr .store with
      | some record =>
        pure (.inl { s with generations := s.generations.insert top record.generation, stack := rest })
      | none =>
        let ((rootTree, parents), parsed) ← parsedCommit E s.parsed top
        let missing := missingParents s.generations parents
        if missing.isEmpty then do
          let generation := nextGeneration s.generations parents
          let record : CommitGraphRecord := { generation, rootTree, parents }
          Store.putCommitGraph E.codec top record .relaxed
          pure (.inl
            { stack := rest
              parsed
              generations := s.generations.insert top generation
              result := if top = target then some record else s.result })
        else pure (.inl { s with parsed, stack := missing.reverse ++ s.stack })

/-- `Walker::backfill_commit_info`. -/
def backfillCommitInfo (fuel : Nat) (target : ObjectId) : E.Prog WalkError CommitGraphRecord := do
  let result ← Prog.loop (backfillStep E target) fuel
    { stack := [target], parsed := .empty, generations := .empty, result := none }
  match result with
  | some record => pure record
  | none => .fail (.missingObject target)

/-- `Walker::get_commit_info`. -/
def getCommitInfo (fuel : Nat) (id : ObjectId) : E.Prog WalkError CommitGraphRecord := do
  match ← (Store.getCommitGraph E.codec id).mapErr .store with
  | some record => pure record
  | none => backfillCommitInfo E fuel id

/-- `Walker::prefetch_records`: the ids not in `cache`, in first-seen order. -/
def misses (cache : SortedMap ObjectId CommitGraphRecord) : Finset ObjectId → List ObjectId → List ObjectId
  | _, [] => []
  | seen, id :: ids =>
    if (cache.get id).isNone ∧ id ∉ seen then id :: misses cache (insert id seen) ids
    else misses cache seen ids

/-- The cache with what was fetched. -/
def cacheFetched (cache : SortedMap ObjectId CommitGraphRecord) :
    List (ObjectId × Except WalkError CommitGraphRecord) → SortedMap ObjectId CommitGraphRecord
  | [] => cache
  | (id, .ok record) :: fetched => cacheFetched (cache.insert id record) fetched
  | (_, .error _) :: fetched => cacheFetched cache fetched

/-- `Walker::prefetch_records`: what was fetched, and the cache with it. The
source has up to `WALK_LOOKAHEAD` of the lookups under way at a time. -/
def prefetchRecords (fuel : Nat) (cache : SortedMap ObjectId CommitGraphRecord) (ids : List ObjectId) :
    E.Prog WalkError
      (List (ObjectId × Except WalkError CommitGraphRecord) × SortedMap ObjectId CommitGraphRecord) := do
  let fetched ← Prog.forEach (fun id => do
    let record ← (getCommitInfo E fuel id).attempt
    pure (id, record)) (misses cache ∅ ids)
  pure (fetched, cacheFetched cache fetched)

/-! ## Rebuild -/

/-- The state of a rebuild's traversal. -/
structure Rebuild where
  stack : List ObjectId
  parsed : SortedMap ObjectId (ObjectId × List ObjectId)
  generations : SortedMap ObjectId UInt32

/-- One turn of the loop of `Walker::rebuild_commit_graph`. Unlike a
backfill's it never reads a stored record. -/
def rebuildStep (s : Rebuild) : E.Prog WalkError (Rebuild ⊕ Rebuild) :=
  match s.stack with
  | [] => pure (.inr s)
  | top :: rest =>
    if (s.generations.get top).isSome then pure (.inl { s with stack := rest })
    else do
      let ((rootTree, parents), parsed) ← parsedCommit E s.parsed top
      let missing := missingParents s.generations parents
      if missing.isEmpty then do
        let generation := nextGeneration s.generations parents
        Store.putCommitGraph E.codec top { generation, rootTree, parents } .relaxed
        pure (.inl { stack := rest, parsed, generations := s.generations.insert top generation })
      else pure (.inl { s with parsed, stack := missing.reverse ++ s.stack })

/-- The roots of a rebuild, one after another. -/
def rebuildRoots (fuel : Nat) : List ObjectId → Rebuild → E.Prog WalkError Rebuild
  | [], s => pure s
  | root :: roots, s =>
    if (s.generations.get root).isSome then rebuildRoots fuel roots s
    else do
      let s ← Prog.loop (rebuildStep E) fuel { s with stack := [root] }
      rebuildRoots fuel roots s

/-- The symref loop of `Walker::resolve_commit_tip`. -/
def followSymrefs {ε : Type} : Nat → RefTarget → E.Prog ε (Option ObjectId)
  | 0, _ => pure none
  | _ + 1, .direct id => pure (some id)
  | n + 1, .reference name => do
    match ← Store.getRef name with
    | some next => followSymrefs n next
    | none => pure none

/-- The tag loop of `Walker::resolve_commit_tip`. -/
def peelTip : Nat → ObjectId → E.Prog WalkError (Option ObjectId)
  | 0, _ => pure none
  | n + 1, cursor => do
    match ← (ObjectDb.get E cursor).mapErr .objects with
    | none => pure none
    | some (.commit, _) => pure (some cursor)
    | some (.tag, body) =>
      match E.gix.tagFromBytes body cursor.kind with
      | none => .fail (.decode cursor)
      | some tag => peelTip n tag.target
    | some (_, _) => pure none

/-- `Walker::resolve_commit_tip`. -/
def resolveCommitTip (target : RefTarget) : E.Prog WalkError (Option ObjectId) := do
  match ← followSymrefs E MAX_REBUILD_SYMREF_DEPTH target with
  | none => pure none
  | some cursor => peelTip E MAX_REBUILD_TAG_PEEL_DEPTH cursor

/-- `Walker::rebuild_commit_graph`. -/
def rebuildCommitGraph (fuel : Nat) : E.Prog WalkError Nat := do
  let refs ← Store.listRefs
  let tips ← Prog.forEach (fun (_, target) => resolveCommitTip E target) refs
  let s ← rebuildRoots E fuel (tips.filterMap id) { stack := [], parsed := .empty, generations := .empty }
  Store.flush
  pure s.generations.entries.length

/-! ## Phase I: commit discovery -/

/-- `Walker::peel_want`'s loop: the cursor and the tags walked through. -/
def peelStep (want : ObjectId) (s : ObjectId × List ObjectId) :
    E.Prog WalkError ((ObjectId × List ObjectId) ⊕ (ObjectId × List ObjectId)) := do
  let (cursor, tags) := s
  match ← (ObjectDb.get E cursor).mapErr .objects with
  | none => .fail (if cursor = want then .unknownWant want else .missingObject cursor)
  | some (.commit, _) => pure (.inr (cursor, tags))
  | some (.tag, body) =>
    match E.gix.tagFromBytes body cursor.kind with
    | none => .fail (.decode cursor)
    | some tag => pure (.inl (tag.target, tags ++ [cursor]))
  | some (kind, _) => .fail (.unsupportedWant cursor kind)

/-- `Walker::peel_want`. -/
def peelWant (fuel : Nat) (want : ObjectId) : E.Prog WalkError (ObjectId × List ObjectId) :=
  Prog.loop (peelStep E want) fuel (want, [])

/-- `Walker::peel_wants`: the commit wants in want order, and the tag objects
on their chains in first-seen order. -/
def peelWants (fuel : Nat) (wants : List ObjectId) : E.Prog WalkError (List ObjectId × List ObjectId) := do
  let chains ← Prog.forEach (fun want => (peelWant E fuel want).attempt) wants
  let chains ← Prog.forEach Prog.ofExcept chains
  pure (chains.map (·.1), (chains.flatMap (·.2)).foldl .insert OrderedOidSet.default |>.intoVec)

/-- The state of `Walker::select_commits`' main loop. -/
structure Select where
  discovery : Discovery
  records : SortedMap ObjectId CommitGraphRecord
  toSend : List ObjectId
  done : Finset ObjectId

/-- The haves of a batch of fetched records: the recognized ones are marked
and reported, one that names no commit is dropped, any other error is the
call's. -/
def markHaves : List (ObjectId × Except WalkError CommitGraphRecord) → Discovery → List ObjectId →
    Except WalkError (Discovery × List ObjectId)
  | [], d, common => .ok (d, common)
  | (have_, .ok info) :: rest, d, common =>
    markHaves rest (d.mark have_ .Have info.generation) (common ++ [have_])
  | (have_, .error (.missingObject missing)) :: rest, d, common =>
    if missing = have_ then markHaves rest d common else .error (.missingObject missing)
  | (have_, .error (.unexpectedKind oid expected actual)) :: rest, d, common =>
    if oid = have_ then markHaves rest d common else .error (.unexpectedKind oid expected actual)
  | (_, .error err) :: _, _, _ => .error err

/-- The commit wants of a batch of fetched records. -/
def markWants : List (ObjectId × Except WalkError CommitGraphRecord) → Discovery →
    Except WalkError Discovery
  | [], d => .ok d
  | (want, .ok record) :: rest, d => markWants rest (d.mark want .Want record.generation)
  | (_, .error err) :: _, _ => .error err

/-- The ids of a drained level: neither visited before nor repeated. -/
def levelOf (done : Finset ObjectId) : Finset ObjectId → List QueueEntry → List ObjectId
  | _, [] => []
  | seen, entry :: entries =>
    if entry.oid ∉ done ∧ entry.oid ∉ seen then entry.oid :: levelOf done (insert entry.oid seen) entries
    else levelOf done seen entries

/-- Mark the parents of a visited commit with its flag. A parent without a
cached record would panic. -/
def markParents (records : SortedMap ObjectId CommitGraphRecord) (flag : Flag) :
    List ObjectId → Discovery → Option Discovery
  | [], d => some d
  | parent :: parents, d =>
    match records.get parent with
    | none => none
    | some record => markParents records flag parents (d.mark parent flag record.generation)

/-- The parents in a cached record. -/
def cachedParents (records : SortedMap ObjectId CommitGraphRecord) (id : ObjectId) : List ObjectId :=
  ((records.get id).map (·.parents)).getD []

/-- Visit one commit of a level. -/
def visit (s : Select) (id : ObjectId) : Option Select :=
  if id ∈ s.done then some s
  else
    let s := { s with done := insert id s.done }
    match s.discovery.state.get id with
    | none => some s
    | some flag =>
      let s := if flag = .Want then
          { s with
            toSend := s.toSend ++ [id]
            discovery := { s.discovery with pending := s.discovery.pending.erase id } }
        else s
      (markParents s.records flag (cachedParents s.records id) s.discovery).map fun d =>
        { s with discovery := d }

/-- Visit the commits of a level in order. -/
def visitAll : List ObjectId → Select → Option Select
  | [], s => some s
  | id :: ids, s => (visit s id).bind (visitAll ids)

/-- One turn of `Walker::select_commits`' main loop: one commit-graph
generation of the frontier. -/
def selectStep (fuel : Nat) (s : Select) : E.Prog WalkError (Select ⊕ Select) :=
  if s.discovery.pending = ∅ then pure (.inr s)
  else
    match s.discovery.frontier.peek with
    | none => .fail (.discoveryStalled s.discovery.pending)
    | some top => do
      let (drained, frontier) := s.discovery.frontier.popWhile fun entry => entry.generation = top.generation
      let level := levelOf s.done ∅ drained
      let parents := level.flatMap (cachedParents s.records)
      let (fetched, records) ← prefetchRecords E fuel s.records parents
      let _ ← Prog.forEach (fun (_, record) => Prog.ofExcept record) fetched
      let s ← Prog.ofOption (visitAll level { s with discovery := { s.discovery with frontier }, records })
      pure (.inl s)

/-- `Walker::select_commits`. -/
def selectCommits (fuel : Nat) (wants haves : List ObjectId) : E.Prog WalkError Selection := do
  let (fetched, records) ← prefetchRecords E fuel .empty haves
  let (discovery, common) ← Prog.ofExcept (markHaves fetched .default [])
  let (commitWants, tags) ← peelWants E fuel wants
  let (fetched, records) ← prefetchRecords E fuel records commitWants
  let discovery ← Prog.ofExcept (markWants fetched discovery)
  let s ← Prog.loop (selectStep E fuel) fuel { discovery, records, toSend := [], done := ∅ }
  pure
    { toSend := s.toSend ++ tags
      common
      boundedByHaves := s.discovery.frontier.peek.isSome }

/-! ## Phase II: object collection -/

/-- `Walker::partition_wants`. -/
def partitionWants (wants : List ObjectId) : E.Prog WalkError WantPartition := do
  let sizes ← Prog.forEach (fun want => do
    let size ← ObjectDb.size E want
    pure (want, size)) wants
  let kinds ← Prog.forEach (fun ((want, size) : ObjectId × Option (Kind × Nat)) =>
    match size with
    | none => Prog.fail (.unknownWant want)
    | some (kind, _) => pure (want, kind)) sizes
  pure
    { history := (kinds.filter fun (_, kind) => kind = .commit ∨ kind = .tag).map (·.1)
      direct := ((kinds.filter fun (_, kind) => kind = .tree ∨ kind = .blob).map (·.1)).foldl .insert
        OrderedOidSet.default |>.intoVec }

/-- `Walker::object_sizes`, each absent record reported as missing. -/
def objectInfo (ids : List ObjectId) : E.Prog WalkError (List (ObjectId × Kind × Nat)) := do
  let sizes ← Prog.forEach (fun id => do
    let size ← ObjectDb.size E id
    pure (id, size)) ids
  Prog.forEach (fun ((id, size) : ObjectId × Option (Kind × Nat)) =>
    match size with
    | none => Prog.fail (.missingObject id)
    | some (kind, size) => pure (id, kind, size)) sizes

/-- The entries of a tree as `Walker::read_tree` keeps them: gitlinks are
dropped, and the first entry that does not decode is an error. -/
def treeEntries (id : ObjectId) (includeNames : Bool) : List (Option TreeEntryRef) →
    Except WalkError (List TreeEntry)
  | [] => .ok []
  | none :: _ => .error (.decode id)
  | some entry :: entries =>
    match treeEntries id includeNames entries with
    | .error e => .error e
    | .ok rest =>
      let name := if includeNames then some entry.filename else none
      match entry.mode with
      | .tree => .ok (.subtree entry.oid name :: rest)
      | .commit => .ok rest
      | _ => .ok (.leaf entry.oid name :: rest)

/-- `Walker::read_tree`. -/
def readTree (includeNames : Bool) (id : ObjectId) : E.Prog WalkError (List TreeEntry) := do
  match ← (ObjectDb.get E id).mapErr .objects with
  | none => .fail (.missingObject id)
  | some (kind, body) =>
    if kind ≠ .tree then .fail (.unexpectedKind id .tree kind)
    else .ofExcept (treeEntries id includeNames (E.gix.treeEntries body id.kind))

/-- `Walker::read_trees`. -/
def readTrees (ids : List ObjectId) (includeNames : Bool) : E.Prog WalkError (List (List TreeEntry)) := do
  let results ← Prog.forEach (fun id => (readTree E includeNames id).attempt) ids
  Prog.forEach Prog.ofExcept results

/-- The state of `Walker::expand_haves`: the have-set, and the trees of the
next level. -/
structure HaveLevel where
  haveObjects : Finset ObjectId
  level : List ObjectId

/-- Add a tree to the have-set, and to the level when it is new. -/
def HaveLevel.addTree (s : HaveLevel) (id : ObjectId) : HaveLevel :=
  if id ∈ s.haveObjects then s else ⟨insert id s.haveObjects, s.level ++ [id]⟩

/-- One tree entry of `Walker::expand_haves`. -/
def HaveLevel.addEntry (filter : FilterSpec) (s : HaveLevel) : TreeEntry → HaveLevel
  | .subtree child _ => s.addTree child
  | .leaf child _ => if filter = .blobNone then s else { s with haveObjects := insert child s.haveObjects }

/-- One level of `Walker::expand_haves`. -/
def expandStep (filter : FilterSpec) (s : HaveLevel) : E.Prog WalkError (HaveLevel ⊕ Finset ObjectId) :=
  if s.level.isEmpty then pure (.inr s.haveObjects)
  else do
    let entries ← readTrees E s.level false
    pure (.inl (entries.flatten.foldl (HaveLevel.addEntry filter) ⟨s.haveObjects, []⟩))

/-- `Walker::expand_haves`. -/
def expandHaves (fuel : Nat) (roots : List ObjectId) (filter : FilterSpec) :
    E.Prog WalkError (Finset ObjectId) :=
  Prog.loop (expandStep E filter) fuel (roots.foldl HaveLevel.addTree ⟨∅, []⟩)

/-- What a tree walk has collected: the objects and the blob paths. -/
structure Collected where
  objects : OrderedOidSet
  blobPaths : SortedMap ObjectId Bytes

/-- One level of `Walker::walk_tree` being read: what is collected, the next
level's trees and the blob candidates, each with its path. -/
structure TreeLevel where
  objects : OrderedOidSet
  next : List (ObjectId × Bytes)
  candidates : List (ObjectId × Bytes)
  candidateSeen : Finset ObjectId

/-- The path of an entry. Asking for the path of an unnamed entry would
panic. -/
def entryPath (recordPaths : Bool) (parentPath : Bytes) (name : Option Bytes) : Option Bytes :=
  if recordPaths then name.map (joinPath parentPath) else some []

/-- One tree entry of `Walker::walk_tree`. -/
def TreeLevel.addEntry (haveObjects : Finset ObjectId) (recordPaths : Bool) (parentPath : Bytes)
    (s : TreeLevel) : TreeEntry → Option TreeLevel
  | .subtree child name =>
    if ¬ s.objects.contains child ∧ child ∉ haveObjects then
      (entryPath recordPaths parentPath name).map fun path =>
        { s with objects := s.objects.insert child, next := s.next ++ [(child, path)] }
    else some s
  | .leaf child name =>
    if child ∉ haveObjects ∧ ¬ s.objects.contains child ∧ child ∉ s.candidateSeen then
      (entryPath recordPaths parentPath name).map fun path =>
        { s with
          candidates := s.candidates ++ [(child, path)]
          candidateSeen := insert child s.candidateSeen }
    else some s

/-- The entries of a level's trees, in order. -/
def TreeLevel.addEntries (haveObjects : Finset ObjectId) (recordPaths : Bool) :
    List (Bytes × TreeEntry) → TreeLevel → Option TreeLevel
  | [], s => some s
  | (parentPath, entry) :: rest, s =>
    (s.addEntry haveObjects recordPaths parentPath entry).bind
      (TreeLevel.addEntries haveObjects recordPaths rest)

/-- Collect an admitted blob, with its path when paths are recorded. -/
def Collected.addBlob (recordPaths : Bool) (c : Collected) (candidate : ObjectId × Bytes) : Collected where
  objects := c.objects.insert candidate.1
  blobPaths :=
    if recordPaths ∧ (c.blobPaths.get candidate.1).isNone then c.blobPaths.insert candidate.1 candidate.2
    else c.blobPaths

/-- `Walker::admit_blobs`. -/
def admitBlobs (candidates : List (ObjectId × Bytes)) (c : Collected) (filter : FilterSpec)
    (recordPaths : Bool) : E.Prog WalkError Collected :=
  match filter with
  | .none => pure (candidates.foldl (Collected.addBlob recordPaths) c)
  | .blobNone => pure c
  | .blobLimit limit => do
    let infos ← objectInfo E (candidates.map (·.1))
    pure (((candidates.zip infos).filter fun (_, _, _, size) => size ≤ limit).map (·.1)
      |>.foldl (Collected.addBlob recordPaths) c)

/-- One level of `Walker::walk_tree`. -/
def walkStep (haveObjects : Finset ObjectId) (filter : FilterSpec) (recordPaths : Bool)
    (s : Collected × List (ObjectId × Bytes)) :
    E.Prog WalkError ((Collected × List (ObjectId × Bytes)) ⊕ Collected) :=
  let (c, level) := s
  if level.isEmpty then pure (.inr c)
  else do
    let trees ← readTrees E (level.map (·.1)) recordPaths
    let entries := (level.zip trees).flatMap fun ((_, parentPath), entries) =>
      entries.map fun entry => (parentPath, entry)
    let read ← Prog.ofOption (TreeLevel.addEntries haveObjects recordPaths entries
      { objects := c.objects, next := [], candidates := [], candidateSeen := ∅ })
    let c ← admitBlobs E read.candidates { c with objects := read.objects } filter recordPaths
    pure (.inl (c, read.next))

/-- `Walker::walk_tree`. -/
def walkTree (fuel : Nat) (rootTree : ObjectId) (c : Collected) (haveObjects : Finset ObjectId)
    (filter : FilterSpec) (recordPaths : Bool) : E.Prog WalkError Collected :=
  Prog.loop (walkStep E haveObjects filter recordPaths) fuel
    (if ¬ c.objects.contains rootTree ∧ rootTree ∉ haveObjects then
      ({ c with objects := c.objects.insert rootTree }, [(rootTree, [])])
    else (c, []))

/-- The recognized haves' root trees, excusing haves as discovery does. -/
def haveRoots : List (ObjectId × Except WalkError CommitGraphRecord) → Except WalkError (List ObjectId)
  | [] => .ok []
  | (_, .ok info) :: rest => (haveRoots rest).map (info.rootTree :: ·)
  | (have_, .error (.missingObject missing)) :: rest =>
    if missing = have_ then haveRoots rest else .error (.missingObject missing)
  | (have_, .error (.unexpectedKind oid expected actual)) :: rest =>
    if oid = have_ then haveRoots rest else .error (.unexpectedKind oid expected actual)
  | (_, .error err) :: _ => .error err

/-- The send list of `Walker::collect_inner`, each object by its kind. A
commit without a cached record would panic. -/
def collectAll (fuel : Nat) (records : SortedMap ObjectId CommitGraphRecord) (haveObjects : Finset ObjectId)
    (filter : FilterSpec) (recordPaths : Bool) :
    List (ObjectId × Kind × Nat) → Collected → E.Prog WalkError Collected
  | [], c => pure c
  | (id, .commit, _) :: rest, c => do
    let record ← Prog.ofOption (records.get id)
    let c ← walkTree E fuel record.rootTree { c with objects := c.objects.insert id } haveObjects filter
      recordPaths
    collectAll fuel records haveObjects filter recordPaths rest c
  | (id, .tag, _) :: rest, c =>
    collectAll fuel records haveObjects filter recordPaths rest { c with objects := c.objects.insert id }
  | (id, actual, _) :: _, _ => .fail (.unexpectedKind id .commit actual)

/-- `Walker::collect_inner`. -/
def collectInner (fuel : Nat) (toSend haves : List ObjectId) (filter : FilterSpec) (recordPaths : Bool) :
    E.Prog WalkError CollectedObjects := do
  let (fetched, records) ← prefetchRecords E fuel .empty haves
  let roots ← Prog.ofExcept (haveRoots fetched)
  let haveObjects ← expandHaves E fuel roots filter
  let classified ← objectInfo E toSend
  let commitIds := (classified.filter fun (_, kind, _) => kind = .commit).map (·.1)
  let (fetched, records) ← prefetchRecords E fuel records commitIds
  let _ ← Prog.forEach (fun (_, record) => Prog.ofExcept record) fetched
  let c ← collectAll E fuel records haveObjects filter recordPaths classified ⟨.default, .empty⟩
  pure { objects := c.objects.intoVec, blobPaths := c.blobPaths }

/-- `Walker::collect`. -/
def collect (fuel : Nat) (toSend haves : List ObjectId) (filter : FilterSpec) :
    E.Prog WalkError (List ObjectId) := do
  let collected ← collectInner E fuel toSend haves filter false
  pure collected.objects

/-- `Walker::collect_with_paths`. -/
def collectWithPaths (fuel : Nat) (toSend haves : List ObjectId) (filter : FilterSpec) :
    E.Prog WalkError CollectedObjects :=
  collectInner E fuel toSend haves filter true

end Walker

end Miscreant
