/-
Serving leaves what is served alone.

A request to upload-pack reads, and may write commit-graph records
(`indexProg_uploadPack`); one that is no fetch writes nothing at all. So
however requests interleave, the objects and refs stay as they were, and a
listing of refs or of sizes answers as it would alone (`serving_isolated`).
-/
import Miscreant.FetchResponseFacts
import Miscreant.LookupFacts
import Miscreant.PromoteFacts
import Miscreant.Lib.Pool

namespace Miscreant

open Lib

variable {E : Env} {ε : Type}

/-! ## What only reads -/

/-- An operation that reads objects or refs. -/
def StoreOp.ReadsData {V : Type} : StoreOp V → Prop
  | .getObject _ | .blobGet _ | .getRef _ | .listRefs => True
  | _ => False

/-- A program that reads objects and refs and does nothing else. -/
abbrev ReadsData {α : Type} (p : E.Prog ε α) : Prop := p.AllOps StoreOp.ReadsData

theorem ReadsObjects.readsData {α : Type} {p : E.Prog ε α} (hp : ReadsObjects p) : ReadsData p :=
  hp.mono fun o ho => by cases o <;> first | exact ho.elim | trivial

theorem ReadsData.indexProg {α : Type} {p : E.Prog ε α} (hp : ReadsData p) : IndexProg p :=
  hp.mono fun o ho => by cases o <;> first | exact ho.elim | trivial

theorem readsObjects_readCompressed (oid : ObjectId) : ReadsObjects (ObjectDb.readCompressed E oid) := by
  refine Prog.AllOps.bind ⟨trivial, fun _ => trivial⟩ fun record => ?_
  cases record with
  | none => trivial
  | some record =>
    refine Prog.AllOps.bind ?_ fun _ => trivial
    cases record with
    | blobPointer size =>
      refine Prog.AllOps.bind ⟨trivial, fun _ => trivial⟩ fun bytes => ?_
      cases bytes <;> trivial
    | blobInline | tree | commit | tag => trivial

/-! ## Listings -/

theorem readsData_resolveFrom : ∀ (n : Nat) (target : RefTarget), ReadsData (UploadPack.resolveFrom E n target : E.Prog ε _)
  | 0, _ => trivial
  | _ + 1, .direct _ => trivial
  | n + 1, .reference name => by
    refine Prog.AllOps.bind ⟨trivial, fun _ => trivial⟩ fun next => ?_
    cases next with
    | none => trivial
    | some next => exact readsData_resolveFrom n next

theorem readsData_peelFrom : ∀ (n : Nat) (peeled : Bool) (current : ObjectId),
    ReadsData (UploadPack.peelFrom E n peeled current)
  | 0, _, _ => trivial
  | n + 1, _, current => by
    refine Prog.AllOps.bind (readsObjects_get current).readsData.mapErr fun object => ?_
    cases object with
    | none => trivial
    | some object =>
      dsimp only
      split
      · trivial
      · split
        · trivial
        · exact readsData_peelFrom n true _

theorem readsData_gatherFrom : ∀ (prefixes : List String) (refs : SortedMap String RefTarget),
    ReadsData (UploadPack.gatherFrom E prefixes refs : E.Prog ε _)
  | [], _ => trivial
  | p :: prefixes, _ => by
    refine Prog.AllOps.bind ?_ fun found => readsData_gatherFrom prefixes _
    exact ⟨trivial, fun _ => trivial⟩

theorem readsData_lsRef (args : LsRefsArgs) (name : String) (target : RefTarget) :
    ReadsData (UploadPack.lsRef E args name target) := by
  refine Prog.AllOps.bind (readsData_resolveFrom _ target) fun resolution => ?_
  cases resolution with
  | dangling => cases target <;> trivial
  | tooDeep => trivial
  | resolved oid =>
    dsimp only
    split
    · exact Prog.AllOps.bind (readsData_peelFrom _ false oid) fun _ => trivial
    · trivial

theorem readsData_lsRefsFrom (args : LsRefsArgs) : ∀ (refs : List (String × RefTarget)) (body : Bytes),
    ReadsData (UploadPack.lsRefsFrom E args refs body)
  | [], _ => trivial
  | (name, target) :: refs, body => by
    refine Prog.AllOps.bind (readsData_lsRef args name target) fun line => ?_
    cases line with
    | none => exact readsData_lsRefsFrom args refs body
    | some r => exact Prog.AllOps.bind (.ofExcept _) fun _ => readsData_lsRefsFrom args refs _

theorem readsData_buildLsRefs (args : LsRefsArgs) : ReadsData (UploadPack.buildLsRefs E args) := by
  refine Prog.AllOps.bind ?_ fun refs => Prog.AllOps.bind (readsData_lsRefsFrom args refs []) fun _ => trivial
  unfold UploadPack.gatherRefs
  split
  · exact ⟨trivial, fun _ => trivial⟩
  · exact Prog.AllOps.bind (readsData_gatherFrom _ _) fun _ => trivial

theorem readsData_objectInfoFrom : ∀ (oids : List ObjectId) (body : Bytes),
    ReadsData (UploadPack.objectInfoFrom E oids body : E.Prog ε _)
  | [], _ => trivial
  | oid :: oids, body => by
    refine Prog.AllOps.bind (Walker.readsObjects_size oid).readsData fun size => ?_
    cases size with
    | none => trivial
    | some size =>
      dsimp only
      split
      · trivial
      · exact readsData_objectInfoFrom oids _

/-! ## Fetches -/

namespace Walker

theorem indexProg_prefetchRecords (fuel : Nat) (cache : SortedMap ObjectId CommitGraphRecord) (ids : List ObjectId) :
    IndexProg (prefetchRecords E fuel cache ids) := by
  refine Prog.AllOps.bind (Prog.AllOps.forEach (fun id => ?_) _) fun _ => trivial
  exact (indexProg_getCommitInfo fuel id).attempt.bind fun _ => trivial

/-- The first error of a batch of records is the batch's. -/
theorem indexProg_firstError (fetched : List (ObjectId × Except WalkError CommitGraphRecord)) :
    IndexProg (Prog.forEach (fun (_, record) => Prog.ofExcept record) fetched : E.Prog WalkError _) :=
  Prog.AllOps.forEach (fun x => .ofExcept x.2) fetched

theorem indexProg_selectStep (fuel : Nat) (s : Select) : IndexProg (selectStep E fuel s) := by
  unfold selectStep
  split
  · trivial
  · split
    · trivial
    · exact Prog.AllOps.bind (indexProg_prefetchRecords ..) fun _ =>
        Prog.AllOps.bind (indexProg_firstError _) fun _ => Prog.AllOps.bind (.ofOption _) fun _ => trivial

theorem indexProg_selectCommits (fuel : Nat) (wants haves : List ObjectId) :
    IndexProg (selectCommits E fuel wants haves) :=
  Prog.AllOps.bind (indexProg_prefetchRecords ..) fun _ => Prog.AllOps.bind (.ofExcept _) fun _ =>
    Prog.AllOps.bind (readsObjects_peelWants fuel wants).indexProg fun _ =>
      Prog.AllOps.bind (indexProg_prefetchRecords ..) fun _ => Prog.AllOps.bind (.ofExcept _) fun _ =>
        Prog.AllOps.bind (Prog.AllOps.loop (indexProg_selectStep fuel) fuel _) fun _ => trivial

theorem indexProg_collectInner (fuel : Nat) (toSend haves : List ObjectId) (filter : FilterSpec) (recordPaths : Bool) :
    IndexProg (collectInner E fuel toSend haves filter recordPaths) :=
  Prog.AllOps.bind (indexProg_prefetchRecords ..) fun _ => Prog.AllOps.bind (.ofExcept _) fun _ =>
    Prog.AllOps.bind (readsObjects_expandHaves ..).indexProg fun _ =>
      Prog.AllOps.bind (readsObjects_objectInfo _).indexProg fun _ =>
        Prog.AllOps.bind (indexProg_prefetchRecords ..) fun _ => Prog.AllOps.bind (indexProg_firstError _) fun _ =>
          Prog.AllOps.bind (readsObjects_collectAll ..).indexProg fun _ => trivial

end Walker

namespace UploadPack

open Walker

theorem indexProg_planPack (fuel : Nat) (wants haves : List ObjectId) (filter : FilterSpec) (ofsDeltas : Bool) :
    IndexProg (planPack E fuel wants haves filter ofsDeltas) := by
  refine Prog.AllOps.bind (readsObjects_partitionWants wants).indexProg fun partition => ?_
  split
  · trivial
  · refine Prog.AllOps.bind (indexProg_selectCommits ..) fun selection => ?_
    cases ofsDeltas with
    | true =>
      exact Prog.AllOps.bind (indexProg_collectInner ..) fun _ =>
        Prog.AllOps.bind (readsObjects_scheduleForOfs _).indexProg fun _ => trivial
    | false =>
      refine Prog.AllOps.bind (Prog.AllOps.bind (indexProg_collectInner ..) fun _ => trivial) fun _ => ?_
      trivial

theorem readsObjects_feedObjects : ∀ objects : List ScheduledObject, ReadsObjects (feedObjects E objects : E.Prog ε _)
  | [] => trivial
  | object :: rest => by
    refine Prog.AllOps.bind (readsObjects_readCompressed object.oid).attempt fun found => ?_
    match found with
    | .ok none => trivial
    | .ok (some (kind, size, zlib)) => exact Prog.AllOps.bind (readsObjects_feedObjects rest) fun _ => trivial
    | .error e => trivial

theorem readsObjects_streamPackResponse (G : PackBytes) (objectHash : HashKind) (objects : List ScheduledObject)
    (lead : Bytes) (sideband noProgress ofsDeltas : Bool) :
    ReadsObjects (streamPackResponse E G objectHash objects lead sideband noProgress ofsDeltas : E.Prog ε _) := by
  refine Prog.AllOps.bind (readsObjects_feedObjects objects) fun items => ?_
  split <;> trivial

theorem indexProg_fetch (G : PackBytes) (fuel : Nat) (objectHash : HashKind) (args : List String) :
    IndexProg (fetch E G fuel objectHash args : E.Prog ε _) := by
  unfold fetch
  split
  · trivial
  · split
    · trivial
    · refine Prog.AllOps.bind (indexProg_planPack ..).attempt fun plan => ?_
      cases plan with
      | error e => trivial
      | ok plan =>
        dsimp only
        split
        · trivial
        · split
          · trivial
          · exact (readsObjects_streamPackResponse ..).indexProg

/-- What is no fetch only reads. -/
theorem readsData_dispatch (G : PackBytes) (fuel : Nat) (objectHash : HashKind) {request : Request}
    (h : request.command ≠ "fetch") : ReadsData (dispatch E G fuel objectHash request : E.Prog ε _) := by
  rw [dispatch, if_neg h]
  split
  · unfold lsRefsResponse
    split
    · trivial
    · refine Prog.AllOps.bind (readsData_buildLsRefs _).attempt fun body => ?_
      cases body <;> trivial
  · split
    · trivial
    · split
      · unfold objectInfo
        split
        · trivial
        · split
          · trivial
          · exact readsData_objectInfoFrom _ _
      · trivial

theorem indexProg_dispatch (G : PackBytes) (fuel : Nat) (objectHash : HashKind) (request : Request) :
    IndexProg (dispatch E G fuel objectHash request : E.Prog ε _) := by
  by_cases h : request.command = "fetch"
  · have hls : request.command ≠ "ls-refs" := by
      rw [h]
      decide
    rw [dispatch, if_neg hls, if_pos h]
    exact indexProg_fetch ..
  · exact (readsData_dispatch G fuel objectHash h).indexProg

theorem indexProg_uploadPack (G : PackBytes) (fuel : Nat) (objectHash : HashKind) (body : Bytes) :
    IndexProg (uploadPack E G fuel objectHash body : E.Prog ε _) := by
  unfold uploadPack
  split
  · trivial
  · split
    · trivial
    · exact indexProg_dispatch ..

end UploadPack

theorem UploadPackV0.indexProg_uploadPack (G : UploadPack.PackBytes) (fuel : Nat) (objectHash : HashKind) (body : Bytes) :
    IndexProg (UploadPackV0.uploadPack E G fuel objectHash body : E.Prog ε _) := by
  unfold UploadPackV0.uploadPack
  split
  · trivial
  · trivial
  · split
    · trivial
    · split
      · refine Prog.AllOps.bind (Prog.AllOps.attempt (Prog.AllOps.bind
          (UploadPack.indexProg_planPack ..).mapErr fun plan => ?_)) fun round => ?_
        · split
          · trivial
          · exact Prog.AllOps.bind (.ofExcept _) fun _ => trivial
        · cases round with
          | error e => trivial
          | ok round => exact (UploadPack.readsObjects_streamPackResponse ..).indexProg
      · refine Prog.AllOps.bind (Prog.AllOps.attempt (Prog.AllOps.bind
          (Walker.readsObjects_partitionWants _).indexProg.mapErr fun _ => Prog.AllOps.bind
            (Walker.indexProg_selectCommits ..).mapErr fun _ => .ofExcept _)) fun round => ?_
        cases round <;> trivial

/-! ## Interleaved -/

/-- A request to upload-pack of either protocol, with its fuel. -/
inductive UploadPackRequest
  | v2 (fuel : Nat) (body : Bytes)
  | v0 (fuel : Nat) (body : Bytes)

/-- The program that answers it. -/
def UploadPackRequest.prog (E : Env) (G : UploadPack.PackBytes) (objectHash : HashKind) :
    UploadPackRequest → E.Prog Empty ReceivePack.Response
  | v2 fuel body => UploadPack.uploadPack E G fuel objectHash body
  | v0 fuel body => UploadPackV0.uploadPack E G fuel objectHash body

/-- A request that is well formed and no fetch. -/
def UploadPackRequest.Listing : UploadPackRequest → Prop
  | v2 _ body => ∃ request, UploadPack.parseRequest body = some request ∧ request.command ≠ "fetch"
  | v0 _ _ => False

section Interleaved

variable {G : UploadPack.PackBytes} {objectHash : HashKind}

theorem UploadPackRequest.indexProg (r : UploadPackRequest) : IndexProg (r.prog E G objectHash) := by
  cases r with
  | v2 fuel body => exact UploadPack.indexProg_uploadPack ..
  | v0 fuel body => exact UploadPackV0.indexProg_uploadPack ..

theorem UploadPackRequest.Listing.readsData {r : UploadPackRequest} (h : r.Listing) :
    ReadsData (r.prog E G objectHash) := by
  cases r with
  | v2 fuel body =>
    obtain ⟨request, hrequest, hcommand⟩ := h
    rw [prog, UploadPack.uploadPack, hrequest]
    dsimp only
    split
    · trivial
    · exact UploadPack.readsData_dispatch G fuel objectHash hcommand
  | v0 => exact h.elim

/-- Reading a state that differs in its records alone. -/
theorem readsData_answer {V : Type} {db db' : Db V} (h : SameObjects db db') {o : StoreOp V} (ho : o.ReadsData) :
    (Db.handler o db').1 = (Db.handler o db).1 ∧ (Db.handler o db').2 = db' := by
  have hobjects := h.objects
  have hblobs := h.blobs
  have hrefs := h.refs
  cases o with
  | getObject oid => exact ⟨congrFun hobjects oid, rfl⟩
  | blobGet oid => exact ⟨congrFun hblobs oid, rfl⟩
  | getRef name => exact ⟨congrArg (·.get name) hrefs, rfl⟩
  | listRefs => exact ⟨congrArg (·.entries) hrefs, rfl⟩
  | _ => exact ho.elim

/-- A request among others, in a state that differs from `db` in its records
alone. -/
theorem UploadPackRequest.safe (r : UploadPackRequest) {db s : E.Db} (hs : SameObjects db s) :
    (r.prog E G objectHash).Safe Db.handler SameObjects SameObjects (fun _ _ => True)
      (fun x _ => r.Listing → E.run (r.prog E G objectHash) db = some (x, db)) s := by
  have hR : ∀ s s', SameObjects db s → SameObjects s s' → SameObjects db s' := fun _ _ h h' => h.trans h'
  by_cases hl : r.Listing
  · have hread : ∀ o s, StoreOp.ReadsData o → SameObjects db s →
        (Db.handler o s).1 = (Db.handler o db).1 ∧ (Db.handler o s).2 = s := fun o s ho h => readsData_answer h ho
    exact Prog.AllOps.safe_reads hread (fun o ho => (hread o db ho (SameObjects.refl db)).2) hR SameObjects.refl
      hl.readsData (fun x s _ hrun _ => hrun) hs
  · have hG : ∀ o s, StoreOp.OnGraph o → SameObjects db s →
        SameObjects s (Db.handler o s).2 ∧ SameObjects db (Db.handler o s).2 :=
      fun o s ho h => ⟨sameObjects_handler ho s, h.trans (sameObjects_handler ho s)⟩
    exact Prog.AllOps.safe hR hG (fun x s _ hl' => absurd hl' hl) r.indexProg.graphProg hs

/-- The states a repository can reach that serves any number of requests at
once, in any order of their operations. -/
abbrev Serving (E : Env) (G : UploadPack.PackBytes) (objectHash : HashKind) (db : E.Db)
    (c : List (Thread (storeSig E.codec.Val) UploadPackRequest Empty ReceivePack.Response) × E.Db) : Prop :=
  Pool.Reachable Db.handler (fun r p => p = r.prog E G objectHash) (fun _ _ _ => True) (fun db db' => db' = db) db c

/-- However requests interleave, the objects, the blobs and the refs stay as
they were, and each request that is no fetch has the answer it would have had
alone. -/
theorem serving_isolated {db : E.Db}
    {c : List (Thread (storeSig E.codec.Val) UploadPackRequest Empty ReceivePack.Response) × E.Db}
    (hc : Serving E G objectHash db c) :
    SameObjects db c.2 ∧ ∀ (r : UploadPackRequest) (begun : Bool) (x : Except Empty ReceivePack.Response),
      (⟨r, begun, Prog.ofExcept x⟩ : Thread _ _ _ _) ∈ c.1 → r.Listing →
        E.run (r.prog E G objectHash) db = some (x, db) := by
  have hstart : ∀ (r : UploadPackRequest) (p : E.Prog Empty ReceivePack.Response) (s : E.Db),
      p = r.prog E G objectHash → SameObjects db s →
        Pool.ThreadSafe Db.handler SameObjects SameObjects (fun _ _ _ => True)
          (fun r x _ => r.Listing → E.run (r.prog E G objectHash) db = some (x, db)) ⟨r, false, p⟩ s := by
    intro r p s hp hs
    subst hp
    exact .of_safe (r.safe hs) fun _ _ _ => trivial
  have hcrash : ∀ s s' : E.Db, SameObjects db s → s' = s → SameObjects db s' := fun _ _ hi heq => heq ▸ hi
  obtain ⟨hsame, hthreads⟩ := Pool.reachable_inv SameObjects.refl (fun _ _ _ h h' => h.trans h') hstart
    (fun s s' hi hg => ⟨hg, hi.trans hg⟩) hcrash (SameObjects.refl db) hc
  exact ⟨hsame, fun r begun x hmem hl => (hthreads _ hmem).ended SameObjects.refl hl⟩

end Interleaved

namespace Sample

deriving instance DecidableEq for UploadPackRequest

/-- The small repository with a branch and a tag, before its commits are
indexed. -/
def served : env.Db :=
  { env.storeOf objects [] with
    refs := (SortedMap.empty.insert "refs/heads/main" (.direct tipId)).insert "refs/tags/v" (.direct tagId) }

/-- A listing of the refs, with what the tags name. -/
def lsRefsRequest : Bytes :=
  Pktline.line (asBytes "command=ls-refs\n") ++ Pktline.DELIMITER_LINE ++ Pktline.line (asBytes "peel\n") ++
    Pktline.FLUSH_LINE

def fetchRequest : Bytes :=
  Pktline.line (asBytes "command=fetch\n") ++ Pktline.DELIMITER_LINE ++
    (fetchArgs.flatMap fun arg => Pktline.line (asBytes (arg ++ "\n"))) ++ Pktline.FLUSH_LINE

theorem listing_lsRefsRequest : (UploadPackRequest.v2 0 lsRefsRequest).Listing :=
  ⟨⟨"ls-refs", none, ["peel"]⟩, by decide +kernel, by decide⟩

/-- A listing and a fetch at once. -/
def bothRequests : List (UploadPackRequest × env.Prog Empty ReceivePack.Response) :=
  [.v2 0 lsRefsRequest, .v2 9 fetchRequest].map fun r => (r, r.prog env packBytes .sha1)

/-- The fetch does five operations before each one of the listing. -/
def between : List Nat := (List.replicate 4 (List.replicate 5 1 ++ [0])).flatten

/-- Where that comes to. -/
def atOnce : List (Thread (storeSig env.codec.Val) UploadPackRequest Empty ReceivePack.Response) × env.Db :=
  Pool.turns Db.handler (Pool.waiting bothRequests, served) between

theorem serving_atOnce : Serving env packBytes .sha1 served atOnce :=
  Pool.Reachable.waiting_turns (fun _ _ _ => trivial) .refl (by simp [bothRequests]) between

end Sample

open Sample in
/-- A fetch writes the records it misses while a listing is under way. -/
theorem serving_isolated_sample : Serving env packBytes .sha1 served atOnce ∧
    served.graph tipId = none ∧ (atOnce.2.graph tipId).isSome ∧ SameObjects served atOnce.2 ∧
      ∃ x, (⟨.v2 0 lsRefsRequest, true, Prog.ofExcept x⟩ : Thread _ _ _ _) ∈ atOnce.1 ∧
        env.run ((UploadPackRequest.v2 0 lsRefsRequest).prog env packBytes .sha1) served = some (x, served) := by
  obtain ⟨hsame, hanswers⟩ := serving_isolated serving_atOnce
  have hended : (atOnce.1.head?.any fun t =>
      t.tag = .v2 0 lsRefsRequest && t.begun && t.outcome.isSome) = true := by decide +kernel
  obtain ⟨⟨tag, begun, p⟩, hhead, hlisting⟩ := (Option.any_eq_true ..).1 hended
  simp only [Bool.and_eq_true, decide_eq_true_eq, Option.isSome_iff_exists, Thread.outcome_eq_some] at hlisting
  obtain ⟨⟨rfl, rfl⟩, x, rfl⟩ := hlisting
  have hmem := List.mem_of_mem_head? hhead
  exact ⟨serving_atOnce, rfl, by decide +kernel, hsame, x, hmem, hanswers _ _ x hmem listing_lsRefsRequest⟩

end Miscreant
