/-
Lookups of commit-graph records among other programs.

A lookup relies on the objects staying as they are and on every stored value
being one a lookup may meet (`Legit`), and guarantees the same of its own
writes. In between, others may write records at any time. What a lookup finds
in the store or computes is right all the same; what it does not allow for is
that the record of its own target appears after its first read: its backfill
then takes the target's generation from the store and ends with no record to
return (`lookup_threadSafe`, where `quiet` says that this does not happen).
-/
import Miscreant.LookupFacts
import Miscreant.Lib.Pool

namespace Miscreant

open Lib

variable {E : Env} {commits : Commits} {A : ObjectId → Prop} {L : ObjectId → E.codec.Val → Prop}

/-- The ids `A` lookups may meet where the store began as `db₀`, and the values
they may find: those of the commits' records, read right or, with an excuse,
not at all. -/
structure Legit (E : Env) (commits : Commits) (A : ObjectId → Prop) (L : ObjectId → E.codec.Val → Prop) (db₀ : E.Db)
    (excuse : Prop) : Prop where
  parent : ∀ x p, A x → db₀.graph x = none → commits.Parent x p → A p
  commit : ∀ x, A x → commits x = none → excuse
  read : ∀ x v, A x → L x v → (∃ r, E.codec.decode v x.kind = .ok r ∧ commits.IsRecord x r) ∨
    (∃ e, E.codec.decode v x.kind = .error e) ∧ excuse
  write : ∀ x r, A x → commits.IsRecord x r → L x (E.codec.encode r)

/-- A state with the objects of `db₀`, its records or more of them, and values
as `L` says. -/
structure Holding (E : Env) (L : ObjectId → E.codec.Val → Prop) (db₀ db : E.Db) : Prop extends SameObjects db₀ db where
  graph : ∀ c v, db.graph c = some v → L c v
  missing : ∀ c, db.graph c = none → db₀.graph c = none

/-- A write of a value a lookup may meet. -/
theorem Holding.put {L : ObjectId → E.codec.Val → Prop} {db₀ db : E.Db} (h : Holding E L db₀ db) {c : ObjectId}
    {v : E.codec.Val} (hv : L c v) : Holding E L db₀ (Db.handler (StoreOp.putCommitGraph c v .relaxed) db).2 := by
  refine { h.toSameObjects.trans ⟨⟨rfl, rfl⟩, rfl⟩ with graph := fun x w hw => ?_, missing := fun x hnone => ?_ }
  · by_cases hx : x = c
    · subst hx
      cases (Function.update_self x _ db.graph).symm.trans hw
      exact hv
    · exact h.graph x w ((Function.update_of_ne hx _ _).symm.trans hw)
  · by_cases hx : x = c
    · subst hx
      cases (Function.update_self x _ db.graph).symm.trans hnone
    · exact h.missing x ((Function.update_of_ne hx _ _).symm.trans hnone)

/-- What a lookup relies on, and guarantees. -/
def Holds (E : Env) (L : ObjectId → E.codec.Val → Prop) (db₀ : E.Db) (db db' : E.Db) : Prop :=
  Holding E L db₀ db → Holding E L db₀ db'

namespace Walker

variable {db₀ : E.Db} {T : (storeSig E.codec.Val).Op → E.Db → Prop}

/-- A read of objects is as alone. -/
theorem safe_readsObjects {ε α : Type} {p : E.Prog ε α} {Q : Except ε α → E.Db → Prop} {r : Except ε α} {db₁ : E.Db}
    (hp : ReadsObjects p) (hrun : p.run Db.handler db₀ = some (r, db₁)) (hQ : ∀ db, Holding E L db₀ db → Q r db)
    {db : E.Db} (hdb : Holding E L db₀ db) :
    p.Safe Db.handler (Holds E L db₀) (Holds E L db₀) T Q db := by
  refine hp.safe_of_run (fun o db ho hdb => ?_) (fun o ho => ?_) (fun db db' h hr => hr h) (fun _ h => h) hrun hQ hdb
  · cases o with
    | getObject oid => exact ⟨congrFun hdb.objects oid, rfl⟩
    | blobGet oid => exact ⟨congrFun hdb.blobs oid, rfl⟩
    | putObject _ _ _ | blobPut _ _ | getCommitGraph _ | putCommitGraph _ _ _ | getRef _ | listRefs | flush | beginTxn
    | commitTxn _ => exact ho.elim
  · cases o with
    | getObject oid => rfl
    | blobGet oid => rfl
    | putObject _ _ _ | blobPut _ _ | getCommitGraph _ | putCommitGraph _ _ _ | getRef _ | listRefs | flush | beginTxn
    | commitTxn _ => exact ho.elim

variable {excuse : Prop} (hL : Legit E commits A L db₀ excuse)

include hL

/-- A read of a record: none, the right one, or a failure with an excuse. -/
theorem safe_getCommitGraph {x : ObjectId} (hx : A x) {db : E.Db} (hdb : Holding E L db₀ db) :
    ((Store.getCommitGraph E.codec x).mapErr WalkError.store).Safe Db.handler (Holds E L db₀) (Holds E L db₀) T
      (fun r db => Holding E L db₀ db ∧ match r with
        | .ok none => db₀.graph x = none
        | .ok (some r) => commits.IsRecord x r ∧ ∃ db', T (.getCommitGraph x) db' ∧ (db'.graph x).isSome
        | .error _ => excuse) db := by
  refine Prog.Safe.mapErr (Prog.Safe.op fun db' hr ht => ⟨fun h => h, ?_⟩)
  have hdb' := hr hdb
  have hans : (Db.handler (StoreOp.getCommitGraph x) db').1 = db'.graph x := rfl
  rw [hans]
  cases hv : db'.graph x with
  | none => exact Prog.Safe.ret fun db'' hr' => ⟨hr' hdb', hdb'.missing x hv⟩
  | some v =>
    simp only [Prog.andThen]
    rcases hL.read x v hx (hdb'.graph x v hv) with ⟨r, hd, hrec⟩ | ⟨⟨e, hd⟩, hex⟩
    · rw [hd]
      exact Prog.Safe.ret fun db'' hr' => ⟨hr' hdb', hrec, db', ht, by simp [hv]⟩
    · rw [hd]
      exact Prog.Safe.fail fun db'' hr' => ⟨hr' hdb', hex⟩

/-- The state of a backfill of `target` among others. -/
structure Backfill.Among (E : Env) (commits : Commits) (A : ObjectId → Prop) (L : ObjectId → E.codec.Val → Prop)
    (quiet : Prop) (target : ObjectId) (db₀ : E.Db) (s : Backfill) (db : E.Db) : Prop extends Holding E L db₀ db where
  knows : Knows commits A s.stack s.parsed s.generations
  record : ∀ r, s.result = some r → commits.IsRecord target r
  result : quiet → Resolved s.generations target → s.result.isSome
  target : target ∈ s.stack ∨ Resolved s.generations target

/-- What a backfill ends with. -/
def Backfilled (commits : Commits) (quiet : Prop) (target : ObjectId) (result : Option CommitGraphRecord) : Prop :=
  (∀ r, result = some r → commits.IsRecord target r) ∧ (quiet → result.isSome)

section Backfill

variable {quiet : Prop} {target : ObjectId} (hdb₀ : Intact E db₀) (hcm : E.commitAt db₀ = commits)
  (hquiet : quiet → ∀ db, T (.getCommitGraph target) db → db.graph target = none)

include hdb₀ hcm hquiet

theorem safe_backfillStep {s : Backfill} {db : E.Db} (h : Backfill.Among E commits A L quiet target db₀ s db) :
    (backfillStep E target s).Safe Db.handler (Holds E L db₀) (Holds E L db₀) T
      (fun (r : Except WalkError (Backfill ⊕ Option CommitGraphRecord)) db => Holding E L db₀ db ∧ match r with
        | .ok (.inl s') => Backfill.Among E commits A L quiet target db₀ s' db
        | .ok (.inr result) => Backfilled commits quiet target result
        | .error _ => excuse) db := by
  have hknows := h.knows
  have htarget := h.target
  unfold backfillStep
  cases hs : s.stack with
  | nil =>
    refine Prog.Safe.ret fun db' hr => ⟨hr h.toHolding, h.record, fun hq => h.result hq (htarget.resolve_left ?_)⟩
    simp [hs]
  | cons top rest =>
  rw [hs] at hknows htarget
  have htop : A top := hknows.stack top (by simp)
  simp only
  split
  · rename_i hres
    refine Prog.Safe.ret fun db' hr => ⟨hr h.toHolding, { hr h.toHolding with
      knows := hknows.pop
      record := h.record
      result := h.result
      target := target_popped htarget hres fun x hx => hx }⟩
  · rename_i hres
    refine Prog.Safe.bind (safe_getCommitGraph hL htop h.toHolding) (fun record db₁ hrec => ?_) fun e db₁ he => he
    have hdb₁ := (hrec db₁ fun h => h).1
    cases record with
    | some record =>
      -- found in the store, by then: never the target's if it is quiet
      obtain ⟨⟨commit, hc, hgen, -⟩, db', ht, hsome⟩ := (hrec db₁ fun h => h).2
      refine Prog.Safe.ret fun db₂ hr => ⟨hr hdb₁, { hr hdb₁ with
        knows := hknows.resolve hgen
        record := h.record
        result := fun hq hx => h.result hq ?_
        target := target_popped htarget (resolved_insert_self _ _ _) fun x hx => hx.insert _ }⟩
      have hne : target ≠ top := by
        rintro rfl
        simp [hquiet hq db' ht] at hsome
      exact hx.of_insert hne
    | none =>
      have hnone := (hrec db₁ fun h => h).2
      cases hc : commits top with
      | none =>
        obtain ⟨e, -, hfail⟩ := hknows.run_parsedCommit_none hdb₀ hcm hc
        refine Prog.Safe.bind (Q := fun r db => Holding E L db₀ db ∧ r = .error e)
          (safe_readsObjects (readsObjects_parsedCommit _ _) hfail (fun db hdb => ⟨hdb, rfl⟩) hdb₁) (fun a db₂ ha => ?_)
          fun e db₂ he => ⟨he.1, hL.commit top htop hc⟩
        cases (ha db₂ fun h => h).2
      | some commit =>
        obtain ⟨parsed', hparse, hknows'⟩ := hknows.run_parsedCommit hdb₀ hcm hc
        refine Prog.Safe.bind (Q := fun r db => Holding E L db₀ db ∧ r = .ok ((commit.tree, commit.parents), parsed'))
          (safe_readsObjects (readsObjects_parsedCommit _ _) hparse (fun db hdb => ⟨hdb, rfl⟩) hdb₁) (fun a db₂ ha => ?_)
          fun e db₂ he => by cases he.2
        obtain ⟨hdb₂, heq⟩ := ha db₂ fun h => h
        cases heq
        simp only
        split
        · rename_i hm
          have hgen := hknows.isGen_next hc hm
          have hrec : commits.IsRecord top ⟨nextGeneration s.generations commit.parents, commit.tree, commit.parents⟩ :=
            ⟨commit, hc, hgen, rfl, rfl⟩
          have hput := hL.write top _ htop hrec
          refine Prog.Safe.op fun db₃ hr _ => ⟨fun hdb => hdb.put hput, Prog.Safe.ret fun db₄ hr' => ?_⟩
          have hdb₄ := hr' ((hr hdb₂).put hput)
          exact ⟨hdb₄, { hdb₄ with
            knows := hknows'.resolve hgen
            record := fun r => record_resolved hrec h.record
            result := fun hq => result_resolved (h.result hq)
            target := target_popped htarget (resolved_insert_self _ _ _) fun x hx => hx.insert _ }⟩
        · refine Prog.Safe.ret fun db₃ hr => ⟨hr hdb₂, { hr hdb₂ with
            knows := hknows'.push (fun p => hL.parent top p htop hnone) hc
            record := h.record
            result := h.result
            target := ?_ }⟩
          exact htarget.imp_left (List.mem_append_right _)

theorem safe_backfillLoop (fuel : Nat) {s : Backfill} {db : E.Db}
    (h : Backfill.Among E commits A L quiet target db₀ s db) :
    (Prog.loop (backfillStep E target) fuel s).Safe Db.handler (Holds E L db₀) (Holds E L db₀) T
      (fun r db => Holding E L db₀ db ∧ match r with
        | .ok result => Backfilled commits quiet target result
        | .error _ => excuse) db := by
  refine Prog.Safe.loop (backfillStep E target) (I := Backfill.Among E commits A L quiet target db₀) (fun _ h => h)
    (fun s db h => (safe_backfillStep hL hdb₀ hcm hquiet h).weaken fun r db hr => ?_) fuel h
  rcases r with e | s' | result
  · exact hr
  · exact hr.2
  · exact hr

/-- A backfill among others. -/
theorem safe_backfillCommitInfo (ht : A target) (fuel : Nat) {db : E.Db} (hdb : Holding E L db₀ db) :
    (backfillCommitInfo E fuel target).Safe Db.handler (Holds E L db₀) (Holds E L db₀) T
      (fun r db => Holding E L db₀ db ∧ match r with
        | .ok r => commits.IsRecord target r
        | .error _ => excuse ∨ ¬ quiet) db := by
  have hstart : Backfill.Among E commits A L quiet target db₀
      { stack := [target], parsed := .empty, generations := .empty, result := none } db :=
    { hdb with
      knows := ⟨fun x hx => by rw [List.mem_singleton.1 hx]; exact ht, by simp, by simp⟩
      record := by simp
      result := fun _ h => by simp [Resolved] at h
      target := .inl (by simp) }
  refine Prog.Safe.bind (safe_backfillLoop hL hdb₀ hcm hquiet fuel hstart) (fun result db₁ hres => ?_) fun e db₁ he => ⟨he.1, .inl he.2⟩
  obtain ⟨hdb₁, hrec, hsome⟩ := hres db₁ fun h => h
  cases result with
  | some r => exact Prog.Safe.ret fun db₂ hr => ⟨hr hdb₁, hrec r rfl⟩
  | none => exact Prog.Safe.fail fun db₂ hr => ⟨hr hdb₁, .inr fun hq => by simpa using hsome hq⟩

end Backfill

end Walker

/-! ## Concurrent lookups -/

/-- The ancestry of `c` is complete and acyclic. -/
structure Env.CompleteAncestry (E : Env) (db : E.Db) (c : ObjectId) : Prop where
  commits : ∀ a, E.Ancestor db a c → (E.commitAt db a).isSome
  acyclic : ∀ a, E.Ancestor db a c → ¬ Relation.TransGen (E.Parent db) a a

/-- No commit a lookup of `c` may come to has more than 255 parents. -/
def Env.FewParents (E : Env) (db : E.Db) (c : ObjectId) : Prop :=
  ∀ a commit, E.LooksUp db c a → E.commitAt db a = some commit → commit.parents.length ≤ 255

theorem Env.CompleteAncestry.parent {db : E.Db} {c p : ObjectId} (h : E.CompleteAncestry db c)
    (hp : E.Parent db c p) : E.CompleteAncestry db p :=
  ⟨fun a ha => h.commits a (Relation.ReflTransGen.head hp ha),
    fun a ha => h.acyclic a (Relation.ReflTransGen.head hp ha)⟩

theorem Env.FewParents.parent {db : E.Db} {c p : ObjectId} (h : E.FewParents db c) (hnone : db.graph c = none)
    (hp : E.Parent db c p) : E.FewParents db p :=
  fun a commit ha hc => h a commit (Relation.ReflTransGen.head ⟨hnone, hp⟩ ha) hc

theorem Env.FewParents.readable (hcodec : E.codec = .bytes) {db : E.Db} {a c : ObjectId} (h : E.FewParents db c)
    (ha : E.LooksUp db c a) : E.Readable (E.commitAt db) a :=
  Env.readable_of_few hcodec fun commit hc => h a commit ha hc

theorem Env.CompleteAncestry.acc {db : E.Db} {c : ObjectId} (h : E.CompleteAncestry db c) :
    Acc (fun j i => E.Parent db i j) c := by
  have hwf : WellFounded fun j i => E.Ancestor db i c ∧ Relation.TransGen (E.Parent db) i j := by
    have : IsTrans ObjectId fun j i => E.Ancestor db i c ∧ Relation.TransGen (E.Parent db) i j :=
      ⟨fun _ _ _ h h' => ⟨h'.1, h'.2.trans h.2⟩⟩
    have : Std.Irrefl fun j i => E.Ancestor db i c ∧ Relation.TransGen (E.Parent db) i j :=
      ⟨fun a ha => h.acyclic a ha.1 ha.2⟩
    exact Finite.wellFounded_of_trans_of_irrefl _
  have hall : ∀ a, E.Ancestor db a c → Acc (fun j i => E.Parent db i j) a := by
    intro a ha
    induction hwf.apply a with
    | intro a _ ih => exact .intro a fun p hp => ih p ⟨ha, .single hp⟩ (ha.tail hp)
  exact hall c .refl

/-- With few parents, what a lookup of `c` may come to can be looked up. -/
theorem Env.CompleteAncestry.lookupRange (hcodec : E.codec = .bytes) {db : E.Db} {c : ObjectId}
    (h : E.CompleteAncestry db c) (hfew : E.FewParents db c) :
    LookupRange E (E.commitAt db) (fun a => E.LooksUp db c a) db where
  acc _ ha := ha.ancestor.rec h.acc fun _ hp ih => ih.inv hp
  parent _ _ ha hnone hp := ha.tail ⟨hnone, hp⟩
  honest _ ha := (hfew.readable hcodec ha).honest

namespace Walker

/-- A lookup for `target`, of a commit with a complete, acyclic ancestry. -/
def Lookup (E : Env) (db₀ : E.Db) (target : ObjectId) (p : E.Prog WalkError CommitGraphRecord) : Prop :=
  E.CompleteAncestry db₀ target ∧ ∃ fuel, p = getCommitInfo E fuel target

/-- A lookup that may come to no commit of more than 255 parents. -/
def FewLookup (E : Env) (db₀ : E.Db) (target : ObjectId) (p : E.Prog WalkError CommitGraphRecord) : Prop :=
  Lookup E db₀ target p ∧ E.FewParents db₀ target

/-- After its first read, a lookup finds no record of its own target in the
store. -/
def Quiet (E : Env) (target : ObjectId) (o : (storeSig E.codec.Val).Op) (db : E.Db) : Prop :=
  o = .getCommitGraph target → db.graph target = none

instance Quiet.decidable : ∀ (target : ObjectId) (o : (storeSig E.codec.Val).Op) (db : E.Db), Decidable (Quiet E target o db)
  | target, .getCommitGraph c, db =>
    if hc : c = target then
      decidable_of_iff ((db.graph target).isNone = true)
        ⟨fun hnone _ => Option.isNone_iff_eq_none.1 hnone, fun h => Option.isNone_iff_eq_none.2 (h (by rw [hc]))⟩
    else isTrue fun heq => absurd (StoreOp.getCommitGraph.inj heq) hc
  | _, .getObject _, _ | _, .putObject _ _ _, _ | _, .blobGet _, _ | _, .blobPut _ _, _ | _, .putCommitGraph _ _ _, _
  | _, .getRef _, _ | _, .listRefs, _ | _, .flush, _ | _, .beginTxn, _ | _, .commitTxn _, _ => isTrue nofun

/-- A value that is read as the record of `c`. -/
def RightValue (E : Env) (db₀ : E.Db) (c : ObjectId) (v : E.codec.Val) : Prop :=
  ∃ r, E.codec.decode v c.kind = .ok r ∧ Commits.IsRecord (E.commitAt db₀) c r

/-- The state of lookups under way on a store that began as `db₀`: those
that have finished gave the record of their target, and the stored records
are correct. -/
def LookupsRight (E : Env) (db₀ : E.Db)
    (c : List (Thread (storeSig E.codec.Val) ObjectId WalkError CommitGraphRecord) × E.Db) : Prop :=
  (∀ t ∈ c.1, (∀ r, t.prog = .ret r → Commits.IsRecord (E.commitAt db₀) t.tag r) ∧ ∀ e, t.prog ≠ .fail e) ∧
    Correct E (E.commitAt db₀) (fun _ => True) c.2

/-- The ids lookups meet: commits with ancestries to read and write. -/
theorem legit_of_few (hcodec : E.codec = .bytes) (db₀ : E.Db) :
    Legit E (E.commitAt db₀) (fun c => E.CompleteAncestry db₀ c ∧ E.FewParents db₀ c) (RightValue E db₀)
    db₀ False where
  parent x p hx hnone hp := ⟨hx.1.parent hp, hx.2.parent hnone hp⟩
  commit x hx hnone := by
    have := hx.1.commits x .refl
    simp [hnone] at this
  read x v _ hv := .inl hv
  write x r hx hr := ⟨r, hx.2.readable hcodec .refl r hr, hr⟩

/-- What a finished lookup gave. -/
def Gave (E : Env) (db₀ : E.Db) (target : ObjectId) (r : Except WalkError CommitGraphRecord) (_ : E.Db) : Prop :=
  match r with
  | .ok r => Commits.IsRecord (E.commitAt db₀) target r
  | .error _ => False

/-- A lookup that finds a record has it as its answer. -/
theorem getCommitInfo_found {db : E.Db} {target : ObjectId} {r : CommitGraphRecord}
    (hg : E.graphAt db target = .ok (some r)) (fuel : Nat) :
    ∃ k : Option E.codec.Val → E.Prog WalkError CommitGraphRecord,
      getCommitInfo E fuel target = .op (StoreOp.getCommitGraph target) k ∧ k (db.graph target) = .ret r := by
  refine ⟨_, rfl, ?_⟩
  unfold Env.graphAt at hg
  cases hv : db.graph target with
  | none => simp [hv] at hg
  | some v =>
    simp only [Prog.andThen]
    cases hd : E.codec.decode v target.kind with
    | error e => simp [hv, hd] at hg
    | ok r' =>
      simp only [hv, hd, Except.ok.injEq, Option.some.injEq] at hg
      subst hg
      rfl

/-- A lookup that has not begun is safe: nothing is asked of its first
read. -/
theorem lookup_threadSafe (hcodec : E.codec = .bytes) {db₀ db : E.Db} (hdb₀ : Intact E db₀) {target : ObjectId}
    (ht : E.CompleteAncestry db₀ target ∧ E.FewParents db₀ target) (fuel : Nat)
    (hdb : Holding E (RightValue E db₀) db₀ db) :
    Pool.ThreadSafe Db.handler (Holds E (RightValue E db₀) db₀) (Holds E (RightValue E db₀) db₀) (Quiet E)
      (Gave E db₀) ⟨target, false, getCommitInfo E fuel target⟩ db := by
  intro db' hr
  refine ⟨fun h => h, ?_⟩
  have hdb' := hr hdb
  have hans : (Db.handler (StoreOp.getCommitGraph target) db').1 = db'.graph target := rfl
  rw [hans]
  cases hv : db'.graph target with
  | none =>
    have hquiet : True → ∀ db, Quiet E target (.getCommitGraph target) db → db.graph target = none :=
      fun _ db h => h rfl
    have hback := safe_backfillCommitInfo (legit_of_few hcodec db₀) hdb₀ rfl hquiet ht fuel hdb'
    refine hback.weaken fun r db hr => ?_
    match r, hr with
    | .ok r, hr => exact hr.2
    | .error e, hr => simpa using hr.2
  | some v =>
    obtain ⟨r, hd, hrec⟩ := hdb'.graph target v hv
    have hat : E.graphAt db' target = .ok (some r) := by simp [Env.graphAt, hv, hd]
    obtain ⟨k, hop, hk⟩ := getCommitInfo_found hat fuel
    rw [hv] at hk
    cases hop
    rw [hk]
    exact Prog.Safe.ret fun _ _ => hrec

/-- Concurrent lookups give the records of their targets and keep the stored
records correct, in every run in which no commit a lookup may come to has more
than 255 parents and no lookup, after its first read, finds the record of its
own target in the store. -/
theorem concurrentLookups_right (hcodec : E.codec = .bytes) {db₀ : E.Db} (hdb₀ : Intact E db₀)
    (hcorrect : Correct E (E.commitAt db₀) (fun _ => True) db₀)
    {c : List (Thread (storeSig E.codec.Val) ObjectId WalkError CommitGraphRecord) × E.Db}
    (hc : Pool.Reachable Db.handler (FewLookup E db₀) (Quiet E) (fun _ _ => False) db₀ c) : LookupsRight E db₀ c := by
  have hstart : Holding E (RightValue E db₀) db₀ db₀ := 
    { SameObjects.refl db₀ with graph := fun c v hv => hcorrect c v trivial hv, missing := fun _ h => h }
  obtain ⟨hdb, hthreads⟩ := Pool.reachable_inv (R := Holds E (RightValue E db₀) db₀)
    (G := Holds E (RightValue E db₀) db₀) (Q := Gave E db₀) (I := Holding E (RightValue E db₀) db₀) (fun _ h => h)
    (fun _ _ _ h h' hs => h' (h hs)) (fun target p db hp hdb => by
      obtain ⟨⟨hcomplete, fuel, rfl⟩, hfew⟩ := hp
      exact lookup_threadSafe hcodec hdb₀ ⟨hcomplete, hfew⟩ fuel hdb)
    (fun db db' hdb hg => ⟨hg, hg hdb⟩) (fun _ _ _ h => h.elim) hstart hc
  refine ⟨fun t ht => ?_, fun c v _ hv => hdb.graph c v hv⟩
  obtain ⟨target, begun, p⟩ := t
  have hsafe := hthreads _ ht
  refine ⟨fun r hr => ?_, fun e he => ?_⟩
  · cases hr
    exact Pool.ThreadSafe.ended (x := .ok r) (fun _ h => h) hsafe
  · cases he
    exact Pool.ThreadSafe.ended (x := .error e) (fun _ h => h) hsafe

/-- Where every commit has a record, the lookups of a batch do not meet: in
whatever order their operations are done, nothing is written, and the answers
are those of doing one lookup after the other. -/
theorem prefetchRecords_concurrent {db : E.Db} (hdb : Intact E db) (hall : AllRecorded E db) {fuel : Nat}
    {cache : SortedMap ObjectId CommitGraphRecord} {ids : List ObjectId}
    {c : List (Thread (storeSig E.codec.Val) ObjectId WalkError CommitGraphRecord) × E.Db}
    (hc : Pool.Reachable Db.handler (fun id p => p = getCommitInfo E fuel id) (fun _ _ _ => True) (fun _ _ => False) db c)
    {fetched : List (ObjectId × Except WalkError CommitGraphRecord)}
    (hfetched : List.Forall₂ (fun id entry => entry.1 = id ∧ ∃ t ∈ c.1, t.tag = id ∧ t.prog = Prog.ofExcept entry.2)
      (misses cache ∅ ids) fetched) :
    c.2 = db ∧
      (prefetchRecords E fuel cache ids).run Db.handler db = some (.ok (fetched, cacheFetched cache fetched), db) := by
  obtain ⟨hstate, hthreads⟩ := hc.still (fun id p hp => hp ▸ still_getCommitInfo hdb hall fuel id) fun _ h => h.elim
  have hone : List.Forall₂ (fun id entry => (do
      let record ← (getCommitInfo E fuel id).attempt
      pure (id, record) : E.Prog WalkError _).run Db.handler db = some (.ok entry, db)) (misses cache ∅ ids) fetched := by
    refine hfetched.imp fun id entry hentry => ?_
    obtain ⟨id', record⟩ := entry
    obtain ⟨rfl, t, ht, rfl, hended⟩ := hentry
    obtain ⟨-, p, rfl, hrun⟩ := hthreads t ht
    rw [hended, Prog.run_ofExcept] at hrun
    rw [Prog.run_bind, Prog.run_attempt, ← hrun]
    rfl
  exact ⟨hstate, Prog.run_bind_ok (Prog.run_forEach₂ hone)⟩

/-- A backfill that finds the record of its target fails. -/
theorem run_backfillCommitInfo_found {db : E.Db} {target : ObjectId} {r : CommitGraphRecord}
    (hg : E.graphAt db target = .ok (some r)) (fuel : Nat) :
    (backfillCommitInfo E (fuel + 2) target).run Db.handler db = some (.error (.missingObject target), db) := by
  have hread := run_getCommitGraph_mapErr WalkError.store db target
  rw [hg] at hread
  have hstep : (backfillStep E target ⟨[target], .empty, .empty, none⟩).run Db.handler db =
      some (.ok (.inl ⟨[], .empty, SortedMap.empty.insert target r.generation, none⟩), db) := by
    simp only [backfillStep, SortedMap.get_empty, Option.isSome_none, Bool.false_eq_true, if_false]
    rw [Prog.run_bind_ok hread]
    rfl
  have hnone : (Prog.loop (backfillStep E target) (fuel + 2) ⟨[target], .empty, .empty, none⟩).run Db.handler db =
      some (.ok none, db) := by
    rw [Prog.run_loop_succ, Prog.run_bind_ok hstep]
    rfl
  exact Prog.run_bind_ok hnone

/-- Of two lookups of a commit without a record, one can fail: it misses the
record, the other writes it, and the first finds it where it expects none. -/
theorem lookups_race (hcodec : E.codec = .bytes) {db₀ : E.Db} (hdb₀ : Intact E db₀)
    (hcorrect : Correct E (E.commitAt db₀) (fun _ => True) db₀) {target : ObjectId}
    (hcomplete : E.CompleteAncestry db₀ target) (hfew : E.FewParents db₀ target) (hnone : db₀.graph target = none)
    {Start : ObjectId → E.Prog WalkError CommitGraphRecord → Prop}
    (hstart : ∀ fuel, Start target (getCommitInfo E fuel target)) :
    ∃ c, Pool.Reachable Db.handler Start (fun _ _ _ => True) (fun _ _ => False) db₀ c ∧
      ∃ t ∈ c.1, t.tag = target ∧ t.prog = .fail (.missingObject target) := by
  have hA := hcomplete.lookupRange hcodec hfew
  have hcorrect : Correct E (E.commitAt db₀) (fun a => E.LooksUp db₀ target a) db₀ := fun c v _ => hcorrect c v trivial
  have hread : ∀ a, E.LooksUp db₀ target a → E.Readable (E.commitAt db₀) a := fun a ha => hfew.readable hcodec ha
  obtain ⟨N, r, db, hr, hgrows, hN⟩ := run_getCommitInfo hA hdb₀ rfl (hcorrect.sane hread) (c := target) .refl
  cases r with
  | error e =>
    obtain ⟨a, ha, hnone | hno⟩ := hr
    · have := hcomplete.commits a ha.ancestor
      simp [hnone] at this
    · exact absurd (hread a ha) hno
  | ok r =>
  have hfound : ∃ r, E.graphAt db target = .ok (some r) := by
    rcases (hgrows.toRecorded.correct hread hcorrect).graphAt (c := target) .refl with ⟨hnone, -⟩ | ⟨r, -, hg, -⟩
    · simp [hnone] at hr
    · exact ⟨r, hg⟩
  obtain ⟨r', hg⟩ := hfound
  obtain ⟨k, hop, hmissed⟩ : ∃ k : Option E.codec.Val → E.Prog WalkError CommitGraphRecord,
      getCommitInfo E (N + 2) target = .op (StoreOp.getCommitGraph target) k ∧
        k none = backfillCommitInfo E (N + 2) target := ⟨_, rfl, rfl⟩
  have hlookup := hN (N + 2) (by omega)
  have hfirst : Pool.Reachable Db.handler Start (fun _ _ _ => True) (fun _ _ => False) db₀
      ([⟨target, false, .op (StoreOp.getCommitGraph target) k⟩], db₀) :=
    .single (.start (by rw [← hop]; exact hstart (N + 2)))
  -- the first lookup reads no record
  have hread : Pool.Reachable Db.handler Start (fun _ _ _ => True) (fun _ _ => False) db₀
      ([⟨target, true, k (db₀.graph target)⟩], db₀) :=
    hfirst.tail (Pool.Step.op (h := Db.handler) (l := []) (r := []) (s := db₀) (o := StoreOp.getCommitGraph target)
      (k := k) fun _ => trivial)
  rw [hnone, hmissed] at hread
  -- the second one runs to its end, and writes it
  have hsecond := hread.tail (.start (hstart (N + 2)))
  obtain ⟨b, hwritten⟩ := Pool.Reachable.run_thread (fun _ _ _ => trivial)
    (l := [⟨target, true, backfillCommitInfo E (N + 2) target⟩]) (r := []) hsecond hlookup
  -- the first one goes on
  obtain ⟨b', hfailed⟩ := Pool.Reachable.run_thread (fun _ _ _ => trivial) (l := []) hwritten
    (run_backfillCommitInfo_found hg N)
  exact ⟨_, hfailed, _, List.mem_cons_self, rfl, rfl⟩

end Walker

namespace Sample

theorem parent_db {x y : ObjectId} (h : env.Parent db x y) : x = tipId ∧ y = rootId := by
  obtain ⟨commit, hc, hy⟩ := h
  obtain ⟨body, ho, -⟩ := commitAt_eq_some.1 hc
  rcases commit_mem ho with rfl | rfl
  · cases commitAt_root.symm.trans hc
    simp at hy
  · cases commitAt_tip.symm.trans hc
    exact ⟨rfl, by simpa using hy⟩

theorem isRecord_root : Commits.IsRecord (env.commitAt db) rootId ⟨1, emptyTreeId, []⟩ :=
  ⟨_, commitAt_root, .intro (fun _ => 0) commitAt_root (by simp), rfl, rfl⟩

theorem isRecord_tip : Commits.IsRecord (env.commitAt db) tipId ⟨2, treeId, [rootId]⟩ := by
  obtain ⟨-, -, hgen, -⟩ := isRecord_root
  exact ⟨_, commitAt_tip, .intro (fun _ => 1) commitAt_tip (by simpa using hgen), rfl, rfl⟩

theorem correct_db : Correct env (env.commitAt db) (fun _ => True) db := by
  have hread : ∀ c r v, env.graphAt db c = .ok (some r) → db.graph c = some v → env.codec.decode v c.kind = .ok r := by
    intro c r v hg hv
    simp only [Env.graphAt, hv] at hg
    split at hg
    · cases hg
      assumption
    · cases hg
  intro c v _ hv
  rcases graph_mem (by rw [hv]; rfl) with rfl | rfl
  · exact ⟨_, hread _ _ v graphAt_root hv, isRecord_root⟩
  · exact ⟨_, hread _ _ v graphAt_tip hv, isRecord_tip⟩

end Sample

namespace Sample

/-- The small repository before any record is written. -/
def unindexed : env.Db := env.storeOf objects []

theorem commitAt_unindexed (c : ObjectId) : env.commitAt unindexed c = env.commitAt db c := by
  simp only [Env.commitAt, unindexed, db, objectAt_storeOf]

theorem parent_unindexed {x y : ObjectId} (h : env.Parent unindexed x y) : x = tipId ∧ y = rootId := by
  obtain ⟨commit, hc, hy⟩ := h
  rw [commitAt_unindexed] at hc
  exact parent_db ⟨commit, hc, hy⟩

theorem completeAncestry_unindexed {c : ObjectId} (hc : (env.commitAt db c).isSome) :
    env.CompleteAncestry unindexed c where
  commits a ha := by
    rw [commitAt_unindexed]
    rcases Relation.ReflTransGen.cases_tail ha with rfl | ⟨b, -, hp⟩
    · exact hc
    · rw [(parent_unindexed hp).2, commitAt_root]
      rfl
  acyclic a _ hcyc := by
    obtain ⟨p, hp, -⟩ := Relation.TransGen.head'_iff.1 hcyc
    obtain ⟨q, -, hq⟩ := Relation.TransGen.tail'_iff.1 hcyc
    exact absurd ((parent_unindexed hp).1.symm.trans (parent_unindexed hq).2) (by decide)

theorem fewParents_unindexed (c : ObjectId) : env.FewParents unindexed c := by
  intro a commit _ hc
  rw [commitAt_unindexed] at hc
  obtain ⟨body, ho, -⟩ := commitAt_eq_some.1 hc
  rcases commit_mem ho with rfl | rfl
  · cases commitAt_root.symm.trans hc
    simp
  · cases commitAt_tip.symm.trans hc
    simp

theorem correct_unindexed : Correct env (env.commitAt unindexed) (fun _ => True) unindexed := by
  intro c v _ hv
  simp [unindexed, Env.storeOf] at hv

/-- Lookups of the tip and of the root. -/
def lookups : List (ObjectId × env.Prog WalkError CommitGraphRecord) :=
  [(tipId, Walker.getCommitInfo env 9 tipId), (rootId, Walker.getCommitInfo env 9 rootId)]

/-- The tip's lookup misses the root's record before the root's own lookup
writes it, and writes it again. -/
def crossing : List Nat := [0, 0, 0, 1, 1, 1, 0, 1, 0, 0, 0, 0]

end Sample

open Sample in
theorem concurrentLookups_right_sample :
    ∃ c, Pool.Reachable Db.handler (Walker.FewLookup env unindexed) (Walker.Quiet env) (fun _ _ => False) unindexed c ∧
      (c.1.map fun t => (t.tag, t.outcome)) =
        [(tipId, some (.ok ⟨2, treeId, [rootId]⟩)), (rootId, some (.ok ⟨1, emptyTreeId, []⟩))] ∧
      Walker.LookupsRight env unindexed c := by
  have hstart : ∀ x ∈ lookups, Walker.FewLookup env unindexed x.1 x.2 := by
    intro x hx
    simp only [lookups, List.mem_cons, List.not_mem_nil, or_false] at hx
    rcases hx with rfl | rfl
    · exact ⟨⟨completeAncestry_unindexed (by rw [commitAt_tip]; rfl), 9, rfl⟩, fewParents_unindexed _⟩
    · exact ⟨⟨completeAncestry_unindexed (by rw [commitAt_root]; rfl), 9, rfl⟩, fewParents_unindexed _⟩
  have hwaiting : Pool.Reachable Db.handler (Walker.FewLookup env unindexed) (Walker.Quiet env) (fun _ _ => False)
      unindexed (Pool.waiting lookups, unindexed) := Pool.Reachable.waiting lookups hstart .refl
  have hquiet : Pool.AllMeet Db.handler (Walker.Quiet env) (Pool.waiting lookups, unindexed) crossing := by
    decide +kernel
  have hc := hwaiting.turns crossing hquiet
  exact ⟨_, hc, by decide +kernel, Walker.concurrentLookups_right rfl intact_storeOf correct_unindexed hc⟩

open Sample in
theorem concurrentLookups_wrong :
    env.codec = .bytes ∧ Intact env unindexed ∧ Correct env (env.commitAt unindexed) (fun _ => True) unindexed ∧
      ∃ c, Pool.Reachable Db.handler (Walker.Lookup env unindexed) (fun _ _ _ => True) (fun _ _ => False) unindexed c ∧
        ¬ Walker.LookupsRight env unindexed c := by
  refine ⟨rfl, intact_storeOf, correct_unindexed, ?_⟩
  have hstart : ∀ fuel, Walker.Lookup env unindexed rootId (Walker.getCommitInfo env fuel rootId) :=
    fun fuel => ⟨completeAncestry_unindexed (by rw [commitAt_root]; rfl), fuel, rfl⟩
  obtain ⟨c, hc, t, ht, -, hfail⟩ := Walker.lookups_race rfl intact_storeOf correct_unindexed
    (completeAncestry_unindexed (by rw [commitAt_root]; rfl)) (fewParents_unindexed _) rfl hstart
  exact ⟨c, hc, fun hright => (hright.1 t ht).2 _ hfail⟩

end Miscreant
