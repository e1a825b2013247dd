/-
Runs of pushes, starting from a repository that holds nothing.

Whatever was pushed, accepted or not, the state is sound, its records are
those of its commits though some may not be readable, and its refs name
objects that are there (`Tracked`). Two further properties depend on what is
pushed. A push that fails while its commits are indexed has already written
its objects, so that sending it again succeeds (`Tracked.retry_accepted`).
And nothing compares the kind a reference declares with the kind of the
object it leads to.
-/
import Miscreant.PushFacts

namespace Miscreant

open Lib

variable {E : Env}

/-! ## Ref updates -/

/-- `db'` is `db` but for its refs. -/
structure SameContent {V : Type} (db db' : Db V) : Prop extends SameData db db' where
  graph : db'.graph = db.graph

/-- The writes of a transaction are those of its commands. -/
theorem RefTxn.mem_updateAll {w : String × Option RefTarget} :
    ∀ {updates : List RefUpdate} {txn : RefTxn}, w ∈ (txn.updateAll updates).1.writes →
      w ∈ txn.writes ∨ ∃ u ∈ updates, w = (u.name, u.new.map .direct)
  | [], txn, h => .inl h
  | u :: updates, txn, h => by
    have hone : ∀ w ∈ (txn.update u).1.writes, w ∈ txn.writes ∨ w = (u.name, u.new.map .direct) := by
      intro w hw
      have hcas : ∀ current, w ∈ ((txn.read u.name).compareAndSwap u current).1.writes →
          w ∈ txn.writes ∨ w = (u.name, u.new.map .direct) := by
        intro current hw
        unfold RefTxn.compareAndSwap at hw
        split at hw
        · exact .inl hw
        · simpa [RefTxn.write, RefTxn.read] using hw
      unfold RefTxn.update at hw
      split at hw
      · exact hcas none hw
      · exact hcas _ hw
      · exact .inl hw
    have hrest : w ∈ ((txn.update u).1.updateAll updates).1.writes := h
    rcases RefTxn.mem_updateAll hrest with h | ⟨u', hu', h⟩
    · exact (hone w h).imp_right fun h => ⟨u, by simp, h⟩
    · exact .inr ⟨u', by simp [hu'], h⟩

/-- A ref after writes was there before, or is one of the written ones. -/
theorem get_foldl_setRef {name : String} {target : RefTarget} :
    ∀ (writes : List (String × Option RefTarget)) (refs : SortedMap String RefTarget),
      (writes.foldl setRef refs).get name = some target → refs.get name = some target ∨ (name, some target) ∈ writes
  | [], refs, h => .inl h
  | (name', t) :: writes, refs, h => by
    rcases get_foldl_setRef writes _ h with h | h
    · unfold setRef at h
      cases t with
      | some t =>
        simp only [SortedMap.get_insert] at h
        split at h
        · rename_i heq
          cases h
          subst heq
          exact .inr (by simp)
        · exact .inl h
      | none =>
        simp only [SortedMap.get_erase] at h
        split at h
        · cases h
        · exact .inl h
    · exact .inr (by simp [h])

theorem run_commitTxn {V ε : Type} (db : Db V) (txn : RefTxn) :
    (Store.commitTxn txn : StoreProg V ε Bool).run Db.handler db =
      some (.ok (!db.conflicts txn), if db.conflicts txn then db else db.apply (.refs txn.writes)) := by
  have hrun : (Store.commitTxn txn : StoreProg V ε Bool).run Db.handler db =
      some (.ok (!db.conflicts txn), (if db.conflicts txn then [] else [Write.refs txn.writes]).foldl Db.apply db) := rfl
  rw [hrun]
  split <;> rfl

/-- `Store::update_refs` ends, and writes at most the new ids of its
commands. -/
theorem run_updateRefs {V ε : Type} (updates : List RefUpdate) (db : Db V) :
    ∃ results db', SameContent db db' ∧
      (∀ name target, db'.refs.get name = some target → db.refs.get name = some target ∨
        ∃ u ∈ updates, ∃ oid, u.new = some oid ∧ u.name = name ∧ target = .direct oid) ∧
      (updateRefs updates : StoreProg V ε _).run Db.handler db = some (.ok results, db') := by
  suffices hfrom : ∀ attempts, ∃ results db', SameContent db db' ∧
      (∀ name target, db'.refs.get name = some target → db.refs.get name = some target ∨
        ∃ u ∈ updates, ∃ oid, u.new = some oid ∧ u.name = name ∧ target = .direct oid) ∧
      (updateRefsFrom updates attempts : StoreProg V ε _).run Db.handler db = some (.ok results, db') from
    hfrom UPDATE_REFS_ATTEMPTS
  intro attempts
  induction attempts with
  | zero => exact ⟨_, db, ⟨⟨rfl, rfl⟩, rfl⟩, fun _ _ h => .inl h, rfl⟩
  | succ attempts ih =>
    let txn : RefTxn := ⟨db.refs, db.version, [], []⟩
    have hcommit := run_commitTxn (ε := ε) db (txn.updateAll updates).1
    by_cases hconf : db.conflicts (txn.updateAll updates).1 = true
    · obtain ⟨results, db', hsame, hrefs, hrun⟩ := ih
      refine ⟨results, db', hsame, hrefs, ?_⟩
      rw [hconf, if_pos rfl] at hcommit
      rw [← hrun]
      exact Prog.run_bind_ok hcommit
    · simp only [Bool.not_eq_true] at hconf
      rw [hconf, if_neg (by simp)] at hcommit
      refine ⟨(txn.updateAll updates).2, db.apply (.refs (txn.updateAll updates).1.writes), ⟨⟨rfl, rfl⟩, rfl⟩, ?_,
        Prog.run_bind_ok hcommit⟩
      · intro name target h
        refine (get_foldl_setRef _ _ h).imp_right fun hw => ?_
        rcases RefTxn.mem_updateAll hw with hw | ⟨u, hu, hw⟩
        · simp [txn] at hw
        · cases hnew : u.new with
          | none => simp [hnew] at hw
          | some oid =>
            simp only [hnew, Option.map_some, Prod.mk.injEq, Option.some.injEq] at hw
            exact ⟨u, hu, oid, hnew, hw.1.symm, hw.2⟩

/-! ## Pushes -/

/-- A repository as it is created: no objects, no records, and no ref to an
object. -/
structure Fresh (E : Env) (db : E.Db) : Prop where
  objects : ∀ x, db.objects x = none
  graph : ∀ c, db.graph c = none
  refs : ∀ name oid, db.refs.get name ≠ some (.direct oid)

/-- A push of a pack whose ids are hashes ends with `r`. -/
def Push (E : Env) (db : E.Db) (staged : StagedPack) (updates : List RefUpdate)
    (r : Except PromoteError (List RefUpdateResult)) (db' : E.Db) : Prop :=
  staged.Acyclic E ∧ ∃ fuel, E.run (Promote.receivePack E fuel staged updates) db = some (r, db')

/-- `db` can be reached from `db₀` by pushes, accepted or not. -/
def Pushed (E : Env) (db₀ db : E.Db) : Prop :=
  Relation.ReflTransGen (fun db db' => ∃ staged updates r, Push E db staged updates r db') db₀ db

/-- What a push is: a promotion, and the ref updates if it was accepted. -/
theorem Push.cases {db db' : E.Db} {staged : StagedPack} {updates : List RefUpdate}
    {r : Except PromoteError (List RefUpdateResult)} (h : Push E db staged updates r db') :
    (∃ fuel e, r = .error e ∧
        E.run (Promote.validateAndPromote E fuel staged (Promote.tipsOf updates)) db = some (.error e, db')) ∨
      ∃ fuel results p db₁, r = .ok results ∧
        E.run (Promote.validateAndPromote E fuel staged (Promote.tipsOf updates)) db = some (.ok p, db₁) ∧
        E.run (updateRefs updates : E.Prog PromoteError _) db₁ = some (.ok results, db') := by
  obtain ⟨-, fuel, hr⟩ := h
  rcases Prog.run_bind_inv hr with ⟨p, db₁, hp, hr⟩ | ⟨e, hp, rfl⟩
  · obtain ⟨results, db₂, -, -, hrefs⟩ := run_updateRefs (ε := PromoteError) updates db₁
    cases hrefs.symm.trans hr
    exact .inr ⟨fuel, results, p, db₁, rfl, hp, hrefs⟩
  · exact .inl ⟨fuel, e, rfl, hp⟩

/-- An accepted push. -/
def AcceptedPush (E : Env) (db : E.Db) (staged : StagedPack) (updates : List RefUpdate) (db' : E.Db) : Prop :=
  ∃ results, Push E db staged updates (.ok results) db'

/-- What an accepted push leaves, refs aside. -/
theorem AcceptedPush.stored {db db' : E.Db} {staged : StagedPack} {updates : List RefUpdate}
    (h : AcceptedPush E db staged updates db') :
    ∃ l db₁, Promote.Validated E staged (Promote.Committed db) (Promote.tipsOf updates) (.ok l) ∧
      Promote.Stored E l db db₁ ∧ SameData db₁ db' := by
  obtain ⟨results, hp⟩ := h
  rcases hp.cases with ⟨fuel, e, he, -⟩ | ⟨fuel, results', p, db₂, -, hrun, hrefs⟩
  · cases he
  · obtain ⟨l, db₁, -, hval, hstored, hgraph, -⟩ := Promote.run_validateAndPromote_ok hp.1 hrun
    obtain ⟨results'', db₃, hsame, -, hrefs'⟩ := run_updateRefs (ε := PromoteError) updates db₂
    cases hrefs.symm.trans hrefs'
    have hobjects := ((graphProg_extendGraphAll fuel _).sameObjects hgraph).toSameData
    exact ⟨l, db₁, hval, hstored, hsame.objects.trans hobjects.objects, hsame.blobs.trans hobjects.blobs⟩

theorem AcceptedPush.tips {db db' : E.Db} {staged : StagedPack} {updates : List RefUpdate}
    (h : AcceptedPush E db staged updates db') {t : ObjectId} (ht : t ∈ Promote.tipsOf updates) :
    Promote.Committed db' t := by
  obtain ⟨l, db₁, hval, hstored, hsame⟩ := h.stored
  exact (hsame.committed t).2 ((hstored.committed t).2 (hval.1.tips t ht))

/-- After a first push, what is there is what was sent. -/
theorem AcceptedPush.objectAt_of_fresh {db db' : E.Db} {staged : StagedPack} {updates : List RefUpdate}
    (h : AcceptedPush E db staged updates db') (hfresh : Fresh E db) {x : ObjectId} (hx : Promote.Committed db' x) :
    E.objectAt db' x = staged.read x := by
  obtain ⟨l, db₁, hval, hstored, hsame⟩ := h.stored
  rw [hsame.objectAt]
  rcases hstored.cases hval ((hsame.committed x).1 hx) with ⟨hold, -⟩ | ⟨-, ho, -⟩
  · simp [Promote.Committed, hfresh.objects] at hold
  · exact ho

/-- A repository pushes have led to. -/
structure Tracked (E : Env) (db : E.Db) : Prop extends Sound E db where
  sane : Sane E (E.commitAt db) (fun _ => True) db
  targets : ∀ name oid, db.refs.get name = some (.direct oid) → Promote.Committed db oid

theorem Fresh.objectAt {db : E.Db} (h : Fresh E db) (x : ObjectId) : E.objectAt db x = none := by
  simp [Env.objectAt, h.objects]

theorem Fresh.not_child {db : E.Db} (h : Fresh E db) (x y : ObjectId) : ¬ E.Child db x y := by
  intro hc
  obtain ⟨kind, body, children, ho, -⟩ := hc
  simp [h.objectAt] at ho

theorem Fresh.tracked {db : E.Db} (h : Fresh E db) : Tracked E db where
  object oid ho := by simp [h.objects] at ho
  size oid record kind body hr := by simp [h.objects] at hr
  decodes x kind body ho := by simp [h.objectAt] at ho
  closed x y hc := absurd hc (h.not_child x y)
  acyclic x hx := by
    obtain ⟨y, hxy, -⟩ := Relation.TransGen.head'_iff.1 hx
    exact h.not_child x y hxy
  sane c v _ hv := by simp [h.graph] at hv
  targets name oid hr := absurd hr (h.refs name oid)

/-- Objects are added without a change to the records. -/
theorem Promote.Stored.sane {l : List (ObjectId × Kind × Bytes)} {db db' : E.Db} (h : Promote.Stored E l db db')
    {A : ObjectId → Prop} (hs : Sane E (E.commitAt db) A db) : Sane E (E.commitAt db') A db' := by
  intro c v ha hv
  rw [h.graph] at hv
  rcases hs c v ha hv with ⟨⟨r, hd, hr⟩, hread⟩ | ⟨he, hread⟩
  · have hr' := hr.mono h.commitAt_old
    refine .inl ⟨⟨r, hd, hr'⟩, fun r₁ hr₁ => ?_⟩
    rw [hr₁.unique hr']
    exact hread r hr
  · refine .inr ⟨he, fun hread' => hread fun r hr => ?_⟩
    exact hread' r (hr.mono h.commitAt_old)

namespace Tracked

variable {db db' : E.Db}

theorem recorded (hcodec : E.codec = .bytes) (h : Tracked E db) (hr : Recorded E (E.commitAt db) db db') :
    Tracked E db' :=
  { hr.sound h.toSound with
    sane := by
      rw [show E.commitAt db' = E.commitAt db from funext hr.commitAt]
      exact hr.sane (fun c _ => Env.honest_bytes hcodec db c) h.sane
    targets := fun name oid hn => by
      rw [hr.refs] at hn
      exact (hr.committed oid).2 (h.targets name oid hn) }

theorem stored {staged : StagedPack} (hacyc : staged.Acyclic E) {tips : List ObjectId}
    {l : List (ObjectId × Kind × Bytes)} (h : Tracked E db)
    (hl : Promote.Validated E staged (Promote.Committed db) tips (.ok l)) (hs : Promote.Stored E l db db') :
    Tracked E db' :=
  { hs.sound hl hacyc h.toSound with
    sane := hs.sane h.sane
    targets := fun name oid hn => by
      rw [hs.refs] at hn
      exact (hs.committed oid).2 (.inl (h.targets name oid hn)) }

/-- A promotion ends: validation rejects it with nothing changed, or what it
lists is written, and its commits are indexed or the indexing fails. -/
theorem run_promote (hcodec : E.codec = .bytes) (h : Tracked E db) {staged : StagedPack} (hacyc : staged.Acyclic E)
    (tips : List ObjectId) :
    ∃ N, (∃ e, Promote.Validated E staged (Promote.Committed db) tips (.error e) ∧
        ∀ fuel ≥ N, (Promote.validateAndPromote E fuel staged tips).run Db.handler db = some (.error e, db)) ∨
      ∃ l db₁ r db', Promote.Validated E staged (Promote.Committed db) tips (.ok l) ∧ Promote.Stored E l db db₁ ∧
        Tracked E db₁ ∧ Recorded E (E.commitAt db₁) db₁ db' ∧
        (match r with
          | .ok _ => (∀ e ∈ Promote.ofKind .commit l,
                (∃ g, Commits.IsGen (E.commitAt db₁) e.1 g) ∧ (db'.graph e.1).isSome) ∧
              ∀ pre e post, Promote.ofKind .commit l = pre ++ e :: post → ∀ p, E.Parent db₁ e.1 p →
                (p ∈ Promote.ids pre ∨ (db.graph p).isSome) → E.Readable (E.commitAt db₁) p
          | .error _ => Obstructed E (E.commitAt db₁) (Promote.LookedUpForNew E db₁ l)) ∧
        ∀ fuel ≥ N, (Promote.validateAndPromote E fuel staged tips).run Db.handler db = some (r, db') := by
  rcases Promote.run_validateAndPromote hacyc tips h.toSound with ⟨N, e, hval, hN⟩ | ⟨l, db₁, hval, hstored, hpromote⟩
  · exact ⟨N, .inl ⟨e, hval, hN⟩⟩
  · have h₁ := h.stored hacyc hval hstored
    obtain ⟨N, r, db', hr, hrec, hN⟩ := hpromote (fun a _ => Env.honest_bytes hcodec db₁ a)
      fun c v _ hv => h₁.sane c v trivial hv
    exact ⟨N, .inr ⟨l, db₁, r, db', hval, hstored, h₁, hrec, hr, hN⟩⟩

/-- A promotion run to its end. -/
theorem promote (hcodec : E.codec = .bytes) (h : Tracked E db) {staged : StagedPack} (hacyc : staged.Acyclic E)
    {tips : List ObjectId} {fuel : Nat} {r : Except PromoteError Promotion}
    (hr : (Promote.validateAndPromote E fuel staged tips).run Db.handler db = some (r, db')) :
    Tracked E db' ∧ ((∃ p, r = .ok p) → ∀ t ∈ tips, Promote.Committed db' t) := by
  obtain ⟨N, hN⟩ := h.run_promote hcodec hacyc tips
  have hrun := validateAndPromote_runsAs (Nat.le_max_left fuel N) staged tips db _ hr
  rcases hN with ⟨e, -, hN⟩ | ⟨l, db₁, r', db₂, hval, hstored, h₁, hrec, -, hN⟩
  · cases hrun.symm.trans (hN _ (Nat.le_max_right fuel N))
    exact ⟨h, fun hp => by obtain ⟨p, hp⟩ := hp; cases hp⟩
  · cases hrun.symm.trans (hN _ (Nat.le_max_right fuel N))
    exact ⟨h₁.recorded hcodec hrec, fun _ t ht =>
      (hrec.committed t).2 ((hstored.committed t).2 (hval.1.tips t ht))⟩

/-- Ref updates whose new ids are there. -/
theorem refsUpdated (h : Tracked E db) (hsame : SameContent db db')
    (hrefs : ∀ name oid, db'.refs.get name = some (.direct oid) →
      db.refs.get name = some (.direct oid) ∨ Promote.Committed db oid) : Tracked E db' :=
  { hsame.sound h.toSound with
    sane := fun c v _ hv => by
      rw [hsame.graph] at hv
      rw [show E.commitAt db' = E.commitAt db from funext hsame.commitAt]
      exact h.sane c v trivial hv
    targets := fun name oid hn => by
      rw [hsame.committed]
      exact (hrefs name oid hn).elim (h.targets name oid) id }

/-- A push keeps a repository tracked. -/
theorem push (hcodec : E.codec = .bytes) (h : Tracked E db) {staged : StagedPack} {updates : List RefUpdate}
    {r : Except PromoteError (List RefUpdateResult)} (hp : Push E db staged updates r db') : Tracked E db' := by
  rcases hp.cases with ⟨fuel, e, -, hrun⟩ | ⟨fuel, results, p, db₁, -, hrun, hrefs⟩
  · exact (h.promote hcodec hp.1 hrun).1
  · obtain ⟨h₁, htips⟩ := h.promote hcodec hp.1 hrun
    obtain ⟨results', db₂, hsame, htargets, hrefs'⟩ := run_updateRefs (ε := PromoteError) updates db₁
    cases hrefs.symm.trans hrefs'
    refine h₁.refsUpdated hsame fun name oid hn => ?_
    rcases htargets name _ hn with hold | ⟨u, hu, oid', hnew, -, heq⟩
    · exact .inl hold
    · cases heq
      exact .inr (htips ⟨p, rfl⟩ oid (List.mem_filterMap.2 ⟨u, hu, hnew⟩))

/-- A run of pushes leads to a tracked repository. -/
theorem of_pushed (hcodec : E.codec = .bytes) {db₀ : E.Db} (hfresh : Fresh E db₀) (hrun : Pushed E db₀ db) :
    Tracked E db := by
  induction hrun with
  | refl => exact hfresh.tracked
  | tail _ hstep ih =>
    obtain ⟨staged, updates, r, hp⟩ := hstep
    exact ih.push hcodec hp

end Tracked

/-! ## Sending a rejected push again -/

namespace Promote

/-- If a promotion fails, the same promotion fails again on the state it
left. -/
def RetryRejected (E : Env) (db : E.Db) (staged : StagedPack) (tips : List ObjectId) : Prop :=
  ∀ fuel e db', E.run (validateAndPromote E fuel staged tips) db = some (.error e, db') →
    ∃ N e' db'', ∀ fuel' ≥ N, E.run (validateAndPromote E fuel' staged tips) db' = some (.error e', db'')

/-- Something the tips need is neither in the store nor in the pack, or does
not decode. -/
def Disconnected (E : Env) (db : E.Db) (staged : StagedPack) (tips : List ObjectId) : Prop :=
  ∃ x, Needed E staged (Committed db) tips x ∧ ¬ Committed db x ∧
    ∀ kind body, staged.read x = some (kind, body) → objectChildren E x kind body = none

/-- The commit each id names, in the store or else in the pack. -/
def commitIn (E : Env) (db : E.Db) (staged : StagedPack) : Commits := fun x =>
  if (db.objects x).isSome then E.commitAt db x
  else match staged.read x with
    | some (.commit, body) => E.gix.commitFromBytes body x.kind
    | _ => none

/-- `c` is a commit of the pack that the tips need and the store lacks. -/
def NewCommit (E : Env) (db : E.Db) (staged : StagedPack) (tips : List ObjectId) (c : ObjectId) : Prop :=
  Needed E staged (Committed db) tips c ∧ ¬ Committed db c ∧ (commitIn E db staged c).isSome

/-- `a` is a proper ancestor of a new commit. -/
def AboveNew (E : Env) (db : E.Db) (staged : StagedPack) (tips : List ObjectId) (a : ObjectId) : Prop :=
  ∃ c, NewCommit E db staged tips c ∧ Relation.TransGen (commitIn E db staged).Parent c a

/-- `a` is a parent of a new commit, or an ancestor of one above commits
without a record. -/
def LookedUpAbove (E : Env) (db : E.Db) (staged : StagedPack) (tips : List ObjectId) (a : ObjectId) : Prop :=
  ∃ c p, NewCommit E db staged tips c ∧ (commitIn E db staged).Parent c p ∧
    Relation.ReflTransGen (fun x y => db.graph x = none ∧ (commitIn E db staged).Parent x y) p a

/-- Where the parents of the new commits are looked up, there are commits of at
most 255 parents. -/
def Indexable (E : Env) (db : E.Db) (staged : StagedPack) (tips : List ObjectId) : Prop :=
  ∀ a, LookedUpAbove E db staged tips a → ∃ commit, commitIn E db staged a = some commit ∧ commit.parents.length ≤ 255

variable {db db' db₁ : E.Db} {staged : StagedPack} {tips : List ObjectId} {l : List (ObjectId × Kind × Bytes)}

theorem validated_error_iff {r : Except PromoteError (List (ObjectId × Kind × Bytes))}
    (h : Validated E staged (Committed db) tips r) : (∃ e, r = .error e) ↔ Disconnected E db staged tips := by
  cases r with
  | ok l =>
    refine ⟨nofun, fun hd => ?_⟩
    obtain ⟨x, hx, hnew, hno⟩ := hd
    obtain ⟨e, he, rfl⟩ := mem_ids.1 ((h.1.needed hx).resolve_left hnew)
    obtain ⟨hread, hdec⟩ := h.1.holds e he
    simp [hno _ _ hread] at hdec
  | error e =>
    refine ⟨fun _ => ?_, fun _ => ⟨e, rfl⟩⟩
    cases e with
    | connectivity missing referencedBy =>
      obtain ⟨hneeded, hnew, hread, -⟩ := h
      exact ⟨missing, hneeded, hnew, fun kind body hb => by simp [hread] at hb⟩
    | decode oid =>
      obtain ⟨kind, body, hneeded, hnew, hread, hnone⟩ := h
      refine ⟨oid, hneeded, hnew, fun kind' body' hb => ?_⟩
      cases hread.symm.trans hb
      exact hnone
    | store e | objects e | walk e => exact h.elim

section Written

variable (hval : Validated E staged (Committed db) tips (.ok l)) (hstored : Stored E l db db₁)

include hval hstored

/-- The commits of the state a promotion writes are those of the store and
the pack. -/
theorem commitAt_stored {x : ObjectId} (hx : Committed db₁ x) : E.commitAt db₁ x = commitIn E db staged x := by
  unfold commitIn
  rcases hstored.cases hval hx with ⟨hold, ho⟩ | ⟨hnew, ho, -⟩
  · rw [if_pos (show (db.objects x).isSome = true from hold), Env.commitAt, Env.commitAt, ho]
  · rw [if_neg (show ¬ (db.objects x).isSome = true from hnew), ← ho]
    rfl

theorem parent_commitIn {x y : ObjectId} (h : E.Parent db₁ x y) : (commitIn E db staged).Parent x y := by
  obtain ⟨commit, hc, hy⟩ := h
  obtain ⟨body, ho, -⟩ := commitAt_eq_some.1 hc
  exact ⟨commit, by rw [← commitAt_stored hval hstored (objectAt_isSome (by simp [ho])), hc], hy⟩

theorem newCommit_of_mem {e : ObjectId × Kind × Bytes} (he : e ∈ ofKind .commit l) {p : ObjectId}
    (hp : E.Parent db₁ e.1 p) : NewCommit E db staged tips e.1 := by
  obtain ⟨hmem, -⟩ := mem_ofKind.1 he
  obtain ⟨hnew, hneeded⟩ := hval.2 e.1 (mem_ids_of_mem hmem)
  obtain ⟨commit, hc, -⟩ := parent_commitIn hval hstored hp
  exact ⟨hneeded, hnew, by rw [hc]; rfl⟩

/-- What is looked up for the listed commits is what is looked up for the new
commits. -/
theorem lookedUpAbove_of_lookedUp {a : ObjectId} (h : LookedUpForNew E db₁ l a) : LookedUpAbove E db staged tips a := by
  obtain ⟨e, he, p, hp, hlook⟩ := h
  refine ⟨e.1, p, newCommit_of_mem hval hstored he hp, parent_commitIn hval hstored hp,
    Relation.ReflTransGen.mono (fun x y hxy => ?_) _ _ hlook⟩
  rw [hstored.graph] at hxy
  exact ⟨hxy.1, parent_commitIn hval hstored hxy.2⟩

theorem ancestorOfNew_iff (hs : Sound E db₁) {a : ObjectId} :
    AncestorOfNew E db₁ l a ↔ AboveNew E db staged tips a := by
  constructor
  · intro h
    obtain ⟨e, he, hanc⟩ := h
    obtain ⟨b, hp, -⟩ := Relation.TransGen.head'_iff.1 hanc
    exact ⟨e.1, newCommit_of_mem hval hstored he hp,
      Relation.TransGen.mono (fun x y hxy => parent_commitIn hval hstored hxy) _ _ hanc⟩
  · intro h
    obtain ⟨c, ⟨hneeded, hnew, hsome⟩, hanc⟩ := h
    have hc : c ∈ ids l := (hval.1.needed hneeded).resolve_left hnew
    have hstep : ∀ x y, Committed db₁ x → (commitIn E db staged).Parent x y → E.Parent db₁ x y ∧ Committed db₁ y := by
      intro x y hx hxy
      obtain ⟨commit, hcm, hy⟩ := hxy
      rw [← commitAt_stored hval hstored hx] at hcm
      have hpar : E.Parent db₁ x y := ⟨commit, hcm, hy⟩
      exact ⟨hpar, hs.closed x y ((child_commit hcm).2 (.inr hpar))⟩
    have hcom : Committed db₁ c := (hstored.committed c).2 (.inr hc)
    have hanc' : Relation.TransGen (E.Parent db₁) c a ∧ Committed db₁ a := by
      induction hanc with
      | single hp => exact ⟨.single (hstep _ _ hcom hp).1, (hstep _ _ hcom hp).2⟩
      | tail _ hp ih => exact ⟨ih.1.tail (hstep _ _ ih.2 hp).1, (hstep _ _ ih.2 hp).2⟩
    obtain ⟨e, he, rfl⟩ := mem_ids.1 hc
    refine ⟨e, mem_ofKind.2 ⟨he, ?_⟩, hanc'.1⟩
    rw [← commitAt_stored hval hstored hcom] at hsome
    obtain ⟨commit, hcm⟩ := Option.isSome_iff_exists.1 hsome
    obtain ⟨body, ho, -⟩ := commitAt_eq_some.1 hcm
    have heq := ho.symm.trans (hstored.new e he hnew)
    rw [← Option.some.inj heq]

end Written

/-- A parent of a new commit has more than 255 parents itself, and a record
or one to come. -/
def OverfullParent (E : Env) (db : E.Db) (staged : StagedPack) (tips : List ObjectId) : Prop :=
  ∃ c p commit, NewCommit E db staged tips c ∧ (commitIn E db staged).Parent c p ∧
    (NewCommit E db staged tips p ∨ (db.graph p).isSome) ∧ commitIn E db staged p = some commit ∧
    255 < commit.parents.length

section Indexed

variable (hval : Validated E staged (Committed db) tips (.ok l)) (hstored : Stored E l db db₁) (hs : Sound E db₁)
  (hgen : ∀ e ∈ ofKind .commit l, ∃ g, Commits.IsGen (E.commitAt db₁) e.1 g)

include hval hstored hs hgen

/-- Where the new commits have generations, their ancestors are commits. -/
theorem commitIn_of_indexed {a : ObjectId} (ha : AboveNew E db staged tips a) : (commitIn E db staged a).isSome := by
  obtain ⟨e, he, hanc⟩ := (ancestorOfNew_iff hval hstored hs).2 ha
  have hgen' : ∃ g, Commits.IsGen (E.commitAt db₁) a g := by
    clear ha
    induction hanc with
    | single hp =>
      obtain ⟨g, hg⟩ := hgen e he
      exact hg.parent hp
    | tail _ hp ih =>
      obtain ⟨g, hg⟩ := ih
      exact hg.parent hp
  obtain ⟨g, hg⟩ := hgen'
  obtain ⟨commit, hc⟩ := hg.isSome
  obtain ⟨body, ho, -⟩ := commitAt_eq_some.1 hc
  rw [← commitAt_stored hval hstored (objectAt_isSome (by simp [ho])), hc]
  rfl

omit hs in
/-- Where the parents of the new commits were found to be readable, none of
them has too many parents. -/
theorem not_overfullParent (hcodec : E.codec = .bytes)
    (hread : ∀ pre e post, ofKind .commit l = pre ++ e :: post → ∀ p, E.Parent db₁ e.1 p →
      (p ∈ ids pre ∨ (db.graph p).isSome) → E.Readable (E.commitAt db₁) p) : ¬ OverfullParent E db staged tips := by
  intro h
  obtain ⟨c, p, commit, hnewc, hpar, hknown, hcm, hmany⟩ := h
  have hin : ∀ x, NewCommit E db staged tips x → ∃ e ∈ ofKind .commit l, e.1 = x := by
    intro x hx
    obtain ⟨hneeded, hnew, hsome⟩ := hx
    obtain ⟨e, he, rfl⟩ := mem_ids.1 ((hval.1.needed hneeded).resolve_left hnew)
    rw [← commitAt_stored hval hstored ((hstored.committed _).2 (.inr (mem_ids_of_mem he)))] at hsome
    obtain ⟨commit', hcm'⟩ := Option.isSome_iff_exists.1 hsome
    obtain ⟨body, ho, -⟩ := commitAt_eq_some.1 hcm'
    have heq := ho.symm.trans (hstored.new e he hnew)
    exact ⟨e, mem_ofKind.2 ⟨he, by rw [← Option.some.inj heq]⟩, rfl⟩
  obtain ⟨e, he, rfl⟩ := hin c hnewc
  obtain ⟨hmem, -⟩ := mem_ofKind.1 he
  have hcom : Committed db₁ e.1 := (hstored.committed _).2 (.inr (mem_ids_of_mem hmem))
  have hpar₁ : E.Parent db₁ e.1 p := by
    obtain ⟨commit', hc', hp⟩ := hpar
    exact ⟨commit', by rw [commitAt_stored hval hstored hcom, hc'], hp⟩
  obtain ⟨g, hg⟩ := hgen e he
  obtain ⟨g', hg'⟩ := hg.parent hpar₁
  obtain ⟨commit', hc'⟩ := hg'.isSome
  have hcomp : Committed db₁ p := by
    obtain ⟨body, ho, -⟩ := commitAt_eq_some.1 hc'
    exact objectAt_isSome (by simp [ho])
  rw [← commitAt_stored hval hstored hcomp] at hcm
  -- the parent, if it is new, was listed before its child
  obtain ⟨pre, post, hl⟩ := List.append_of_mem hmem
  have hsplit : ofKind .commit l = ofKind .commit pre ++ e :: ofKind .commit post := by
    obtain ⟨-, hk⟩ := mem_ofKind.1 he
    simp [ofKind, hl, List.filter_append, hk]
  have hfound : p ∈ ids (ofKind .commit pre) ∨ (db.graph p).isSome := by
    refine hknown.imp_left fun hp => ?_
    obtain ⟨e', he', rfl⟩ := hin p hp
    obtain ⟨hmem', hk'⟩ := mem_ofKind.1 he'
    have hchild₁ : E.Child db₁ e.1 e'.1 := by
      obtain ⟨commit', hc', hp'⟩ := hpar₁
      exact (child_commit hc').2 (.inr ⟨commit', hc', hp'⟩)
    rcases hstored.child_cases hval hchild₁ with ⟨hold, -⟩ | ⟨-, hchild⟩
    · exact absurd hold hnewc.2.1
    · obtain ⟨e'', he'', heq⟩ := mem_ids.1 ((hval.1.children pre e post hl e'.1 hchild).resolve_left hp.2.1)
      have hread'' := (hval.1.holds e'' (hl ▸ List.mem_append_left _ he'')).1
      rw [heq, (hval.1.holds e' hmem').1] at hread''
      rw [← heq]
      exact mem_ids_of_mem (mem_ofKind.2 ⟨he'', by rw [← Option.some.inj hread'', hk']⟩)
  have hfew := Env.few_of_readable hcodec hcm hg' (hread _ e _ hsplit p hpar₁ hfound)
  omega

end Indexed

/-- A promotion whose tips are all in the store adds nothing, whatever its
pack holds. -/
theorem run_validateAndPromote_known (hacyc : staged.Acyclic E) (htips : ∀ t ∈ tips, Committed db t) :
    ∃ N, ∀ fuel ≥ N, E.run (validateAndPromote E fuel staged tips) db = some (.ok ⟨[], []⟩, db) := by
  have hneeded : ∀ x, Needed E staged (Committed db) tips x → Committed db x := by
    intro x hx
    induction hx with
    | tip ht => exact htips _ ht
    | child _ hc _ ih => exact absurd ih hc
  obtain ⟨N, r, hval, hN⟩ := run_validate hacyc tips db
  have hr : r = .ok [] := by
    cases r with
    | error e =>
      obtain ⟨x, hx, hnew, -⟩ := (validated_error_iff hval).1 ⟨e, rfl⟩
      exact absurd (hneeded x hx) hnew
    | ok l =>
      cases l with
      | nil => rfl
      | cons e l =>
        obtain ⟨hnew, hx⟩ := hval.2 e.1 (by simp)
        exact absurd (hneeded e.1 hx) hnew
  subst hr
  exact ⟨N, fun fuel hfuel => Prog.run_bind_ok (hN fuel hfuel)⟩

end Promote

namespace Tracked

open Promote

variable {db : E.Db} {staged : StagedPack} {tips : List ObjectId}

/-- Where validation rejects the push, or the ancestors of its commits can be
looked up, a failure is final. -/
theorem retryRejected (hcodec : E.codec = .bytes) (h : Tracked E db) (hacyc : staged.Acyclic E)
    (hcond : Disconnected E db staged tips ∨ Indexable E db staged tips) : RetryRejected E db staged tips := by
  intro fuel e db' hr
  obtain ⟨N, hN⟩ := h.run_promote hcodec hacyc tips
  have hrun := validateAndPromote_runsAs (Nat.le_max_left fuel N) staged tips db _ hr
  rcases hN with ⟨e', -, hN⟩ | ⟨l, db₁, r, db₂, hval, hstored, h₁, hrec, hpost, hN⟩
  · cases hrun.symm.trans (hN _ (Nat.le_max_right fuel N))
    exact ⟨N, e, db, hN⟩
  · exfalso
    cases hrun.symm.trans (hN _ (Nat.le_max_right fuel N))
    obtain ⟨a, ha, hbad⟩ := hpost
    have hcom : Committed db₁ a := by
      obtain ⟨e, -, hanc⟩ := ha.ancestorOfNew
      obtain ⟨b, -, commit, hc, hp⟩ := Relation.TransGen.tail'_iff.1 hanc
      exact h₁.closed b a ((child_commit hc).2 (.inr ⟨commit, hc, hp⟩))
    rcases hcond with hd | hindex
    · obtain ⟨e', he'⟩ := (validated_error_iff hval).2 hd
      cases he'
    · obtain ⟨commit, hc, hfew⟩ := hindex a (lookedUpAbove_of_lookedUp hval hstored ha)
      rw [← commitAt_stored hval hstored hcom] at hc
      rcases hbad with hnone | hread
      · cases hc.symm.trans hnone
      · refine hread (Env.readable_of_few hcodec fun commit' hc' => ?_)
        cases hc.symm.trans hc'
        exact hfew

/-- Where indexing must fail, the objects are in the store by then, and the
push is accepted when sent again. -/
theorem retry_accepted (hcodec : E.codec = .bytes) (h : Tracked E db) (hacyc : staged.Acyclic E)
    (hconn : ¬ Disconnected E db staged tips)
    (hbad : (∃ a, AboveNew E db staged tips a ∧ commitIn E db staged a = none) ∨ OverfullParent E db staged tips) :
    ∃ N e db' p, (∀ fuel ≥ N, E.run (validateAndPromote E fuel staged tips) db = some (.error e, db')) ∧
      ∀ fuel ≥ N, E.run (validateAndPromote E fuel staged tips) db' = some (.ok p, db') := by
  obtain ⟨N, hN⟩ := h.run_promote hcodec hacyc tips
  rcases hN with ⟨e, hval, -⟩ | ⟨l, db₁, r, db', hval, hstored, h₁, hrec, hpost, hN⟩
  · exact absurd ((validated_error_iff hval).1 ⟨e, rfl⟩) hconn
  cases r with
  | ok p =>
    exfalso
    obtain ⟨hindexed, hread⟩ := hpost
    have hgen := fun e he => (hindexed e he).1
    rcases hbad with ⟨a, ha, hnone⟩ | hover
    · have hsome := commitIn_of_indexed hval hstored h₁.toSound hgen ha
      simp [hnone] at hsome
    · exact not_overfullParent hval hstored hgen hcodec hread hover
  | error e =>
    have htips : ∀ t ∈ tips, Committed db' t := fun t ht =>
      (hrec.committed t).2 ((hstored.committed t).2 (hval.1.tips t ht))
    obtain ⟨N', hN'⟩ := run_validateAndPromote_known hacyc htips
    exact ⟨max N N', e, db', _, fun fuel hfuel => hN fuel (by omega), fun fuel hfuel => hN' fuel (by omega)⟩

end Tracked

/-- When a failed push fails again if sent again. It does where validation
rejects it, or where the ancestors of its new commits that are looked up are
commits of at most 255 parents. It is accepted where it gets past validation and an ancestor is
not a commit, or a parent whose record is there to be read has more than 255
parents. -/
theorem rejectedPush_retry (hcodec : E.codec = .bytes) {db₀ db : E.Db} (hfresh : Fresh E db₀) (hrun : Pushed E db₀ db)
    {staged : StagedPack} (hacyc : staged.Acyclic E) (tips : List ObjectId) :
    (Promote.Disconnected E db staged tips ∨ Promote.Indexable E db staged tips →
      Promote.RetryRejected E db staged tips) ∧
    (Promote.RetryRejected E db staged tips → Promote.Disconnected E db staged tips ∨
      (∀ a, Promote.AboveNew E db staged tips a → (Promote.commitIn E db staged a).isSome) ∧
        ¬ Promote.OverfullParent E db staged tips) := by
  have h := Tracked.of_pushed hcodec hfresh hrun
  refine ⟨h.retryRejected hcodec hacyc, fun hretry => or_iff_not_imp_left.2 fun hconn => ?_⟩
  by_contra hbad
  obtain ⟨N, e, db', p, hfirst, hagain⟩ := h.retry_accepted hcodec hacyc hconn (by
    rw [not_and_or, not_not] at hbad
    refine hbad.imp_left fun hsome => ?_
    push Not at hsome
    simpa using hsome)
  obtain ⟨N', e', db'', hN'⟩ := hretry N e db' (hfirst N le_rfl)
  have hcontra := (hagain (max N N') (by omega)).symm.trans (hN' (max N N') (by omega))
  cases hcontra

theorem fresh_empty : Fresh E (Db.empty : E.Db) := ⟨fun _ => rfl, fun _ => rfl, fun name oid h => by cases h⟩

namespace Sample

/-- The tip without the blob of its tree. -/
def torn : StagedPack := .of [(treeId, .tree, treeBody), (tipId, .commit, tipBody)]

theorem torn_child {x y : ObjectId} (h : torn.Child env x y) : pack.Child env x y := by
  obtain ⟨kind, body, children, hread, hchildren⟩ := h
  have hobjects : ∀ e ∈ [(treeId, Kind.tree, treeBody), (tipId, Kind.commit, tipBody)],
      objects.lookup e.1 = some (e.2.1, e.2.2) := by decide +kernel
  refine ⟨kind, body, children, ?_, hchildren⟩
  rw [pack, StagedPack.read_of]
  exact hobjects _ (StagedPack.mem_of_read hread)

theorem torn_acyclic : torn.Acyclic env :=
  fun x hx => pack_acyclic x (Relation.TransGen.mono (fun _ _ h => torn_child h) _ _ hx)

/-- After a first push of the pack, each id names what the pack has there. -/
theorem commitIn_pushed {db : env.Db} {updates : List RefUpdate} (h : AcceptedPush env Db.empty pack updates db)
    (x : ObjectId) : Promote.commitIn env db pack x = match pack.read x with
      | some (.commit, body) => env.gix.commitFromBytes body x.kind
      | _ => none := by
  unfold Promote.commitIn
  split
  · rename_i hcommitted
    exact congrArg (fun object => match object with
      | some (.commit, body) => env.gix.commitFromBytes body x.kind
      | _ => none) (h.objectAt_of_fresh fresh_empty hcommitted)
  · rfl

theorem parent_pushed {db : env.Db} {updates : List RefUpdate} (h : AcceptedPush env Db.empty pack updates db)
    {x y : ObjectId} (hxy : (Promote.commitIn env db pack).Parent x y) : y = rootId := by
  obtain ⟨commit, hcommit, hy⟩ := hxy
  rw [commitIn_pushed h] at hcommit
  split at hcommit
  · rename_i body hread
    have hmem := StagedPack.mem_of_read hread
    simp only [objects, List.mem_cons, Prod.mk.injEq, List.not_mem_nil, reduceCtorEq, false_and, and_false, true_and,
      or_false, false_or] at hmem
    rcases hmem with ⟨rfl, rfl⟩ | ⟨rfl, rfl⟩
    · cases parse_root.symm.trans hcommit
      cases hy
    · cases parse_tip.symm.trans hcommit
      exact List.mem_singleton.1 hy
  · cases hcommit

/-- Only the root is looked up for the tip, which is found. -/
theorem indexable_pushed {db : env.Db} {updates : List RefUpdate} (h : AcceptedPush env Db.empty pack updates db)
    (tips : List ObjectId) : Promote.Indexable env db pack tips := by
  intro a ha
  obtain ⟨c, p, -, hp, hlook⟩ := ha
  obtain rfl : a = rootId := by
    rcases Relation.ReflTransGen.cases_tail hlook with rfl | ⟨b, -, -, hb⟩
    · exact parent_pushed h hp
    · exact parent_pushed h hb
  refine ⟨⟨emptyTreeId, []⟩, ?_, Nat.zero_le _⟩
  rw [commitIn_pushed h, ← parse_root]
  rfl

/-- The root was pushed, and its tree. -/
theorem run_root :
    (env.run (Promote.receivePack env 20 pack [⟨"refs/heads/main", none, some rootId⟩]) Db.empty).any (fun r =>
      decide (r.1 = .ok [⟨"refs/heads/main", .updated⟩]) &&
        [rootId, emptyTreeId].all (fun x => (r.2.objects x).isSome) &&
        [blobId, treeId, tipId].all (fun x => (r.2.objects x).isNone)) = true := by
  decide +kernel

end Sample

open Sample in
/-- A push on top of an accepted one whose pack lacks a blob, and one whose
pack has it. -/
theorem rejectedPush_retry_sample :
    ∃ db, Fresh env Db.empty ∧ Pushed env Db.empty db ∧ Promote.Committed db rootId ∧
      torn.Acyclic env ∧ Promote.Disconnected env db torn [tipId] ∧ Promote.RetryRejected env db torn [tipId] ∧
      pack.Acyclic env ∧ Promote.Indexable env db pack [tipId] ∧ Promote.RetryRejected env db pack [tipId] := by
  obtain ⟨⟨r, db⟩, hrun, hstate⟩ := (Option.any_eq_true ..).1 run_root
  simp only [Bool.and_eq_true, decide_eq_true_eq, List.all_cons, List.all_nil] at hstate
  obtain ⟨hr, ⟨hroot, -⟩, hblob, htree, htip⟩ : r = .ok [⟨"refs/heads/main", .updated⟩] ∧
      ((db.objects rootId).isSome ∧ (db.objects emptyTreeId).isSome) ∧ (db.objects blobId).isNone ∧
      (db.objects treeId).isNone ∧ (db.objects tipId).isNone := by simpa [and_assoc] using hstate
  subst hr
  have hpush : AcceptedPush env Db.empty pack [⟨"refs/heads/main", none, some rootId⟩] db := ⟨_, pack_acyclic, 20, hrun⟩
  have hrun' : Pushed env Db.empty db := .single ⟨pack, _, _, pack_acyclic, 20, hrun⟩
  have htreeIn : ¬ Promote.Committed db treeId := by simpa [Promote.Committed] using htree
  have htipIn : ¬ Promote.Committed db tipId := by simpa [Promote.Committed] using htip
  have htree' : torn.Child env tipId treeId :=
    ⟨.commit, tipBody, [treeId, rootId], StagedPack.read_of _ _, by simp [Promote.objectChildren, parse_tip], by simp⟩
  have hblob' : torn.Child env treeId blobId :=
    ⟨.tree, treeBody, [blobId], StagedPack.read_of _ _,
      by simp [Promote.objectChildren, parse_tree, Promote.treeChildren], by simp⟩
  have hdis : Promote.Disconnected env db torn [tipId] := by
    refine ⟨blobId, .child (.child (.tip (List.mem_singleton_self _)) htipIn htree') htreeIn hblob', ?_, ?_⟩
    · simpa [Promote.Committed] using hblob
    · intro kind body hread
      cases (StagedPack.read_of _ _).symm.trans hread
  have hindex := indexable_pushed hpush [tipId]
  exact ⟨db, fresh_empty, hrun', hroot, torn_acyclic, hdis,
    (rejectedPush_retry rfl fresh_empty hrun' torn_acyclic [tipId]).1 (.inl hdis), pack_acyclic, hindex,
    (rejectedPush_retry rfl fresh_empty hrun' pack_acyclic [tipId]).1 (.inr hindex)⟩

/-! A blob where a commit should be: a commit with a blob as its parent, and
one with a blob as its tree. -/

namespace Misfit

open Sample

def childId : ObjectId := sha1Id 0x741844f48ce9df2a818c77e1869bfa348bf60cec
def flatId : ObjectId := sha1Id 0x2de8d3818dc98621b1910fb070f52ed4eeded24d

def childBody : Bytes := ascii
  "tree 4b825dc642cb6eb9a060e54bf8d69288fbee4904\nparent 45b983be36b73c0788dc9cbcb76cbb80fc7bb057\n" ++ ascii
  "author m <m@m> 0 +0000\ncommitter m <m@m> 0 +0000\n\np\n"
def flatBody : Bytes := ascii
  "tree 45b983be36b73c0788dc9cbcb76cbb80fc7bb057\nauthor m <m@m> 0 +0000\ncommitter m <m@m> 0 +0000\n\nb\n"

def table : ParseTable where
  commits := [(childBody, ⟨emptyTreeId, [blobId]⟩), (flatBody, ⟨blobId, []⟩)]
  tags := []
  trees := []
  commits_sha1 := by simp [emptyTreeId, blobId, sha1Id]

def env : Env := table.env 1000

def objects : List (ObjectId × Kind × Bytes) :=
  [(blobId, .blob, blobBody), (emptyTreeId, .tree, []), (childId, .commit, childBody), (flatId, .commit, flatBody)]

def pack : StagedPack := .of objects

theorem parse_child : env.gix.commitFromBytes childBody childId.kind = some ⟨emptyTreeId, [blobId]⟩ := by
  simp [env, ParseTable.env, ParseTable.gix, childId, sha1Id, table, List.lookup_cons]

theorem flatBody_ne_childBody : (flatBody == childBody) = false := by decide +kernel

theorem parse_flat : env.gix.commitFromBytes flatBody flatId.kind = some ⟨blobId, []⟩ := by
  simp [env, ParseTable.env, ParseTable.gix, flatId, sha1Id, table, List.lookup_cons, flatBody_ne_childBody]

theorem read_child : pack.read childId = some (.commit, childBody) := StagedPack.read_of objects childId

theorem read_flat : pack.read flatId = some (.commit, flatBody) := StagedPack.read_of objects flatId

theorem read_blob : pack.read blobId = some (.blob, blobBody) := StagedPack.read_of objects blobId

/-- Who refers to what. -/
def references : List (ObjectId × ObjectId) := [(childId, emptyTreeId), (childId, blobId), (flatId, blobId)]

theorem children_of_mem {e : ObjectId × Kind × Bytes} (h : e ∈ objects) :
    ∃ children, Promote.objectChildren env e.1 e.2.1 e.2.2 = some children ∧
      ∀ y ∈ children, (e.1, y) ∈ references := by
  simp only [objects, List.mem_cons, List.not_mem_nil, or_false] at h
  rcases h with rfl | rfl | rfl | rfl
  · exact ⟨[], rfl, by simp⟩
  · exact ⟨[], rfl, by simp⟩
  · exact ⟨[emptyTreeId, blobId], by simp [Promote.objectChildren, parse_child], by simp [references]⟩
  · exact ⟨[blobId], by simp [Promote.objectChildren, parse_flat], by simp [references]⟩

theorem child_cases {x y : ObjectId} (h : pack.Child env x y) : (x, y) ∈ references :=
  StagedPack.child_of (fun _ => children_of_mem) h

theorem pack_acyclic : pack.Acyclic env := by
  refine StagedPack.acyclic_of_rank (fun x => if x = childId ∨ x = flatId then 1 else 0) fun x y h => ?_
  have hrank : (references.all fun p => decide ((if p.2 = childId ∨ p.2 = flatId then 1 else 0) <
      (if p.1 = childId ∨ p.1 = flatId then 1 else 0))) = true := by decide
  simpa using List.all_eq_true.1 hrank (x, y) (child_cases h)

/-- Whatever the two commits need is in the pack. -/
theorem not_disconnected {db : env.Db} {tips : List ObjectId} (ht : ∀ t ∈ tips, t = childId ∨ t = flatId) :
    ¬ Promote.Disconnected env db pack tips := by
  intro h
  obtain ⟨x, hx, -, hno⟩ := h
  have hread : ∃ kb, pack.read x = some kb := by
    have hsome : (pack.read x).isSome := by
      cases hx with
      | tip h =>
        rcases ht x h with rfl | rfl
        · rw [read_child]
          rfl
        · rw [read_flat]
          rfl
      | child _ _ hy =>
        have hall : (references.all fun p => (objects.lookup p.2).isSome) = true := by rfl
        rw [pack, StagedPack.read_of]
        exact List.all_eq_true.1 hall _ (child_cases hy)
    exact Option.isSome_iff_exists.1 hsome
  obtain ⟨⟨kind, body⟩, hread⟩ := hread
  obtain ⟨children, hch, -⟩ := children_of_mem (StagedPack.mem_of_read hread)
  cases hch.symm.trans (hno kind body hread)

end Misfit

open Misfit in
theorem rejectedPush_accepted :
    ∃ N e db' p, (∀ fuel ≥ N, env.run (Promote.validateAndPromote env fuel pack [childId]) Db.empty =
        some (.error e, db')) ∧
      (∀ fuel ≥ N, env.run (Promote.validateAndPromote env fuel pack [childId]) db' = some (.ok p, db')) ∧
      ¬ Promote.RetryRejected env Db.empty pack [childId] := by
  have hnew : ∀ x, ¬ Promote.Committed (Db.empty : env.Db) x := fun x => by simp [Promote.Committed, Db.empty]
  have hchild : Promote.commitIn env Db.empty pack childId = some ⟨Sample.emptyTreeId, [Sample.blobId]⟩ := by
    simp only [Promote.commitIn, Db.empty, Option.isSome_none, Bool.false_eq_true, if_false, read_child, parse_child]
  have hblob : Promote.commitIn env Db.empty pack Sample.blobId = none := by
    simp only [Promote.commitIn, Db.empty, Option.isSome_none, Bool.false_eq_true, if_false, read_blob]
  have habove : Promote.AboveNew env Db.empty pack [childId] Sample.blobId :=
    ⟨childId, ⟨.tip (by simp), hnew childId, by rw [hchild]; rfl⟩, .single ⟨_, hchild, by simp⟩⟩
  obtain ⟨N, e, db', p, hfirst, hagain⟩ := (fresh_empty (E := env)).tracked.retry_accepted rfl pack_acyclic
    (not_disconnected (by simp)) (.inl ⟨Sample.blobId, habove, hblob⟩)
  refine ⟨N, e, db', p, hfirst, hagain, fun hretry => ?_⟩
  obtain ⟨N', e', db'', hN'⟩ := hretry N e db' (hfirst N le_rfl)
  cases (hagain (max N N') (by omega)).symm.trans (hN' (max N N') (by omega))

/-! ## Kinds -/

/-- Every object reachable from a ref refers to objects of the kinds it
declares: a commit to a tree and commits, a tree to trees and blobs by the
entry's mode, a tag to what it says. -/
def TypedFromRefs (E : Env) (db : E.Db) : Prop :=
  ∀ name oid, db.refs.get name = some (.direct oid) → ∀ x, Relation.ReflTransGen (E.Child db) oid x →
    ∀ y k, E.Refers db x y k → ∃ body, E.objectAt db y = some (k, body)

/-- An accepted push of a pack whose references are of the kinds they
declare keeps the store so. -/
theorem AcceptedPush.wellTyped {db db' : E.Db} {staged : StagedPack} {updates : List RefUpdate}
    (h : AcceptedPush E db staged updates db') (hs : Sound E db ∧ WellTyped E db)
    (htyped : staged.TypedFor E db (Promote.tipsOf updates)) : Sound E db' ∧ WellTyped E db' := by
  obtain ⟨l, db₁, hval, hstored, hsame⟩ := h.stored
  obtain ⟨results, hacyc, -⟩ := h
  exact ⟨hsame.sound (hstored.sound hval hacyc hs.1), hsame.wellTyped (hstored.wellTyped hval hs.1 hs.2 htyped)⟩

theorem Fresh.wellTyped {db : E.Db} (h : Fresh E db) : WellTyped E db := by
  intro x y k hr
  exact absurd hr.child (h.not_child x y)

/-- In every state that accepted pushes lead to, the objects reachable from
the refs are well typed, if the references of the objects each push adds lead
to objects of the kinds they declare. -/
theorem acceptedPushes_wellTyped {db₀ db : E.Db} (hfresh : Fresh E db₀)
    (hrun : Relation.ReflTransGen (fun db db' => ∃ staged updates, AcceptedPush E db staged updates db' ∧
      staged.TypedFor E db (Promote.tipsOf updates)) db₀ db) : TypedFromRefs E db := by
  have h : Sound E db ∧ WellTyped E db := by
    induction hrun with
    | refl => exact ⟨hfresh.tracked.toSound, hfresh.wellTyped⟩
    | tail _ hstep ih =>
      obtain ⟨staged, updates, hpush, htyped⟩ := hstep
      exact hpush.wellTyped ih htyped
  intro name oid _ x _ y k hr
  exact h.2 x y k hr

theorem Sample.run_pack :
    (env.run (Promote.receivePack env 20 pack [⟨"refs/tags/v", none, some tagId⟩]) Db.empty).map
      (fun x => (x.1, x.2.refs.get "refs/tags/v")) =
    some (.ok [⟨"refs/tags/v", .updated⟩], some (.direct tagId)) := by
  decide +kernel

open Sample in
theorem Sample.accepted_pack :
    ∃ db, AcceptedPush env Db.empty pack [⟨"refs/tags/v", none, some tagId⟩] db ∧
      db.refs.get "refs/tags/v" = some (.direct tagId) := by
  obtain ⟨⟨r, db⟩, hrun, heq⟩ := Option.map_eq_some_iff.1 run_pack
  simp only [Prod.mk.injEq] at heq
  obtain ⟨rfl, href⟩ := heq
  exact ⟨db, ⟨_, pack_acyclic, 20, hrun⟩, href⟩

open Sample in
theorem acceptedPushes_wellTyped_sample :
    ∃ db, AcceptedPush env Db.empty pack [⟨"refs/tags/v", none, some tagId⟩] db ∧
      db.refs.get "refs/tags/v" = some (.direct tagId) ∧ TypedFromRefs env db := by
  obtain ⟨db, hpush, href⟩ := accepted_pack
  have htyped : pack.TypedOver env Db.empty := pack_typed .bytes
  exact ⟨db, hpush, href, acceptedPushes_wellTyped fresh_empty
    (.single ⟨pack, _, hpush, htyped.typedFor (Promote.tipsOf _)⟩)⟩

namespace Misfit

theorem run_flat :
    (env.run (Promote.receivePack env 9 pack [⟨"refs/heads/main", none, some flatId⟩]) Db.empty).map
      (fun x => (x.1, x.2.refs.get "refs/heads/main")) =
    some (.ok [⟨"refs/heads/main", .updated⟩], some (.direct flatId)) := by
  decide +kernel

end Misfit

open Misfit in
theorem acceptedPushes_illTyped :
    ∃ db, AcceptedPush env Db.empty pack [⟨"refs/heads/main", none, some flatId⟩] db ∧
      db.refs.get "refs/heads/main" = some (.direct flatId) ∧ ¬ TypedFromRefs env db := by
  obtain ⟨⟨r, db⟩, hrun, heq⟩ := Option.map_eq_some_iff.1 run_flat
  simp only [Prod.mk.injEq] at heq
  obtain ⟨rfl, href⟩ := heq
  have hpush : AcceptedPush env Db.empty pack [⟨"refs/heads/main", none, some flatId⟩] db :=
    ⟨_, pack_acyclic, 9, hrun⟩
  have hflat : env.objectAt db flatId = some (.commit, flatBody) := by
    rw [← read_flat]
    exact hpush.objectAt_of_fresh fresh_empty (hpush.tips (by simp [Promote.tipsOf]))
  have hrefers : env.Refers db flatId Sample.blobId .tree :=
    ⟨.commit, flatBody, [(Sample.blobId, .tree)], hflat, by simp [Promote.objectRefs, parse_flat], by simp⟩
  refine ⟨db, hpush, href, fun htyped => ?_⟩
  obtain ⟨body, ho⟩ := htyped _ flatId href flatId .refl Sample.blobId .tree hrefers
  rw [hpush.objectAt_of_fresh fresh_empty (objectAt_isSome (by simp [ho])), read_blob] at ho
  cases ho

end Miscreant
