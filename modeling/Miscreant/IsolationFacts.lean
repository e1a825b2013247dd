/-
Repositories do not interfere.

An operation writes keys of its own repository only, and a creation the
registry's keys and those of a new id (`Action.Effect`). What is observed of
a repository is read from its keys and its name's mapping, and from offloaded
streams, which inflate to the same body whoever wrote them last.

The id counter saturates: the creation that finds it at its last value again
takes an id that is taken. Up to there ids are new.
-/
import Miscreant.SharedFacts

namespace Miscreant

open Lib

namespace Slate

/-- An operation on a repository, or a creation. -/
inductive Action
  | put (call : PutCall)
  | updateRefs (repo : RepoId) (updates : List RefUpdate)
  | putRef (repo : RepoId) (name : String) (target : RefTarget)
  | deleteRef (repo : RepoId) (name : String)
  | putCommitGraph (repo : RepoId) (oid : ObjectId) (record : CommitGraphRecord) (durability : Durability)
  | putMeta (repo : RepoId) (name : String) (value : MetaValue)
  | createRepo (name : String)

namespace Action

/-- The program of an action, its answer left out. -/
def prog (zlib : Zlib) : Action → SlateProg ObjectError Unit
  | put call => call.prog zlib
  | updateRefs repo updates => do
    let _ ← (Slate.updateRefs repo updates).mapErr .store
    pure ()
  | putRef repo name target => Slate.putRef repo name target
  | deleteRef repo name => Slate.deleteRef repo name
  | putCommitGraph repo oid record durability => Slate.putCommitGraph repo oid record durability
  | putMeta repo name value => Slate.putMeta repo name value
  | createRepo name => do
    let _ ← (Slate.createRepo name).mapErr .store
    pure ()

/-- The repository an action is on. -/
def repo : Action → Option RepoId
  | put call => some call.repo
  | updateRefs repo _ | putRef repo _ _ | deleteRef repo _ | putCommitGraph repo _ _ _ | putMeta repo _ _ => some repo
  | createRepo _ => none

/-- The action is not on the global repository, and an object it puts has the
content of its id. -/
def Allowed (content : ObjectId → Option (Kind × Bytes)) (a : Action) : Prop :=
  a.repo ≠ some .GLOBAL ∧ ∀ call, a = put call → content call.oid = some (call.kind, call.body)

/-- The action is not on `repo`, and does not create a repository by its
name. -/
def Avoids (repo : RepoId) (name : String) (a : Action) : Prop := a.repo ≠ some repo ∧ a ≠ createRepo name

/-- Whether the action is a creation. -/
def isCreate : Action → Bool
  | createRepo _ => true
  | _ => false

end Action

/-- Actions one after another. -/
inductive Runs (zlib : Zlib) (content : ObjectId → Option (Kind × Bytes)) : List Action → Slate → Slate → Prop
  | nil (s : Slate) : Runs zlib content [] s s
  | cons {a : Action} {acts : List Action} {x : Except ObjectError Unit} {s s₁ s' : Slate} (ha : a.Allowed content)
      (hrun : (a.prog zlib).run handler s = some (x, s₁)) (hrest : Runs zlib content acts s₁ s') :
      Runs zlib content (a :: acts) s s'

/-! ## What an action does -/

/-- What an action can do to the store. -/
inductive Action.Effect (zlib : Zlib) : Action → Slate → Slate → Prop
  | none {a : Action} (s : Slate) : Effect zlib a s s
  /-- Writes to other segments of its repository than that of the objects. -/
  | writes {a : Action} {s : Slate} {repo : RepoId} {ws : List (Bytes × Option Bytes)} (ha : a.repo = some repo)
      (hws : ∀ w ∈ ws, ∃ segment rest, segment ≠ Segment.object ∧ w.1 = encodePreamble repo segment ++ rest) :
      Effect zlib a s { s with kv := s.kv.commit ws }
  | put {s : Slate} {call : PutCall} {record : ObjectRecord} {blobs : String → Option Bytes}
      (hb : BlobsAfter zlib call.oid call.kind call.body s.blobs blobs)
      (hholds : Holds zlib blobs call.oid call.kind call.body record) :
      Effect zlib (.put call) s ⟨s.kv.commit [(objectKey call.repo call.oid, some record.encode)], blobs⟩
  | create {s : Slate} {name : String} {next : UInt64} (hnew : s.kv.data.get (repoKey name) = .none)
      (hnext : nextIdOf (s.kv.data.get counterKey) = .ok next) :
      Effect zlib (.createRepo name) s { s with kv := s.kv.commit (txnWrites name next) }

/-- A run whose answer is dropped. -/
theorem run_of_drop {α : Type} {p : SlateProg SlateError α} {x : Except ObjectError Unit} {s s' : Slate}
    (h : (do
      let _ ← p.mapErr ObjectError.store
      pure () : SlateProg ObjectError Unit).run handler s = some (x, s')) : ∃ y, p.run handler s = some (y, s') := by
  have hrun : ∃ y, (p.mapErr ObjectError.store).run handler s = some (y, s') := by
    rcases Prog.run_bind_inv h with ⟨y, s₁, hrun, h⟩ | ⟨e, hrun, -⟩
    · cases h
      exact ⟨_, hrun⟩
    · exact ⟨_, hrun⟩
  obtain ⟨y, hrun⟩ := hrun
  rw [Prog.run_mapErr, Option.map_eq_some_iff] at hrun
  obtain ⟨⟨z, s₁⟩, hrun, heq⟩ := hrun
  cases heq
  exact ⟨z, hrun⟩

theorem isRefWrite_key {repo : RepoId} {w : Bytes × Option Bytes} (h : IsRefWrite repo w) :
    ∃ segment rest, segment ≠ Segment.object ∧ w.1 = encodePreamble repo segment ++ rest := by
  obtain ⟨name, new, rfl⟩ := h
  exact ⟨.ref, asBytes name, by simp, rfl⟩

section Runs

variable {s s' : Slate} {repo : RepoId}

theorem updateRef_run {txn : SlateTxn} {update : RefUpdate} {x : Except SlateError (SlateTxn × RefUpdateResult)}
    (hw : ∀ w ∈ txn.writes, IsRefWrite repo w) (h : (updateRef repo txn update).run handler s = some (x, s')) :
    s' = s ∧ ∀ txn' result, x = .ok (txn', result) → ∀ w ∈ txn'.writes, IsRefWrite repo w := by
  have hcas : ∀ {txn : SlateTxn} {current : Option ObjectId}, (∀ w ∈ txn.writes, IsRefWrite repo w) →
      (compareAndSwap repo txn update current).run handler s = some (x, s') →
      s' = s ∧ ∀ txn' result, x = .ok (txn', result) → ∀ w ∈ txn'.writes, IsRefWrite repo w := by
    intro txn current hw h
    unfold compareAndSwap at h
    split at h
    · cases h
      refine ⟨rfl, fun txn' result heq => ?_⟩
      cases heq
      exact hw
    · cases h
      refine ⟨rfl, fun txn' result heq w hmem => ?_⟩
      cases heq
      rcases List.mem_append.1 hmem with hmem | hmem
      · exact hw w hmem
      · exact ⟨_, _, List.mem_singleton.1 hmem⟩
  have h : (updateFound repo (txn.read (refKey repo update.name)) update (txn.get (refKey repo update.name))).run
      handler s = some (x, s') := h
  unfold updateFound at h
  split at h
  · exact @hcas (txn.read _) _ hw h
  · split at h
    · cases h
      exact ⟨rfl, nofun⟩
    · exact @hcas (txn.read _) _ hw h
    · cases h
      refine ⟨rfl, fun txn' result heq => ?_⟩
      cases heq
      exact hw

theorem updateAll_run : ∀ {updates : List RefUpdate} {txn : SlateTxn} {results : List RefUpdateResult}
    {x : Except SlateError (SlateTxn × List RefUpdateResult)} {s s' : Slate}, (∀ w ∈ txn.writes, IsRefWrite repo w) →
    (updateAll repo txn updates results).run handler s = some (x, s') →
    s' = s ∧ ∀ txn' results', x = .ok (txn', results') → ∀ w ∈ txn'.writes, IsRefWrite repo w
  | [], txn, results, x, s, s', hw, h => by
    cases h
    refine ⟨rfl, fun txn' results' heq => ?_⟩
    cases heq
    exact hw
  | update :: updates, txn, results, x, s, s', hw, h => by
    rcases Prog.run_bind_inv h with ⟨⟨txn₁, result⟩, s₁, hrun, hrest⟩ | ⟨e, hrun, rfl⟩
    · obtain ⟨rfl, hw₁⟩ := updateRef_run hw hrun
      exact updateAll_run (hw₁ _ _ rfl) hrest
    · exact ⟨(updateRef_run hw hrun).1, nofun⟩

theorem updateRefsFrom_run {updates : List RefUpdate} : ∀ {attempts : Nat}
    {x : Except SlateError (List RefUpdateResult)} {s s' : Slate},
    (updateRefsFrom repo updates attempts).run handler s = some (x, s') →
    s' = s ∨ ∃ ws, (∀ w ∈ ws, IsRefWrite repo w) ∧ s' = { s with kv := s.kv.commit ws }
  | 0, x, s, s', h => by
    cases h
    exact .inl rfl
  | attempts + 1, x, s, s', h => by
    have hbegin : ∀ w ∈ s.kv.begin.writes, IsRefWrite repo w := by simp [Kv.begin]
    have h : (updateAll repo s.kv.begin updates [] >>= fun r => commit r.1 >>= fun committed =>
        if committed then pure r.2 else updateRefsFrom repo updates attempts).run handler s = some (x, s') := h
    rcases Prog.run_bind_inv h with ⟨⟨txn, results⟩, s₁, hrun, hrest⟩ | ⟨e, hrun, -⟩
    · obtain ⟨rfl, hw⟩ := updateAll_run hbegin hrun
      cases hc : s₁.kv.conflicts txn with
      | true =>
        rw [Prog.run_bind_ok (run_commit_conflict hc)] at hrest
        exact updateRefsFrom_run hrest
      | false =>
        rw [Prog.run_bind_ok (run_commit_ok hc)] at hrest
        cases hrest
        exact .inr ⟨txn.writes, hw _ _ rfl, rfl⟩
    · exact .inl (updateAll_run hbegin hrun).1

/-- Reading operations. -/
def IsRead : SlateOp → Prop
  | .get _ | .scan _ | .blobGet _ => True
  | _ => False

theorem handler_read {o : SlateOp} (ho : IsRead o) (s : Slate) : (handler o s).2 = s := by
  cases o <;> first | rfl | cases ho

theorem allOps_ofExcept {ε α : Type} {P : SlateOp → Prop} (x : Except ε α) :
    (Prog.ofExcept x : SlateProg ε α).AllOps P := by
  cases x <;> trivial

theorem allOps_getDecoded {α : Type} {P : SlateOp → Prop} {key : Bytes} {decode : Bytes → Except ValueError α}
    (h : P (.get key)) : (getDecoded key decode).AllOps P := by
  refine ⟨h, fun value => ?_⟩
  cases value with
  | none => trivial
  | some bytes => exact allOps_ofExcept _

theorem allOps_readRepoMeta {P : SlateOp → Prop} {id : RepoId} (h : ∀ name, P (.get (metaKey id name))) :
    (readRepoMeta id).AllOps P :=
  (allOps_getDecoded (h _)).bind fun _ => (allOps_ofExcept _).bind fun _ =>
    (allOps_getDecoded (h _)).bind fun _ => (allOps_ofExcept _).bind fun _ => trivial

theorem putAll_run {writes : List (Bytes × Bytes)} : ∀ {txn : SlateTxn},
    (putAll txn writes).run handler s =
      some (.ok { txn with writes := txn.writes ++ writes.map fun w => (w.1, some w.2) }, s) := by
  induction writes with
  | nil =>
    intro txn
    rw [List.map_nil, List.append_nil]
    rfl
  | cons w writes ih =>
    intro txn
    refine (@ih (txn.write w.1 (some w.2))).trans ?_
    simp [Txn.write]

/-- An attempt that finds no mapping, up to its commit. -/
theorem createNew_run {name : String} {retry : SlateProg SlateError RepoMeta} :
    (createNew name ((s.kv.begin).read (repoKey name)) retry).run handler s =
      (Prog.ofExcept (nextIdOf (s.kv.data.get counterKey)) >>= fun next =>
        commit (creating name next s.kv) >>= fun committed =>
          if committed then pure ⟨⟨next⟩, .sha1, DEFAULT_BRANCH⟩ else retry).run handler s := by
  show (Prog.ofExcept (nextIdOf (s.kv.data.get counterKey)) >>= fun next =>
    putAll (((s.kv.begin).read (repoKey name)).read counterKey) (creationWrites name next) >>= fun txn =>
      commit txn >>= fun committed =>
        if committed then pure ⟨⟨next⟩, .sha1, DEFAULT_BRANCH⟩ else retry).run handler s = _
  cases nextIdOf (s.kv.data.get counterKey) with
  | error e => rfl
  | ok next =>
    simp only [Prog.ofExcept, Prog.ret_bind]
    exact Prog.run_bind_ok putAll_run

theorem createRepoFrom_run {name : String} : ∀ {attempts : Nat} {x : Except SlateError RepoMeta} {s s' : Slate},
    (createRepoFrom name attempts).run handler s = some (x, s') →
    s' = s ∨ ∃ next, s.kv.data.get (repoKey name) = none ∧ nextIdOf (s.kv.data.get counterKey) = .ok next ∧
      s' = { s with kv := s.kv.commit (txnWrites name next) }
  | 0, x, s, s', h => by
    cases h
    exact .inl rfl
  | attempts + 1, x, s, s', h => by
    have h : (createFound name ((s.kv.begin).read (repoKey name)) (createRepoFrom name attempts)
      (s.kv.data.get (repoKey name))).run handler s = some (x, s') := h
    cases hget : s.kv.data.get (repoKey name) with
    | some bytes =>
      rw [hget] at h
      have hreads : (Prog.ofExcept (repoIdOf (META_REPO_PREFIX ++ name) bytes) >>= readRepoMeta).AllOps IsRead :=
        (allOps_ofExcept _).bind fun id => allOps_readRepoMeta fun _ => trivial
      refine .inl (hreads.run_inv (I := (· = s)) (fun o s₁ ho hs₁ => ?_) rfl h)
      rw [handler_read ho, hs₁]
    | none =>
      rw [hget, createFound, createNew_run] at h
      cases hnext : nextIdOf (s.kv.data.get counterKey) with
      | error e =>
        rw [hnext] at h
        cases h
        exact .inl rfl
      | ok next =>
        rw [hnext] at h
        have h : (commit (creating name next s.kv) >>= fun committed =>
          if committed then pure ⟨⟨next⟩, .sha1, DEFAULT_BRANCH⟩ else createRepoFrom name attempts :
            SlateProg SlateError RepoMeta).run handler s = some (x, s') := h
        cases hc : s.kv.conflicts (creating name next s.kv) with
        | true =>
          rw [Prog.run_bind_ok (run_commit_conflict hc)] at h
          rcases createRepoFrom_run h with rfl | ⟨next', -, hnext', rfl⟩
          · exact .inl rfl
          · cases hnext.symm.trans hnext'
            exact .inr ⟨next, rfl, rfl, rfl⟩
        | false =>
          rw [Prog.run_bind_ok (run_commit_ok hc)] at h
          cases h
          exact .inr ⟨next, rfl, rfl, rfl⟩

/-- What an action does is one of its effects. -/
theorem Action.effect {zlib : Zlib} {a : Action} {x : Except ObjectError Unit}
    (h : (a.prog zlib).run handler s = some (x, s')) : a.Effect zlib s s' := by
  cases a with
  | put call =>
    obtain ⟨s₁, hrun, hs₁⟩ := run_put (ε := ObjectError) zlib call.db call.repo call.oid call.kind call.body
      call.addressable call.durability s
    cases hrun.symm.trans h
    rcases hs₁ with ⟨-, rfl⟩ | ⟨-, record, blobs, rfl, hb, hholds⟩
    · exact .none _
    · exact .put hb hholds
  | updateRefs repo updates =>
    have hrun : ∃ y, (Slate.updateRefs repo updates).run handler s = some (y, s') := run_of_drop h
    obtain ⟨y, hrun⟩ := hrun
    rcases updateRefsFrom_run hrun with rfl | ⟨ws, hws, rfl⟩
    · exact .none _
    · exact .writes rfl fun w hw => isRefWrite_key (hws w hw)
  | putRef repo name target =>
    cases h
    refine .writes rfl fun w hw => ?_
    rw [List.mem_singleton.1 hw]
    exact ⟨.ref, _, by simp, rfl⟩
  | deleteRef repo name =>
    cases h
    refine .writes rfl fun w hw => ?_
    rw [List.mem_singleton.1 hw]
    exact ⟨.ref, _, by simp, rfl⟩
  | putCommitGraph repo oid record durability =>
    cases h
    refine .writes rfl fun w hw => ?_
    rw [List.mem_singleton.1 hw]
    exact ⟨.commitGraph, _, by simp, rfl⟩
  | putMeta repo name value =>
    cases h
    refine .writes rfl fun w hw => ?_
    rw [List.mem_singleton.1 hw]
    exact ⟨.metadata, _, by simp, rfl⟩
  | createRepo name =>
    have hrun : ∃ y, (Slate.createRepo name).run handler s = some (y, s') := run_of_drop h
    obtain ⟨y, hrun⟩ := hrun
    rcases createRepoFrom_run hrun with rfl | ⟨next, hnew, hnext, rfl⟩
    · exact .none _
    · exact .create hnew hnext

end Runs

/-! ## What actions keep -/

/-- The ids given out are below the counter, as long as it can count the
creations so far. -/
def Numbered (creations : Nat) (m : SortedMap Bytes Bytes) : Prop :=
  ∃ next, CounterAt m next ∧ 0 < next.toNat ∧ (creations < 2 ^ 64 - 1 → next.toNat ≤ creations + 1) ∧
    ∀ name bytes, m.get (repoKey name) = some bytes →
      ∃ id, bytes = rawValue id ∧ 0 < id.toNat ∧ (creations < 2 ^ 64 - 1 → id.toNat < next.toNat)

theorem numbered_empty : Numbered 0 (SortedMap.empty : SortedMap Bytes Bytes) :=
  ⟨FIRST_REPO_ID, .inl ⟨rfl, rfl⟩, by decide, fun _ => by decide, fun _ _ h => nomatch h⟩

theorem Numbered.mono {n n' : Nat} {m : SortedMap Bytes Bytes} (h : Numbered n m) (hle : n ≤ n') : Numbered n' m := by
  obtain ⟨next, hcounter, hpos, hbound, hnames⟩ := h
  refine ⟨next, hcounter, hpos, fun hlt => ?_, fun name bytes hget => ?_⟩
  · have := hbound (by omega)
    omega
  · obtain ⟨id, hbytes, hid, hlt⟩ := hnames name bytes hget
    exact ⟨id, hbytes, hid, fun hn => hlt (by omega)⟩

/-- Maps that agree on the registry. -/
theorem Numbered.congr {n : Nat} {m m' : SortedMap Bytes Bytes} (h : Numbered n m)
    (hsame : ∀ name, m'.get (metaKey .GLOBAL name) = m.get (metaKey .GLOBAL name)) : Numbered n m' := by
  obtain ⟨next, hcounter, hpos, hbound, hnames⟩ := h
  refine ⟨next, ?_, hpos, hbound, fun name bytes hget => ?_⟩
  · unfold CounterAt at hcounter ⊢
    rwa [hsame]
  · rw [hsame] at hget
    exact hnames name bytes hget

theorem Numbered.create {n : Nat} {m : SortedMap Bytes Bytes} (h : Numbered n m) {name : String} {next : UInt64}
    (hnext : nextIdOf (m.get counterKey) = .ok next) : Numbered (n + 1) (overlay m (txnWrites name next)) := by
  obtain ⟨next', hcounter, hpos, hbound, hnames⟩ := h
  rw [nextIdOf_counter hcounter] at hnext
  cases hnext
  refine ⟨saturatingSucc next, .inr get_creation_counter, saturatingSucc_pos hpos, fun hlt => ?_,
    fun name' bytes hget => ?_⟩
  · have hle := hbound (by omega)
    rw [toNat_saturatingSucc (by omega)]
    omega
  · rw [get_creation_repo] at hget
    split at hget
    · cases hget
      refine ⟨next, rfl, hpos, fun hlt => ?_⟩
      have hle := hbound (by omega)
      rw [toNat_saturatingSucc (by omega)]
      omega
    · obtain ⟨id, hbytes, hid, hlt'⟩ := hnames name' bytes hget
      refine ⟨id, hbytes, hid, fun hlt => ?_⟩
      have hle := hbound (by omega)
      have hid' := hlt' (by omega)
      rw [toNat_saturatingSucc (by omega)]
      omega

/-- How many of the actions are creations. -/
def creations (acts : List Action) : Nat := acts.countP Action.isCreate

/-- What is kept of the store after a number of creations. -/
structure Consistent (zlib : Zlib) (content : ObjectId → Option (Kind × Bytes)) (n : Nat) (s : Slate) : Prop where
  content : ContentKept zlib content s
  numbered : Numbered n s.kv.data

section Keeps

variable {zlib : Zlib} {content : ObjectId → Option (Kind × Bytes)} {s s' : Slate} {a : Action} {n : Nat}

/-- Writes to one repository leave the keys of the others alone. -/
theorem get_commit_other {kv : Kv Bytes Bytes} {ws : List (Bytes × Option Bytes)} {repo : RepoId}
    (hws : ∀ w ∈ ws, IsKeyOf repo w.1) {repo' : RepoId} (hne : repo' ≠ repo) {key : Bytes} (hkey : IsKeyOf repo' key) :
    (kv.commit ws).data.get key = kv.data.get key := by
  refine overlay_of_not_mem fun hmem => ?_
  obtain ⟨w, hw, rfl⟩ := List.mem_map.1 hmem
  exact hne (hkey.unique (hws w hw))

/-- Writes outside the object segment leave the records alone. -/
theorem get_commit_object {kv : Kv Bytes Bytes} {ws : List (Bytes × Option Bytes)}
    (hws : ∀ w ∈ ws, ∃ repo segment rest, segment ≠ Segment.object ∧ w.1 = encodePreamble repo segment ++ rest)
    (repo : RepoId) (oid : ObjectId) : (kv.commit ws).data.get (objectKey repo oid) = kv.data.get (objectKey repo oid) := by
  refine overlay_of_not_mem fun hmem => ?_
  obtain ⟨w, hw, hkey⟩ := List.mem_map.1 hmem
  obtain ⟨repo', segment, rest, hsegment, heq⟩ := hws w hw
  exact hsegment (preamble_inj (heq.symm.trans hkey)).2.1

theorem txnWrites_key {name : String} {next : UInt64} {w : Bytes × Option Bytes} (hw : w ∈ txnWrites name next) :
    ∃ repo segment rest, segment ≠ Segment.object ∧ (repo = .GLOBAL ∨ repo = ⟨next⟩) ∧
      w.1 = encodePreamble repo segment ++ rest := by
  simp only [txnWrites, creationWrites, defaultWrites, List.map_cons, List.map_nil, List.mem_cons, List.not_mem_nil,
    or_false] at hw
  rcases hw with rfl | rfl | rfl | rfl | rfl | rfl
  · exact ⟨.GLOBAL, .metadata, _, by simp, .inl rfl, rfl⟩
  · exact ⟨.GLOBAL, .metadata, _, by simp, .inl rfl, rfl⟩
  · exact ⟨⟨next⟩, .metadata, _, by simp, .inr rfl, rfl⟩
  · exact ⟨⟨next⟩, .metadata, _, by simp, .inr rfl, rfl⟩
  · exact ⟨⟨next⟩, .metadata, _, by simp, .inr rfl, rfl⟩
  · exact ⟨⟨next⟩, .ref, _, by simp, .inr rfl, rfl⟩

theorem ContentKept.congr (h : ContentKept zlib content s)
    (hsame : ∀ repo oid, s'.kv.data.get (objectKey repo oid) = s.kv.data.get (objectKey repo oid))
    (hblobs : s'.blobs = s.blobs) : ContentKept zlib content s' := by
  intro repo oid bytes hget
  rw [hsame] at hget
  rw [hblobs]
  exact h repo oid bytes hget

theorem Consistent.step (h : Consistent zlib content n s) (ha : a.Allowed content) (he : a.Effect zlib s s') :
    Consistent zlib content (n + (if a.isCreate then 1 else 0)) s' := by
  have hle : n ≤ n + (if a.isCreate then 1 else 0) := Nat.le_add_right _ _
  cases he with
  | none => exact ⟨h.content, h.numbered.mono hle⟩
  | @writes _ _ repo ws hrepo hws =>
    refine ⟨h.content.congr (fun repo' oid => get_commit_object (fun w hw => ⟨repo, hws w hw⟩) repo' oid) rfl,
      (h.numbered.congr fun name => ?_).mono hle⟩
    have hne : RepoId.GLOBAL ≠ repo := by
      intro heq
      exact ha.1 (by rw [hrepo, heq])
    refine get_commit_other (fun w hw => ?_) hne (isKeyOf_metaKey _ _)
    obtain ⟨segment, rest, -, hkey⟩ := hws w hw
    exact ⟨segment, rest, hkey⟩
  | @put _ call record blobs hb hholds =>
    refine ⟨h.content.put (ha.2 call rfl) hb hholds, (h.numbered.congr fun name => ?_).mono hle⟩
    have hne : RepoId.GLOBAL ≠ call.repo := by
      intro heq
      exact ha.1 (by rw [heq]; rfl)
    refine get_commit_other (fun w hw => ?_) hne (isKeyOf_metaKey _ _)
    rw [List.mem_singleton.1 hw]
    exact isKeyOf_objectKey _ _
  | @create _ name next hnew hnext =>
    refine ⟨h.content.congr (fun repo' oid => get_commit_object (fun w hw => ?_) repo' oid) rfl,
      h.numbered.create hnext⟩
    obtain ⟨repo, segment, rest, hsegment, -, hkey⟩ := txnWrites_key hw
    exact ⟨repo, segment, rest, hsegment, hkey⟩

/-- An action elsewhere leaves the keys of a repository that exists, and its
name's mapping, alone. -/
theorem Action.Effect.frame {name : String} {r : UInt64} (h : Consistent zlib content n s)
    (hn : n + (if a.isCreate then 1 else 0) < 2 ^ 64) (ha : a.Allowed content)
    (hr : s.kv.data.get (repoKey name) = some (rawValue r)) (havoid : a.Avoids ⟨r⟩ name) (he : a.Effect zlib s s') :
    (∀ key, IsKeyOf ⟨r⟩ key → s'.kv.data.get key = s.kv.data.get key) ∧
      s'.kv.data.get (repoKey name) = s.kv.data.get (repoKey name) := by
  cases he with
  | none => exact ⟨fun _ _ => rfl, rfl⟩
  | @writes _ _ repo ws hrepo hws =>
    have hkeys : ∀ w ∈ ws, IsKeyOf repo w.1 := by
      intro w hw
      obtain ⟨segment, rest, -, hkey⟩ := hws w hw
      exact ⟨segment, rest, hkey⟩
    have hne : (⟨r⟩ : RepoId) ≠ repo := fun heq => havoid.1 (by rw [hrepo, heq])
    have hglobal : RepoId.GLOBAL ≠ repo := fun heq => ha.1 (by rw [hrepo, heq])
    exact ⟨fun key hkey => get_commit_other hkeys hne hkey, get_commit_other hkeys hglobal (isKeyOf_metaKey _ _)⟩
  | @put _ call record blobs hb hholds =>
    have hkeys : ∀ w ∈ [(objectKey call.repo call.oid, some record.encode)], IsKeyOf call.repo w.1 := by
      intro w hw
      rw [List.mem_singleton.1 hw]
      exact isKeyOf_objectKey _ _
    have hne : (⟨r⟩ : RepoId) ≠ call.repo := fun heq => havoid.1 (by rw [heq]; rfl)
    have hglobal : RepoId.GLOBAL ≠ call.repo := fun heq => ha.1 (by rw [heq]; rfl)
    exact ⟨fun key hkey => get_commit_other hkeys hne hkey, get_commit_other hkeys hglobal (isKeyOf_metaKey _ _)⟩
  | @create _ name' next hnew hnext =>
    obtain ⟨next', hcounter, -, -, hnames⟩ := h.numbered
    rw [nextIdOf_counter hcounter] at hnext
    cases hnext
    obtain ⟨id, hid, hpos, hlt⟩ := hnames name _ hr
    obtain rfl := rawValue_injective hid
    have hcount : n + 1 < 2 ^ 64 := hn
    have hlt := hlt (by omega)
    refine ⟨fun key hkey => overlay_of_not_mem fun hmem => ?_, ?_⟩
    · obtain ⟨w, hw, rfl⟩ := List.mem_map.1 hmem
      obtain ⟨repo, segment, rest, -, hrepo, heq⟩ := txnWrites_key hw
      have hsame : (⟨r⟩ : RepoId) = repo := hkey.unique ⟨segment, rest, heq⟩
      rcases hrepo with rfl | rfl
      · cases hsame
        exact absurd hpos (by decide)
      · cases hsame
        exact absurd hlt (lt_irrefl _)
    · refine get_creation_repo name |>.trans (if_neg fun heq => ?_)
      exact havoid.2 (by rw [heq])

end Keeps

/-! ## Observations -/

/-- What a program answers in a state. -/
def answer {ε α : Type} (p : SlateProg ε α) (s : Slate) : Option (Except ε α) := (p.run handler s).map (·.1)

/-- What can be observed of a repository is the same in two states. -/
structure SameView (zlib : Zlib) (repo : RepoId) (name : String) (s s' : Slate) : Prop where
  get : ∀ oid, answer (ObjectDb.get zlib repo oid) s' = answer (ObjectDb.get zlib repo oid) s
  size : ∀ oid, answer (ObjectDb.size repo oid) s' = answer (ObjectDb.size repo oid) s
  known : ∀ oid, answer (ObjectDb.exists_ repo oid : SlateProg ObjectError Bool) s' =
    answer (ObjectDb.exists_ repo oid : SlateProg ObjectError Bool) s
  listRefs : ∀ start, answer (listRefs repo start) s' = answer (listRefs repo start) s
  getRef : ∀ ref, answer (getRef repo ref) s' = answer (getRef repo ref) s
  getCommitGraph : ∀ oid, answer (getCommitGraph repo oid) s' = answer (getCommitGraph repo oid) s
  getMeta : ∀ key, answer (getMeta repo key) s' = answer (getMeta repo key) s
  lookupRepo : answer (lookupRepo name) s' = answer (lookupRepo name) s

/-- Reads of keys of a repository. -/
def ReadsKeyOf (repo : RepoId) : SlateOp → Prop
  | .get key => IsKeyOf repo key
  | .scan start => ∀ key, start.isPrefixOf key → IsKeyOf repo key
  | _ => False

section View

variable {zlib : Zlib} {content : ObjectId → Option (Kind × Bytes)} {s s' : Slate} {repo : RepoId}

theorem answer_congr (hkeys : ∀ key, IsKeyOf repo key → s'.kv.data.get key = s.kv.data.get key) {ε α : Type}
    {p : SlateProg ε α} (hp : p.AllOps (ReadsKeyOf repo)) : answer p s' = answer p s := by
  refine Prog.AllOps.run_congr (fun o ho => ?_) hp
  cases o with
  | get key => exact ⟨hkeys key ho, rfl, rfl⟩
  | scan start => exact ⟨SortedMap.filter_congr fun key hkey => hkeys key (ho key hkey), rfl, rfl⟩
  | _ => cases ho

/-- Two states with the same keys of a repository and the content of the ids
show the same of it. -/
theorem sameView {name : String} {id : UInt64} (hrepo : repo = ⟨id⟩)
    (hkeys : ∀ key, IsKeyOf repo key → s'.kv.data.get key = s.kv.data.get key)
    (hname : s.kv.data.get (repoKey name) = some (rawValue id))
    (hname' : s'.kv.data.get (repoKey name) = some (rawValue id)) (hc : ContentKept zlib content s)
    (hc' : ContentKept zlib content s') : SameView zlib repo name s s' := by
  have hobject : ∀ oid, (Misses zlib s repo oid ∧ Misses zlib s' repo oid) ∨
      ∃ kind body, Reads zlib s repo oid kind body ∧ Reads zlib s' repo oid kind body := by
    intro oid
    have hsame := hkeys (objectKey repo oid) (isKeyOf_objectKey _ _)
    cases hget : s.kv.data.get (objectKey repo oid) with
    | none => exact .inl ⟨misses hget, misses (hsame.trans hget)⟩
    | some bytes =>
      obtain ⟨kind, body, record, hcontent, rfl, hholds⟩ := hc repo oid bytes hget
      obtain ⟨kind', body', record', hcontent', heq, hholds'⟩ := hc' repo oid _ (hsame.trans hget)
      cases hcontent.symm.trans hcontent'
      exact .inr ⟨kind, body, hholds.reads hget, hholds'.reads (by rw [hsame, hget, heq])⟩
  have hlookup : ∀ {s : Slate}, s.kv.data.get (repoKey name) = some (rawValue id) →
      answer (lookupRepo name) s = answer (readRepoMeta repo >>= fun info => pure (some info)) s := by
    intro s hget
    have hid : (readRepoId name).run handler s = some (.ok (some repo), s) := by
      rw [readRepoId, Prog.run_bind_ok (run_get _), hget]
      simp only [repoIdOf_rawValue, hrepo]
      rfl
    rw [answer, lookupRepo, Prog.run_bind_ok hid]
    rfl
  refine ⟨fun oid => ?_, fun oid => ?_, fun oid => ?_, fun start => ?_, fun ref => ?_, fun oid => ?_, fun key => ?_, ?_⟩
  · rcases hobject oid with ⟨h, h'⟩ | ⟨kind, body, h, h'⟩ <;> rw [answer, answer, h.get, h'.get] <;> rfl
  · rcases hobject oid with ⟨h, h'⟩ | ⟨kind, body, h, h'⟩ <;> rw [answer, answer, h.size, h'.size] <;> rfl
  · rcases hobject oid with ⟨h, h'⟩ | ⟨kind, body, h, h'⟩ <;> rw [answer, answer, h.known, h'.known] <;> rfl
  · refine answer_congr hkeys (Prog.AllOps.bind ⟨?_, fun _ => trivial⟩ fun _ => allOps_ofExcept _)
    cases start with
    | none => exact fun key hkey => isKeyOf_of_segmentPrefix hkey
    | some p => exact fun key hkey => isKeyOf_of_refPrefix hkey
  · exact answer_congr hkeys (allOps_getDecoded (isKeyOf_refKey _ _))
  · exact answer_congr hkeys (allOps_getDecoded (isKeyOf_commitKey _ _))
  · exact answer_congr hkeys (allOps_getDecoded (isKeyOf_metaKey _ _))
  · rw [hlookup hname, hlookup hname']
    exact answer_congr hkeys ((allOps_readRepoMeta fun _ => isKeyOf_metaKey _ _).bind fun _ => trivial)

end View

/-! ## Runs -/

section Run

variable {zlib : Zlib} {content : ObjectId → Option (Kind × Bytes)} {s s' : Slate} {acts : List Action} {n : Nat}

theorem creations_cons (a : Action) (acts : List Action) :
    creations (a :: acts) = (if a.isCreate then 1 else 0) + creations acts := by
  rw [creations, creations, List.countP_cons, Nat.add_comm]

theorem Runs.consistent (h : Runs zlib content acts s s') : ∀ {n : Nat}, Consistent zlib content n s →
    Consistent zlib content (n + creations acts) s' := by
  induction h with
  | nil s => exact fun hs => hs
  | @cons a acts x s s₁ s' ha hrun _ ih =>
    intro n hs
    have hstep := ih (hs.step ha (Action.effect hrun))
    rwa [Nat.add_assoc, ← creations_cons] at hstep

theorem Runs.frame {name : String} {r : UInt64} (h : Runs zlib content acts s s') :
    ∀ {n : Nat}, Consistent zlib content n s → n + creations acts < 2 ^ 64 →
      s.kv.data.get (repoKey name) = some (rawValue r) → (∀ a ∈ acts, a.Avoids ⟨r⟩ name) →
      (∀ key, IsKeyOf ⟨r⟩ key → s'.kv.data.get key = s.kv.data.get key) ∧
        s'.kv.data.get (repoKey name) = some (rawValue r) := by
  induction h with
  | nil s => exact fun _ _ hr _ => ⟨fun _ _ => rfl, hr⟩
  | @cons a acts x s s₁ s' ha hrun _ ih =>
    intro n hs hn hr havoid
    rw [creations_cons] at hn
    have heffect := Action.effect hrun
    obtain ⟨hkeys, hname⟩ := heffect.frame hs (by omega) ha hr (havoid a (by simp))
    obtain ⟨hkeys', hname'⟩ := ih (hs.step ha heffect) (by omega) (hname.trans hr)
      fun a' ha' => havoid a' (by simp [ha'])
    exact ⟨fun key hkey => (hkeys' key hkey).trans (hkeys key hkey), hname'⟩

theorem Runs.append {s₁ : Slate} {acts' : List Action} (h : Runs zlib content acts s s₁)
    (h' : Runs zlib content acts' s₁ s') : Runs zlib content (acts ++ acts') s s' := by
  induction h with
  | nil s => exact h'
  | cons ha hrun _ ih => exact .cons ha hrun (ih h')

theorem Runs.single {a : Action} {x : Except ObjectError Unit} (ha : a.Allowed content)
    (hrun : (a.prog zlib).run handler s = some (x, s')) : Runs zlib content [a] s s' := .cons ha hrun (.nil s')

end Run

/-! ## Many creations -/

section Many

variable {zlib : Zlib} {content : ObjectId → Option (Kind × Bytes)} {s : Slate}

/-- A new name is created at the counter. -/
theorem run_create {name : String} {next : UInt64} (hdated : s.kv.Dated)
    (hnew : s.kv.data.get (repoKey name) = none) (hnext : CounterAt s.kv.data next) :
    ((Action.createRepo name).prog zlib).run handler s =
      some (.ok (), { s with kv := s.kv.commit (txnWrites name next) }) := by
  have hcommit : s.kv.conflicts (creating name next s.kv) = false := Txn.not_conflicts hdated rfl
  have hrun : (createRepo name).run handler s =
      some (.ok ⟨⟨next⟩, .sha1, DEFAULT_BRANCH⟩, { s with kv := s.kv.commit (txnWrites name next) }) := by
    show (createFound name ((s.kv.begin).read (repoKey name)) (createRepoFrom name 31)
      (s.kv.data.get (repoKey name))).run handler s = _
    rw [hnew, createFound, createNew_run, nextIdOf_counter hnext, Prog.ofExcept, Prog.ret_bind,
      Prog.run_bind_ok (run_commit_ok hcommit)]
    rfl
  have hmap : ((createRepo name).mapErr ObjectError.store).run handler s =
      some (.ok ⟨⟨next⟩, .sha1, DEFAULT_BRANCH⟩, { s with kv := s.kv.commit (txnWrites name next) }) := by
    rw [Prog.run_mapErr, hrun]
    rfl
  exact Prog.run_bind_ok hmap

/-- Names, all different: the numerals. -/
def nthName (i : Nat) : String := String.ofList (Nat.toDigits 10 i)

theorem nthName_inj {i j : Nat} (h : nthName i = nthName j) : i = j := by
  have hvalue : ∀ n, Nat.ofDigitChars 10 (nthName n).toList 0 = n := by
    intro n
    rw [nthName, String.toList_ofList, Nat.ofDigitChars_ten_toDigits]
  rw [← hvalue i, h, hvalue]

/-- The id of the creation that `i` others come before. -/
def nthId (i : Nat) : UInt64 := UInt64.ofNat (min (i + 1) (2 ^ 64 - 1))

theorem toNat_nthId (i : Nat) : (nthId i).toNat = min (i + 1) (2 ^ 64 - 1) := by
  rw [nthId, UInt64.toNat_ofNat']
  exact Nat.mod_eq_of_lt (by omega)

theorem saturatingSucc_nthId (i : Nat) : saturatingSucc (nthId i) = nthId (i + 1) := by
  refine UInt64.toNat_inj.1 ?_
  rw [toNat_nthId]
  by_cases hlt : (nthId i).toNat + 1 < 2 ^ 64
  · rw [toNat_saturatingSucc hlt, toNat_nthId]
    rw [toNat_nthId] at hlt
    omega
  · rw [saturatingSucc, if_neg hlt, toNat_nthId]
    rw [toNat_nthId] at hlt
    omega

/-- The first `n` names created. -/
def manyCreations (n : Nat) : List Action := (List.range n).map fun i => .createRepo (nthName i)

theorem manyCreations_succ (n : Nat) : manyCreations (n + 1) = manyCreations n ++ [.createRepo (nthName n)] := by
  simp [manyCreations, List.range_succ]

/-- What is known after the first `n` names. -/
structure Created (n : Nat) (s : Slate) : Prop where
  dated : s.kv.Dated
  counter : CounterAt s.kv.data (nthId n)
  new : ∀ i, n ≤ i → s.kv.data.get (repoKey (nthName i)) = none
  named : ∀ i, i < n → s.kv.data.get (repoKey (nthName i)) = some (rawValue (nthId i))

theorem Created.next {n : Nat} (h : Created n s) :
    Created (n + 1) { s with kv := s.kv.commit (txnWrites (nthName n) (nthId n)) } := by
  have hget : ∀ i, (s.kv.commit (txnWrites (nthName n) (nthId n))).data.get (repoKey (nthName i)) =
      if i = n then some (rawValue (nthId n)) else s.kv.data.get (repoKey (nthName i)) := by
    intro i
    refine (get_creation_repo (nthName i)).trans ?_
    by_cases hi : i = n
    · rw [hi, if_pos rfl, if_pos rfl]
    · rw [if_neg hi, if_neg fun heq => hi (nthName_inj heq)]
  refine ⟨h.dated.commit _, .inr ?_, fun i hi => ?_, fun i hi => ?_⟩
  · rw [← saturatingSucc_nthId]
    exact get_creation_counter
  · rw [hget, if_neg (by omega)]
    exact h.new i (by omega)
  · rw [hget]
    split
    · rename_i heq
      rw [heq]
    · exact h.named i (by omega)

variable (zlib content) in
theorem runs_manyCreations (n : Nat) : ∃ s, Runs zlib content (manyCreations n) Slate.empty s ∧ Created n s := by
  induction n with
  | zero => exact ⟨_, .nil _, Kv.dated_empty, .inl ⟨rfl, rfl⟩, fun _ _ => rfl, fun i hi => absurd hi (by omega)⟩
  | succ n ih =>
    obtain ⟨s, hruns, hs⟩ := ih
    have hallowed : (Action.createRepo (nthName n)).Allowed content := ⟨by simp [Action.repo], by simp⟩
    refine ⟨_, ?_, hs.next⟩
    rw [manyCreations_succ]
    exact hruns.append (.single hallowed (run_create hs.dated (hs.new n le_rfl) hs.counter))

end Many

end Slate

open Slate

/-- **Repositories do not interfere.** From a state reached from the empty
store, nothing that is done on other repositories, and no creation of another
name, changes what is observed of a repository that exists, unless there are
2^64 creations. -/
theorem repos_isolated (zlib : Zlib) (content : ObjectId → Option (Kind × Bytes)) {before acts : List Action}
    {s s' : Slate} (hbefore : Runs zlib content before Slate.empty s) {name : String} {r : UInt64}
    (hr : s.kv.data.get (repoKey name) = some (rawValue r)) (hacts : Runs zlib content acts s s')
    (havoid : ∀ a ∈ acts, a.Avoids ⟨r⟩ name) (hfew : creations before + creations acts < 2 ^ 64) :
    SameView zlib ⟨r⟩ name s s' := by
  have hempty : Consistent zlib content 0 Slate.empty := ⟨fun _ _ _ h => (nomatch h), numbered_empty⟩
  have hs := hbefore.consistent hempty
  rw [Nat.zero_add] at hs
  obtain ⟨hkeys, hname⟩ := hacts.frame hs hfew hr havoid
  exact sameView rfl hkeys hr hname hs.content (hacts.consistent hs).content

/-- A blob put in the second of two repositories, and its `HEAD` deleted. -/
theorem repos_isolated_sample :
    ∃ s s', s.kv.data.get (repoKey (nthName 0)) = some (rawValue 1) ∧
      SameView storedZlib ⟨1⟩ (nthName 0) s s' ∧ answer (getRef ⟨2⟩ HEAD_REF) s' = some (.ok none) := by
  let content : ObjectId → Option (Kind × Bytes) :=
    fun oid => if oid = Sample.blobId then some (.blob, Sample.blobBody) else none
  obtain ⟨s, hbefore, hs⟩ := runs_manyCreations storedZlib content 2
  have hr : s.kv.data.get (repoKey (nthName 0)) = some (rawValue 1) := hs.named 0 (by omega)
  let call : PutCall := ⟨⟨0, 6⟩, ⟨2⟩, Sample.blobId, .blob, Sample.blobBody, .durable, by decide⟩
  obtain ⟨s₁, hput, -⟩ := run_put (ε := ObjectError) storedZlib call.db call.repo call.oid call.kind call.body
    call.addressable call.durability s
  have hacts : Runs storedZlib content [.put call, .deleteRef ⟨2⟩ HEAD_REF] s _ :=
    .cons ⟨by decide, fun call' heq => by cases heq; rfl⟩ hput (.single ⟨by decide, nofun⟩ rfl)
  have havoid : ∀ a ∈ [Action.put call, .deleteRef ⟨2⟩ HEAD_REF], a.Avoids ⟨1⟩ (nthName 0) := by
    intro a ha
    simp only [List.mem_cons, List.not_mem_nil, or_false] at ha
    rcases ha with rfl | rfl
    · exact ⟨by decide, by simp⟩
    · exact ⟨by decide, by simp⟩
  refine ⟨s, _, hr, repos_isolated storedZlib content hbefore hr hacts havoid (by decide), ?_⟩
  have hnone := (get_setKey s₁.kv.data (refKey ⟨2⟩ HEAD_REF, none) (refKey ⟨2⟩ HEAD_REF)).trans (if_pos rfl)
  rw [answer, getRef, run_getDecoded_none hnone]
  rfl

/-- The last id is given out again: the creation of a second repository by it
sets the first one's deleted `HEAD`. -/
theorem repos_interfere :
    ∃ s s', Runs storedZlib (fun _ => none)
        (manyCreations (2 ^ 64 - 1) ++ [.deleteRef ⟨nthId (2 ^ 64 - 2)⟩ HEAD_REF]) Slate.empty s ∧
      s.kv.data.get (repoKey (nthName (2 ^ 64 - 2))) = some (rawValue (nthId (2 ^ 64 - 2))) ∧
      Runs storedZlib (fun _ => none) [.createRepo (nthName (2 ^ 64 - 1))] s s' ∧
      Action.Avoids ⟨nthId (2 ^ 64 - 2)⟩ (nthName (2 ^ 64 - 2)) (.createRepo (nthName (2 ^ 64 - 1))) ∧
      ¬ SameView storedZlib ⟨nthId (2 ^ 64 - 2)⟩ (nthName (2 ^ 64 - 2)) s s' := by
  obtain ⟨s, hcreated, hs⟩ := runs_manyCreations storedZlib (fun _ => none) (2 ^ 64 - 1)
  have hsame : nthId (2 ^ 64 - 1) = nthId (2 ^ 64 - 2) :=
    UInt64.toNat_inj.1 (by rw [toNat_nthId, toNat_nthId]; omega)
  have hpos : (0 : UInt64) ≠ nthId (2 ^ 64 - 2) := by
    intro heq
    have hnat := congrArg UInt64.toNat heq
    rw [toNat_nthId] at hnat
    exact absurd hnat (by decide)
  have hcounter := hs.counter
  have hnamed := hs.named (2 ^ 64 - 2) (by omega)
  rw [hsame] at hcounter
  generalize nthId (2 ^ 64 - 2) = r at hcounter hnamed hpos ⊢
  let s₁ : Slate := { s with kv := s.kv.commit [(refKey ⟨r⟩ HEAD_REF, none)] }
  let s₂ : Slate := { s₁ with kv := s₁.kv.commit (txnWrites (nthName (2 ^ 64 - 1)) r) }
  -- the deletion leaves the registry as it is
  have hregistry : ∀ key, s₁.kv.data.get (metaKey .GLOBAL key) = s.kv.data.get (metaKey .GLOBAL key) := by
    intro key
    refine @get_commit_other s.kv _ ⟨r⟩ (fun w hw => ?_) _ (fun heq => hpos (RepoId.mk.inj heq)) _
      (isKeyOf_metaKey _ _)
    rw [List.mem_singleton.1 hw]
    exact isKeyOf_refKey _ _
  have hcounter' : CounterAt s₁.kv.data r := by
    unfold CounterAt at hcounter ⊢
    rwa [hregistry]
  have hcreate : ((Action.createRepo (nthName (2 ^ 64 - 1))).prog storedZlib).run handler s₁ = some (.ok (), s₂) :=
    run_create (hs.dated.commit _) ((hregistry _).trans (hs.new _ le_rfl)) hcounter'
  have hunset : (getRef ⟨r⟩ HEAD_REF).run handler s₁ = some (.ok none, s₁) :=
    run_getDecoded_none ((get_setKey s.kv.data (refKey ⟨r⟩ HEAD_REF, none) (refKey ⟨r⟩ HEAD_REF)).trans (if_pos rfl))
  have hdefault := @hasDefaults_created s₁.kv.data (nthName (2 ^ 64 - 1)) r
    (refKey ⟨r⟩ HEAD_REF, (RefTarget.reference DEFAULT_BRANCH).encode) (by simp [defaultWrites])
  have hset : (getRef ⟨r⟩ HEAD_REF).run handler s₂ = some (.ok (some (.reference DEFAULT_BRANCH)), s₂) :=
    run_getDecoded hdefault (RefTarget.decode_encode (.reference DEFAULT_BRANCH))
  refine ⟨s₁, s₂, hcreated.append (.single ⟨fun heq => hpos ?_, by simp⟩ rfl), (hregistry _).trans hnamed,
    .single ⟨by simp [Action.repo], by simp⟩ hcreate, ⟨by simp [Action.repo], fun heq => ?_⟩, fun hview => ?_⟩
  · exact (RepoId.mk.inj (Option.some.inj heq)).symm
  · have hindex := nthName_inj (Action.createRepo.inj heq)
    exact absurd hindex (by omega)
  · have hhead := hview.getRef HEAD_REF
    rw [answer, answer, hset, hunset] at hhead
    cases hhead

end Miscreant
