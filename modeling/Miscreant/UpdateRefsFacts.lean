/-
Concurrent ref updates: `Store::update_refs` is linearizable.

A transaction's outcomes are worked out on its snapshot. They are those of
every map that agrees with the snapshot on the keys it has read
(`Batch.covers`), and the map a transaction commits to is such a map, so a
commit does the whole batch at once on the refs as they stand.
-/
import Miscreant.Slate
import Miscreant.Lib.Atomic

namespace Miscreant

open Lib

/-! ## Compare-and-swap -/

/-- The refs of a repository. -/
abbrev Refs := String → Option RefTarget

/-- One command: a ref that is symbolic or does not hold the expected value is
left alone, any other is set or deleted. -/
def Refs.swap (refs : Refs) (update : RefUpdate) : Refs × RefUpdateResult :=
  match refs update.name with
  | some (.reference _) => (refs, ⟨update.name, .rejected REASON_SYMBOLIC⟩)
  | current =>
    if current = update.expectedOld.map .direct then
      (Function.update refs update.name (update.new.map .direct), ⟨update.name, .updated⟩)
    else (refs, ⟨update.name, .rejected REASON_NON_FAST_FORWARD⟩)

/-- A batch: its commands one after another. -/
def Refs.swapAll (updates : List RefUpdate) (refs : Refs) : Refs × List RefUpdateResult :=
  updates.foldl (fun (refs, results) update =>
    let (refs, result) := refs.swap update
    (refs, results ++ [result])) (refs, [])

theorem Refs.swapAll_concat (updates : List RefUpdate) (update : RefUpdate) (refs : Refs) :
    Refs.swapAll (updates ++ [update]) refs =
      (((Refs.swapAll updates refs).1.swap update).1,
        (Refs.swapAll updates refs).2 ++ [((Refs.swapAll updates refs).1.swap update).2]) := by
  simp [Refs.swapAll, List.foldl_append]

theorem Refs.swap_name (refs : Refs) (update : RefUpdate) : (refs.swap update).2.name = update.name := by
  unfold Refs.swap
  split
  · rfl
  · split <;> rfl

/-- A command on a ref that is not symbolic. -/
theorem Refs.swap_direct {refs : Refs} {update : RefUpdate} {current : Option ObjectId}
    (h : refs update.name = current.map .direct) :
    refs.swap update =
      if current = update.expectedOld then
        (Function.update refs update.name (update.new.map .direct), ⟨update.name, .updated⟩)
      else (refs, ⟨update.name, .rejected REASON_NON_FAST_FORWARD⟩) := by
  have hmap : current.map RefTarget.direct = update.expectedOld.map .direct ↔ current = update.expectedOld :=
    (Option.map_injective fun _ _ h => RefTarget.direct.inj h).eq_iff
  unfold Refs.swap
  split
  · rename_i target hsym
    rw [h] at hsym
    cases current <;> cases hsym
  · rw [h]
    simp only [hmap]

/-- The outcomes are the commands', in order. -/
theorem Refs.swapAll_names (updates : List RefUpdate) (refs : Refs) :
    (Refs.swapAll updates refs).2.map (·.name) = updates.map (·.name) := by
  induction updates using List.reverseRecOn with
  | nil => rfl
  | append_singleton updates update ih =>
    rw [Refs.swapAll_concat]
    simp [ih, Refs.swap_name]

/-- A symbolic ref stays what it is. -/
theorem Refs.swapAll_symbolic {name target : String} {updates : List RefUpdate} {refs : Refs}
    (h : refs name = some (.reference target)) : (Refs.swapAll updates refs).1 name = some (.reference target) := by
  induction updates using List.reverseRecOn with
  | nil => exact h
  | append_singleton updates update ih =>
    rw [Refs.swapAll_concat]
    unfold Refs.swap
    split
    · exact ih
    · rename_i hsym
      split
      · have hne : name ≠ update.name := by
          intro heq
          rw [← heq] at hsym
          exact hsym target ih
        simpa [Function.update_of_ne hne] using ih
      · exact ih

theorem Refs.swapAll_ne_conflict {updates : List RefUpdate} {refs : Refs} :
    ∀ r ∈ (Refs.swapAll updates refs).2, r.outcome ≠ .rejected REASON_CONFLICT := by
  induction updates using List.reverseRecOn with
  | nil => simp [Refs.swapAll]
  | append_singleton updates update ih =>
    rw [Refs.swapAll_concat]
    intro r hr
    rcases List.mem_append.1 hr with hr | hr
    · exact ih r hr
    · rw [List.mem_singleton.1 hr]
      unfold Refs.swap
      split
      · simp [REASON_SYMBOLIC, REASON_CONFLICT]
      · split <;> simp [REASON_NON_FAST_FORWARD, REASON_CONFLICT]

/-! ## Refs in the store -/

/-- The refs of a repository in the map. -/
def refsAt (repo : RepoId) (m : SortedMap Bytes Bytes) : Refs :=
  fun name => (m.get (refKey repo name)).bind fun bytes => (RefTarget.decode bytes).toOption

/-- The repository's refs are values the store wrote. -/
def RefsDecode (repo : RepoId) (m : SortedMap Bytes Bytes) : Prop :=
  ∀ name bytes, m.get (refKey repo name) = some bytes → ∃ target, RefTarget.decode bytes = .ok target

/-- A write of a ref command. -/
def IsRefWrite (repo : RepoId) (w : Bytes × Option Bytes) : Prop :=
  ∃ (name : String) (new : Option ObjectId),
    w = (refKey repo name, new.map fun oid => (RefTarget.direct oid).encode)

theorem refsDecode_setKey {repo : RepoId} {m : SortedMap Bytes Bytes} {w : Bytes × Option Bytes}
    (h : RefsDecode repo m) (hw : IsRefWrite repo w) : RefsDecode repo (setKey m w) := by
  obtain ⟨name, new, rfl⟩ := hw
  intro name' bytes hget
  rw [get_setKey] at hget
  split at hget
  · cases new with
    | none => cases hget
    | some oid =>
      cases hget
      exact ⟨_, RefTarget.decode_encode _⟩
  · exact h name' bytes hget

theorem refsDecode_overlay {repo : RepoId} {writes : List (Bytes × Option Bytes)} :
    ∀ {m : SortedMap Bytes Bytes}, RefsDecode repo m → (∀ w ∈ writes, IsRefWrite repo w) →
      RefsDecode repo (overlay m writes) := by
  induction writes with
  | nil => exact fun h _ => h
  | cons w writes ih =>
    intro m h hw
    exact ih (refsDecode_setKey h (hw w (by simp))) fun w' hw' => hw w' (by simp [hw'])

theorem refsAt_setKey (repo : RepoId) (m : SortedMap Bytes Bytes) (name : String) (new : Option ObjectId) :
    refsAt repo (setKey m (refKey repo name, new.map fun oid => (RefTarget.direct oid).encode)) =
      Function.update (refsAt repo m) name (new.map .direct) := by
  funext name'
  rw [refsAt, get_setKey]
  by_cases hname : name' = name
  · subst hname
    cases new with
    | none => simp
    | some oid => simp [Except.toOption]
  · simp [hname, refsAt]

/-! ## One attempt -/

namespace Slate

variable {repo : RepoId} {updates : List RefUpdate}

/-- An attempt that has worked out the outcomes of the commands `done`. -/
structure Batch (repo : RepoId) (done : List RefUpdate) (txn : SlateTxn) (results : List RefUpdateResult)
    (kv : Kv Bytes Bytes) : Prop where
  valid : txn.Valid kv
  decodes : RefsDecode repo txn.snapshot
  writes : ∀ w ∈ txn.writes, IsRefWrite repo w
  covers : ∀ m : SortedMap Bytes Bytes, (∀ k ∈ txn.reads, m.get k = txn.snapshot.get k) →
    Refs.swapAll done (refsAt repo m) = (refsAt repo (overlay m txn.writes), results)

theorem Batch.start {kv : Kv Bytes Bytes} (h : RefsDecode repo kv.data) : Batch repo [] kv.begin [] kv where
  valid := Txn.valid_begin kv
  decodes := h
  writes := by simp [Kv.begin]
  covers _ _ := rfl

variable {done : List RefUpdate} {txn : SlateTxn} {results : List RefUpdateResult} {kv kv' : Kv Bytes Bytes}
  {update : RefUpdate}

theorem Batch.later (h : Batch repo done txn results kv) (hl : kv.Later kv') : Batch repo done txn results kv' :=
  ⟨h.valid.later hl, h.decodes, h.writes, h.covers⟩

/-- What the next command finds. -/
theorem Batch.current (h : Batch repo done txn results kv) (name : String) :
    (txn.get (refKey repo name) = none ∧ refsAt repo (overlay txn.snapshot txn.writes) name = none) ∨
      ∃ bytes target, txn.get (refKey repo name) = some bytes ∧ RefTarget.decode bytes = .ok target ∧
        refsAt repo (overlay txn.snapshot txn.writes) name = some target := by
  rw [refsAt, ← Txn.get]
  cases hget : txn.get (refKey repo name) with
  | none => exact .inl ⟨rfl, rfl⟩
  | some bytes =>
    obtain ⟨target, hdec⟩ := refsDecode_overlay h.decodes h.writes name bytes hget
    exact .inr ⟨bytes, target, rfl, hdec, by simp [hdec, Except.toOption]⟩

/-- A map that agrees with what has been read shows the next command the same
value. -/
theorem refsAt_overlay_congr {m : SortedMap Bytes Bytes} {name : String}
    (h : m.get (refKey repo name) = txn.snapshot.get (refKey repo name)) :
    refsAt repo (overlay m txn.writes) name = refsAt repo (overlay txn.snapshot txn.writes) name := by
  rw [refsAt, refsAt, overlay_congr fun _ => h]

/-- A command that leaves its ref alone. -/
theorem Batch.rejected (h : Batch repo done txn results kv) {result : RefUpdateResult}
    (hswap : ∀ refs : Refs, refs update.name = refsAt repo (overlay txn.snapshot txn.writes) update.name →
      refs.swap update = (refs, result)) :
    Batch repo (done ++ [update]) (txn.read (refKey repo update.name)) (results ++ [result]) kv where
  valid := h.valid.read _
  decodes := h.decodes
  writes := h.writes
  covers m hm := by
    have hread : ∀ k ∈ txn.reads, m.get k = txn.snapshot.get k := fun k hk => hm k (by simp [Txn.read, hk])
    rw [Refs.swapAll_concat, h.covers m hread]
    have hkey := hm (refKey repo update.name) (by simp [Txn.read])
    simp only
    rw [hswap _ (refsAt_overlay_congr hkey)]
    rfl

/-- A command that sets or deletes its ref. -/
theorem Batch.updated (h : Batch repo done txn results kv) {result : RefUpdateResult}
    (hswap : ∀ refs : Refs, refs update.name = refsAt repo (overlay txn.snapshot txn.writes) update.name →
      refs.swap update = (Function.update refs update.name (update.new.map .direct), result)) :
    Batch repo (done ++ [update])
      ((txn.read (refKey repo update.name)).write (refKey repo update.name)
        (update.new.map fun oid => (RefTarget.direct oid).encode)) (results ++ [result]) kv where
  valid := (h.valid.read _).write _ _
  decodes := h.decodes
  writes w hw := by
    rcases List.mem_append.1 hw with hw | hw
    · exact h.writes w hw
    · exact ⟨_, _, List.mem_singleton.1 hw⟩
  covers m hm := by
    have hread : ∀ k ∈ txn.reads, m.get k = txn.snapshot.get k :=
      fun k hk => hm k (by simp [Txn.read, Txn.write, hk])
    rw [Refs.swapAll_concat, h.covers m hread]
    have hkey := hm (refKey repo update.name) (by simp [Txn.read, Txn.write])
    simp only
    rw [hswap _ (refsAt_overlay_congr hkey)]
    simp only [Txn.write, Txn.read, overlay_append]
    rw [← refsAt_setKey]
    rfl

/-! ## Among others -/

/-- What other calls may do to the store. -/
def Others (repo : RepoId) (s s' : Slate) : Prop :=
  s.kv.Later s'.kv ∧ (RefsDecode repo s.kv.data → RefsDecode repo s'.kv.data)

theorem Others.refl (s : Slate) : Others repo s s := ⟨.refl _, id⟩

theorem Others.trans (s₁ s₂ s₃ : Slate) (h : Others repo s₁ s₂) (h' : Others repo s₂ s₃) : Others repo s₁ s₃ :=
  ⟨h.1.trans h'.1, fun hd => h'.2 (h.2 hd)⟩

/-- What is observed: the repository's refs. -/
def observed (repo : RepoId) (s : Slate) : Refs := refsAt repo s.kv.data

/-- The answer of a call that met a conflict at every attempt. -/
def conflictResults (updates : List RefUpdate) : List RefUpdateResult :=
  updates.map fun u => ⟨u.name, .rejected REASON_CONFLICT⟩

/-- A call of `update_refs` that takes effect at one operation. -/
def UpdatesAtomically (repo : RepoId) (updates : List RefUpdate) (p : SlateProg SlateError (List RefUpdateResult))
    (s : Slate) : Prop :=
  p.Atomic handler (Others repo) (observed repo) (Refs.swapAll updates) (· = conflictResults updates) s

/-- A command works on the transaction alone. -/
theorem updateRef_computes (h : Batch repo done txn results kv) (update : RefUpdate) :
    ∃ txn' result, (updateRef repo txn update).Computes handler (txn', result) ∧
      Batch repo (done ++ [update]) txn' (results ++ [result]) kv ∧ txn'.version = txn.version := by
  have hfound : ∀ {p : SlateTxn × RefUpdateResult},
      (updateFound repo (txn.read (refKey repo update.name)) update (txn.get (refKey repo update.name))).Computes
        handler p → (updateRef repo txn update).Computes handler p := fun hp => ⟨_, fun _ => rfl, hp⟩
  have hcas : ∀ current : Option ObjectId,
      refsAt repo (overlay txn.snapshot txn.writes) update.name = current.map .direct →
      ∃ txn' result, (compareAndSwap repo (txn.read (refKey repo update.name)) update current).Computes handler
          (txn', result) ∧
        Batch repo (done ++ [update]) txn' (results ++ [result]) kv ∧ txn'.version = txn.version := by
    intro current hcur
    unfold compareAndSwap
    split
    · rename_i hne
      refine ⟨_, _, rfl, h.rejected fun refs hrefs => ?_, rfl⟩
      rw [Refs.swap_direct (hrefs.trans hcur), if_neg hne]
    · rename_i heq
      refine ⟨_, _, ⟨_, fun _ => rfl, rfl⟩, h.updated fun refs hrefs => ?_, rfl⟩
      rw [Refs.swap_direct (hrefs.trans hcur), if_pos (not_not.1 heq)]
  rcases h.current update.name with ⟨hget, hnone⟩ | ⟨bytes, target, hget, hdec, hsome⟩
  · obtain ⟨txn', result, hp, hrest⟩ := hcas none hnone
    exact ⟨txn', result, hfound (by rw [hget]; exact hp), hrest⟩
  · cases target with
    | direct oid =>
      obtain ⟨txn', result, hp, hrest⟩ := hcas (some oid) hsome
      exact ⟨txn', result, hfound (by rw [hget, updateFound, hdec]; exact hp), hrest⟩
    | reference target =>
      refine ⟨_, _, hfound (by rw [hget, updateFound, hdec]; exact rfl), h.rejected fun refs hrefs => ?_, rfl⟩
      rw [hsome] at hrefs
      simp [Refs.swap, hrefs]

theorem updateAll_computes : ∀ {rest done : List RefUpdate} {txn : SlateTxn} {results : List RefUpdateResult},
    Batch repo done txn results kv →
      ∃ txn' results', (updateAll repo txn rest results).Computes handler (txn', results') ∧
        Batch repo (done ++ rest) txn' results' kv ∧ txn'.version = txn.version
  | [], done, txn, results, h => ⟨txn, results, rfl, by rwa [List.append_nil], rfl⟩
  | update :: rest, done, txn, results, h => by
    obtain ⟨txn₁, result, hp, h₁, hversion₁⟩ := updateRef_computes h update
    obtain ⟨txn₂, results₂, hq, h₂, hversion₂⟩ := @updateAll_computes rest _ _ _ h₁
    rw [List.append_assoc] at h₂
    exact ⟨txn₂, results₂, hp.bind hq, h₂, hversion₂.trans hversion₁⟩

theorem updateRefsFrom_atomic : ∀ {attempts : Nat} {s : Slate}, RefsDecode repo s.kv.data →
    UpdatesAtomically repo updates (updateRefsFrom repo updates attempts) s
  | 0, _, _ => rfl
  | attempts + 1, s, hs => by
    refine Prog.Atomic.silent fun s₁ hr₁ => ⟨.refl s₁, rfl, ?_⟩
    obtain ⟨txn, results, hcomputes, hbatch, -⟩ := @updateAll_computes repo s₁.kv updates _ _ _ (.start (hr₁.2 hs))
    refine hcomputes.atomic Others.refl Others.trans fun s₂ hr₂ => ?_
    rw [List.nil_append] at hbatch
    intro s₃ hr₃
    have hs₃ : RefsDecode repo s₃.kv.data := hr₃.2 (hr₂.2 (hr₁.2 hs))
    have hbatch := (hbatch.later hr₂.1).later hr₃.1
    cases hc : s₃.kv.conflicts txn with
    | true =>
      rw [commit_conflict hc]
      exact ⟨.refl s₃, .inl ⟨rfl, updateRefsFrom_atomic hs₃⟩⟩
    | false =>
      rw [commit_ok hc]
      have hcovers := hbatch.covers s₃.kv.data fun k hk => hbatch.valid.current hc (.inl hk)
      refine ⟨⟨Kv.later_commit _ _, fun hd => refsDecode_overlay hd hbatch.writes⟩, .inr ⟨?_, ?_⟩⟩
      · exact (congrArg Prod.fst hcovers).symm
      · exact congrArg Prog.ret (congrArg Prod.snd hcovers).symm

/-- A call running alone commits: it does its batch on the refs as they are. -/
theorem run_updateRefs {s : Slate} (hs : RefsDecode repo s.kv.data) (hdated : s.kv.Dated) :
    ∃ s', (updateRefs repo updates).run handler s =
        some (.ok (Refs.swapAll updates (observed repo s)).2, s') ∧
      observed repo s' = (Refs.swapAll updates (observed repo s)).1 ∧ s'.kv.version = s.kv.version + 1 := by
  obtain ⟨txn, results, hcomputes, hbatch, hversion⟩ := @updateAll_computes repo s.kv updates _ _ _ (.start hs)
  rw [List.nil_append] at hbatch
  have hc : s.kv.conflicts txn = false := Txn.not_conflicts hdated hversion
  have hcovers := hbatch.covers s.kv.data fun k hk => hbatch.valid.current hc (.inl hk)
  refine ⟨{ s with kv := s.kv.commit txn.writes }, ?_, (congrArg Prod.fst hcovers).symm, rfl⟩
  have hattempt : (updateAll repo s.kv.begin updates []).run handler s = some (.ok (txn, results), s) :=
    hcomputes.run s
  show (updateAll repo s.kv.begin updates [] >>= _).run handler s = _
  rw [Prog.run_bind_ok hattempt, Prog.run_bind_ok (run_commit_ok hc), if_pos rfl]
  exact congrArg (fun answer => some (Except.ok answer, _)) (congrArg Prod.snd hcovers).symm

end Slate

/-- **Concurrent ref updates are compare-and-swaps in some order.** In every
state that any number of `update_refs` calls of a repository reach, in any
interleaving of their operations: the calls that committed, by position in
the pool, can be put in an order in which their batches, one after another,
give the refs and the outcomes there are; the others have changed nothing,
and those of them that have returned were rejected for a conflict. -/
theorem updateRefs_linearizable {repo : RepoId} {s₀ : Slate} (hs₀ : RefsDecode repo s₀.kv.data)
    {c : List (Thread slateSig (List RefUpdate) SlateError (List RefUpdateResult)) × Slate}
    (hc : Pool.Reachable Slate.handler (fun updates p => p = Slate.updateRefs repo updates) (fun _ _ _ => True)
      (fun _ _ => False) s₀ c) :
    (∃ order : List (Nat × List RefUpdate × List RefUpdateResult), (order.map (·.1)).Nodup ∧
      replay Refs.swapAll (order.map (·.2.1)) (Slate.observed repo s₀) =
        (Slate.observed repo c.2, order.map (·.2.2)) ∧
      (∀ e ∈ order, (∃ begun, c.1[e.1]? = some ⟨e.2.1, begun, .ret e.2.2⟩) ∧
        ∀ r ∈ e.2.2, r.outcome ≠ .rejected REASON_CONFLICT) ∧
      ∀ i t, c.1[i]? = some t → (∀ e, t.prog ≠ .fail e) ∧ t.prog ≠ .stuck ∧
        ∀ results, t.prog = .ret results → results.map (·.name) = t.tag.map (·.name) ∧
          ((i, t.tag, results) ∈ order ∨
            i ∉ order.map (·.1) ∧ results = t.tag.map fun u => ⟨u.name, .rejected REASON_CONFLICT⟩)) ∧
      ∀ name target, Slate.observed repo s₀ name = some (.reference target) →
        Slate.observed repo c.2 name = some (.reference target) := by
  have hstart : ∀ updates (p : SlateProg SlateError (List RefUpdateResult)) s, p = Slate.updateRefs repo updates →
      Slate.Others repo s₀ s → Slate.UpdatesAtomically repo updates p s := by
    intro updates p s hp hr
    rw [hp]
    exact Slate.updateRefsFrom_atomic (hr.2 hs₀)
  obtain ⟨-, order, hl⟩ := Pool.linearizable Slate.Others.refl Slate.Others.trans hstart hc
  refine ⟨⟨order, hl.nodup, hl.replayed, fun e he => ⟨hl.effective e he, ?_⟩, fun i t hget => ?_⟩, ?_⟩
  · obtain ⟨refs, hrefs⟩ := hl.answered he
    rw [hrefs]
    exact Refs.swapAll_ne_conflict
  · by_cases hi : i ∈ order.map (·.1)
    · obtain ⟨⟨i', tag, results⟩, he, hi'⟩ := List.mem_map.1 hi
      dsimp only at hi'
      subst hi'
      obtain ⟨begun, hget'⟩ := hl.effective _ he
      cases hget.symm.trans hget'
      refine ⟨nofun, nofun, fun results' hret => ?_⟩
      cases hret
      obtain ⟨refs, hrefs⟩ := hl.answered he
      dsimp only at hrefs
      exact ⟨by rw [hrefs, Refs.swapAll_names], .inl he⟩
    · have hatomic := hl.pending i t hget hi
      refine ⟨fun e hfail => ?_, fun hstuck => ?_, fun results hret => ?_⟩
      · rw [hfail] at hatomic
        exact hatomic
      · rw [hstuck] at hatomic
        exact hatomic
      · rw [hret] at hatomic
        have hres : results = Slate.conflictResults t.tag := hatomic
        exact ⟨by simp [hres, Slate.conflictResults, Function.comp_def], .inr ⟨hi, hres⟩⟩
  · intro name target hsym
    have hrefs := congrArg Prod.fst hl.replayed
    dsimp only at hrefs
    rw [← hrefs]
    exact replay_inv (P := fun refs : Refs => refs name = some (.reference target))
      (fun _ _ h => Refs.swapAll_symbolic h) hsym

namespace Sample

/-- The only repository of a store. -/
def onlyRepo : RepoId := ⟨1⟩

/-- The id of 20 equal bytes. -/
def filledId (b : UInt8) : ObjectId := ⟨.sha1, List.replicate 20 b, by simp [HashKind.lenInBytes]⟩

/-- A batch that creates a branch and then moves it. -/
def createAndMove : List RefUpdate :=
  [⟨"refs/heads/main", none, some (filledId 1)⟩, ⟨"refs/heads/main", some (filledId 1), some (filledId 2)⟩]

theorem refsDecode_empty (repo : RepoId) : RefsDecode repo Slate.empty.kv.data := by
  intro name bytes h
  cases h

end Sample

namespace Sample

/-- A batch that creates the same branch. -/
def createOther : List RefUpdate := [⟨"refs/heads/main", none, some (filledId 3)⟩]

def bothBatches : List (List RefUpdate × SlateProg SlateError (List RefUpdateResult)) :=
  [createAndMove, createOther].map fun updates => (updates, Slate.updateRefs onlyRepo updates)

/-- The second call has found no branch when the first runs to its end. Its
commit meets a conflict, and its next attempt finds the branch. -/
def crossed : List (Thread slateSig (List RefUpdate) SlateError (List RefUpdateResult)) × Slate :=
  Pool.turns Slate.handler (Pool.waiting bothBatches, Slate.empty) [1, 1, 0, 0, 0, 0, 0, 0, 1, 1, 1, 1, 1]

theorem ended_crossed : (crossed.1.map fun t => (t.tag, t.outcome)) =
    [(createAndMove, some (.ok [⟨"refs/heads/main", .updated⟩, ⟨"refs/heads/main", .updated⟩])),
      (createOther, some (.ok [⟨"refs/heads/main", .rejected REASON_NON_FAST_FORWARD⟩]))] := by
  decide +kernel

end Sample

open Sample in
/-- A call that meets a conflict and tries again comes second. -/
theorem updateRefs_linearizable_sample :
    ∃ order : List (Nat × List RefUpdate × List RefUpdateResult), (order.map (·.1)).Nodup ∧
      (0, createAndMove, [⟨"refs/heads/main", .updated⟩, ⟨"refs/heads/main", .updated⟩]) ∈ order ∧
      (1, createOther, [⟨"refs/heads/main", .rejected REASON_NON_FAST_FORWARD⟩]) ∈ order ∧
      replay Refs.swapAll (order.map (·.2.1)) (Slate.observed onlyRepo Slate.empty) =
        (Slate.observed onlyRepo crossed.2, order.map (·.2.2)) := by
  have hc : Pool.Reachable Slate.handler (fun updates p => p = Slate.updateRefs onlyRepo updates)
      (fun _ _ _ => True) (fun _ _ => False) Slate.empty crossed :=
    Pool.Reachable.waiting_turns (fun _ _ _ => trivial) .refl (by simp [bothBatches]) _
  obtain ⟨⟨order, hnodup, hreplay, -, hended⟩, -⟩ := updateRefs_linearizable (refsDecode_empty onlyRepo) hc
  have hin : ∀ {i updates results}, (crossed.1.map fun t => (t.tag, t.outcome))[i]? = some (updates, some (.ok results)) →
      (results ≠ updates.map fun u => ⟨u.name, .rejected REASON_CONFLICT⟩) → (i, updates, results) ∈ order := by
    intro i updates results hget hne
    obtain ⟨t, ht, rfl, hret⟩ := Thread.of_outcomes hget
    obtain ⟨-, hmem | ⟨-, hconflict⟩⟩ := (hended i t ht).2.2 results hret
    · exact hmem
    · exact absurd hconflict hne
  rw [ended_crossed] at hin
  exact ⟨order, hnodup, hin rfl (by decide), hin rfl (by decide), hreplay⟩

end Miscreant
