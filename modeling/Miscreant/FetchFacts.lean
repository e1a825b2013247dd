/-
What pushes lead to can be fetched.

After accepted pushes of well-typed packs every commit has a record that can
be read (`Served`), so the facts about fetches apply to the state. An
advertised id is there, its tag chain ends, and planning a fetch of it
succeeds if the chain ends in a commit, or is empty; a chain that ends in a
tree or a blob is refused (`run_planPack_unsupported`).
-/
import Miscreant.PushRuns
import Miscreant.PlanFacts

namespace Miscreant

open Lib

variable {E : Env}

/-! ## Served repositories -/

/-- A repository whose commits all have correct records, and whose refs name
objects that are there. -/
structure Served (E : Env) (db : E.Db) : Prop extends Kept E db where
  records : ∀ c, (E.commitAt db c).isSome → (db.graph c).isSome
  targets : ∀ name oid, db.refs.get name = some (.direct oid) → Promote.Committed db oid

/-- No commit of the pack has more than 255 parents. -/
def StagedPack.FewParents (E : Env) (staged : StagedPack) : Prop :=
  ∀ c body commit, staged.read c = some (.commit, body) → E.gix.commitFromBytes body c.kind = some commit →
    commit.parents.length ≤ 255

theorem StagedPack.FewParents.keepsAll (hcodec : E.codec = .bytes) {staged : StagedPack} (h : staged.FewParents E) :
    staged.KeepsAll E := by
  intro c body commit hread hp g
  obtain ⟨ht, hps⟩ := E.gix.commit_kind body c.kind commit hp
  rw [hcodec]
  exact CommitGraphRecord.decode_encode ht hps (h c body commit hread hp)

namespace Served

variable {db db' : E.Db}

theorem of_fresh (h : Fresh E db) : Served E db :=
  { h.tracked.toSound with
    typed := h.wellTyped
    correct := fun c v _ hv => by simp [h.graph] at hv
    keeps := fun c commit hc => by
      obtain ⟨body, ho, -⟩ := commitAt_eq_some.1 hc
      simp [h.objectAt] at ho
    records := fun c hc => by
      obtain ⟨commit, hc⟩ := Option.isSome_iff_exists.1 hc
      obtain ⟨body, ho, -⟩ := commitAt_eq_some.1 hc
      simp [h.objectAt] at ho
    targets := fun name oid hr => absurd hr (h.refs name oid) }

/-- A promotion of a well-typed pack that was accepted. -/
theorem promote (h : Served E db) {staged : StagedPack} (hacyc : staged.Acyclic E) {tips : List ObjectId}
    (htyped : staged.TypedFor E db tips) (hk : staged.KeepsAll E) {fuel : Nat} {p : Promotion}
    (hr : (Promote.validateAndPromote E fuel staged tips).run Db.handler db = some (.ok p, db')) :
    Served E db' ∧ ∀ t ∈ tips, Promote.Committed db' t := by
  obtain ⟨N, hN⟩ := h.toKept.run_promote hacyc htyped hk
  have hrun := validateAndPromote_runsAs (Nat.le_max_left fuel N) staged tips db _ hr
  rcases hN with ⟨e, -, hN⟩ | ⟨l, db₁, db₂, p', hval, hstored, h₁, hrec, hnew, hN⟩
  · cases hrun.symm.trans (hN _ (Nat.le_max_right fuel N))
  · cases hrun.symm.trans (hN _ (Nat.le_max_right fuel N))
    refine ⟨{ h₁.recorded hrec with
      records := fun c hc => ?_
      targets := fun name oid hn => ?_ }, fun t ht => ?_⟩
    · rw [hrec.commitAt] at hc
      obtain ⟨commit, hc⟩ := Option.isSome_iff_exists.1 hc
      obtain ⟨body, ho, hparse⟩ := commitAt_eq_some.1 hc
      rcases hstored.cases hval (x := c) (objectAt_isSome (by simp [ho])) with ⟨-, heq⟩ | ⟨hnew', heq, e, he, rfl, -⟩
      · refine hrec.kept c ?_
        rw [hstored.graph]
        refine h.records c ?_
        rw [commitAt_eq_some.2 ⟨body, heq ▸ ho, hparse⟩]
        rfl
      · have hkind := ho.symm.trans (hstored.new e he hnew')
        exact hnew e (Promote.mem_ofKind.2 ⟨he, by rw [← Option.some.inj hkind]⟩)
    · rw [hrec.refs, hstored.refs] at hn
      exact (hrec.committed oid).2 ((hstored.committed oid).2 (.inl (h.targets name oid hn)))
    · exact (hrec.committed t).2 ((hstored.committed t).2 (hval.1.tips t ht))

/-- An accepted push. -/
theorem push (h : Served E db) {staged : StagedPack} {updates : List RefUpdate}
    (hp : AcceptedPush E db staged updates db') (htyped : staged.TypedFor E db (Promote.tipsOf updates))
    (hk : staged.KeepsAll E) : Served E db' := by
  obtain ⟨results, hp⟩ := hp
  rcases hp.cases with ⟨fuel, e, he, -⟩ | ⟨fuel, results', p, db₁, -, hrun, hrefs⟩
  · cases he
  · obtain ⟨h₁, htips⟩ := h.promote hp.1 htyped hk hrun
    obtain ⟨results'', db₂, hsame, htargets, hrefs'⟩ := run_updateRefs (ε := PromoteError) updates db₁
    cases hrefs.symm.trans hrefs'
    have hcm : E.commitAt db' = E.commitAt db₁ := funext hsame.commitAt
    exact
      { hsame.sound h₁.toSound with
        typed := hsame.wellTyped h₁.typed
        correct := fun c v _ hv => by
          rw [hcm]
          exact h₁.correct c v trivial (by rwa [hsame.graph] at hv)
        keeps := hsame.keepsAll h₁.keeps
        records := fun c hc => by
          rw [hsame.graph]
          exact h₁.records c (by rwa [hcm] at hc)
        targets := fun name oid hn => by
          rw [hsame.committed]
          rcases htargets name _ hn with hold | ⟨u, hu, oid', hnew, -, heq⟩
          · exact h₁.targets name oid hold
          · cases heq
            exact htips oid (List.mem_filterMap.2 ⟨u, hu, hnew⟩) }

theorem indexed (h : Served E db) : Indexed E db :=
  { h.toIntact with
    decodes := fun c body ho => by simpa [Promote.objectChildren] using h.toSound.decodes c .commit body ho
    record := fun c commit hc => by
      rcases h.correct.graphAt (c := c) trivial with ⟨hnone, -⟩ | ⟨r, -, hg, hr⟩
      · have hsome := h.records c (by simp [hc])
        simp [hnone] at hsome
      · obtain ⟨commit', hc', -, ht, hp⟩ := hr
        cases hc.symm.trans hc'
        exact ⟨r, hg, ht, hp⟩
    onlyCommits := fun c hc => by
      obtain ⟨v, hv⟩ := Option.isSome_iff_exists.1 hc
      obtain ⟨r, -, commit, hcm, -⟩ := h.correct c v trivial hv
      simp [hcm]
    parents := fun c p hp => h.parent_commit h.typed hp }

theorem treesTyped (h : Served E db) : TreesTyped E db := by
  have hentry : ∀ t entries, E.treeAt db t = some entries → ∀ e ∈ entries, ∀ r, Promote.entryRef e = some r →
      ∃ body, E.objectAt db r.1 = some (r.2, body) := by
    intro t entries ht e he r hr
    obtain ⟨body, ho, hd⟩ := treeAt_eq_some.1 ht
    refine h.typed t r.1 r.2 ⟨.tree, body, entries.filterMap Promote.entryRef, ho, ?_, List.mem_filterMap.2 ⟨e, he, hr⟩⟩
    simp [Promote.objectRefs, decoded_eq_some.2 hd]
  refine ⟨fun t body ho => ?_, fun c commit hc => ?_, fun t entries ht e he hm => ?_, fun t entries ht e he hm hm' => ?_⟩
  · have hd := h.toSound.decodes t .tree body ho
    rw [Promote.objectChildren_eq] at hd
    simpa [Promote.objectRefs, Env.treeAt, ho] using hd
  · exact h.typed c commit.tree .tree ((Sound.refers_commit hc).2 (.inl ⟨rfl, rfl⟩))
  · exact hentry t entries ht e he (e.oid, .tree) (by simp [Promote.entryRef, hm])
  · refine hentry t entries ht e he (e.oid, .blob) ?_
    cases hmode : e.mode with
    | tree => exact absurd hmode hm
    | commit => exact absurd hmode hm'
    | blob | blobExecutable | link => simp [Promote.entryRef, hmode]

end Served

/-! ## Advertised ids -/

/-- `w` is advertised as the value of a ref. -/
def Advertised (E : Env) (db : E.Db) (w : ObjectId) : Prop :=
  ∃ entry ∈ db.refs.entries, E.run (UploadPack.resolveRef E entry.2 : E.Prog WalkError _) db = some (.ok (.resolved w), db)

theorem resolveFrom_resolved {ε : Type} {db : E.Db} {w : ObjectId} :
    ∀ (n : Nat) (target : RefTarget),
      (UploadPack.resolveFrom E n target : E.Prog ε _).run Db.handler db = some (.ok (.resolved w), db) →
      target = .direct w ∨ ∃ name, db.refs.get name = some (.direct w)
  | 0, _, h => by cases h
  | _ + 1, .direct oid, h => by
    cases h
    exact .inl rfl
  | n + 1, .reference name, h => by
    rw [UploadPack.resolveFrom, Prog.run_bind, run_getRef] at h
    cases hr : db.refs.get name with
    | none =>
      simp only [hr] at h
      cases h
    | some next =>
      simp only [hr] at h
      rcases resolveFrom_resolved n next h with rfl | hname
      · exact .inr ⟨name, hr⟩
      · exact .inr hname

theorem Served.advertised {db : E.Db} (h : Served E db) {w : ObjectId} (hw : Advertised E db w) :
    Promote.Committed db w := by
  obtain ⟨⟨name, target⟩, hmem, hres⟩ := hw
  rcases resolveFrom_resolved _ target hres with rfl | ⟨name', hname'⟩
  · exact h.targets name w (SortedMap.mem_entries.1 hmem)
  · exact h.targets name' w hname'

/-- Every object's tag chain ends. -/
theorem Sound.peels {db : E.Db} (h : Sound E db) {w : ObjectId} (hw : Promote.Committed db w) :
    ∃ chain kind body, E.Peels db w chain ∧ E.objectAt db chain.target = some (kind, body) ∧ kind ≠ .tag := by
  induction h.acc w with
  | intro w _ ih =>
  obtain ⟨⟨kind, body⟩, ho⟩ := Option.isSome_iff_exists.1 (h.object w hw)
  by_cases hk : kind = .tag
  · subst hk
    obtain ⟨tag, ht⟩ := Option.isSome_iff_exists.1 (h.tag_decodes ho)
    have hchild : E.Child db w tag.target := (child_tag ho ht).2 rfl
    obtain ⟨chain, kind, body, hp, ho', hk⟩ := ih tag.target hchild (h.closed w _ hchild)
    exact ⟨_, kind, body, .tag ho ht hp, ho', hk⟩
  · exact ⟨_, kind, body, .target ho hk, ho, hk⟩

namespace Walker

/-- Peeling a want whose chain ends in a tree or a blob. -/
theorem run_peelLoop_unsupported {db : E.Db} (hi : Intact E db) {want cursor : ObjectId} {chain : TagChain}
    (hp : E.Peels db cursor chain) {kind : Kind} {body : Bytes} (ho : E.objectAt db chain.target = some (kind, body))
    (hk : kind = .tree ∨ kind = .blob) :
    ∀ (fuel : Nat) (tags : List ObjectId), chain.tags.length < fuel →
      (Prog.loop (peelStep E want) fuel (cursor, tags)).run Db.handler db =
        some (.error (.unsupportedWant chain.target kind), db) := by
  induction hp with
  | @target oid kind' body' ho' hk' =>
    intro fuel tags hfuel
    obtain ⟨fuel, rfl⟩ : ∃ n, fuel = n + 1 := ⟨fuel - 1, by simp at hfuel; omega⟩
    cases ho.symm.trans ho'
    refine Prog.run_bind_error ?_
    rw [peelStep, Prog.run_bind_ok (run_get_mapErr _ hi oid), ho]
    rcases hk with rfl | rfl
    · rfl
    · rfl
  | @tag oid body' tag chain ho' ht hc ih =>
    intro fuel tags hfuel
    simp only [List.length_cons] at hfuel
    obtain ⟨fuel, rfl⟩ : ∃ n, fuel = n + 1 := ⟨fuel - 1, by omega⟩
    have hstep : (peelStep E want (oid, tags)).run Db.handler db =
        some (.ok (.inl (tag.target, tags ++ [oid])), db) := by
      rw [peelStep, Prog.run_bind_ok (run_get_mapErr _ hi oid), ho']
      simp [ht]
    rw [Prog.run_loop_succ, Prog.run_bind_ok hstep]
    exact ih ho fuel (tags ++ [oid]) (by omega)

variable {db : E.Db} (hdb : Indexed E db) {want : ObjectId} {chain : TagChain}

include hdb

/-- Discovery for a want whose chain ends in a tree or a blob. -/
theorem run_selectCommits_unsupported (haves : List ObjectId) (hp : E.Peels db want chain) {kind : Kind} {body : Bytes}
    (ho : E.objectAt db chain.target = some (kind, body)) (hk : kind = .tree ∨ kind = .blob) {fuel : Nat}
    (hfuel : chain.tags.length < fuel) :
    (selectCommits E fuel [want] haves).run Db.handler db =
      some (.error (.unsupportedWant chain.target kind), db) := by
  have hempty : ∀ x r, (SortedMap.empty : SortedMap ObjectId CommitGraphRecord).get x = some r →
      E.infoAt db x = some r := by simp
  obtain ⟨d, hd, -, -⟩ := markHaves_spec (E := E) [] (E.commitsOf db haves) (misses .empty ∅ haves) []
    (Discovery.Inv.start (prefetched_cached hempty haves)) (by
      intro x hx hi
      have hx := (mem_misses.1 hx).1
      exact ⟨prefetched_mem _ hx hi, mem_commitsOf.2 ⟨hx, hdb.infoAt_isSome.1 hi⟩⟩)
  rw [← hdb.commitsOf_eq] at hd
  have hhaves : (Prog.ofExcept (markHaves ((misses .empty ∅ haves).map fun id => (id, E.fetchedAt db id))
      .default []) : E.Prog WalkError _).run Db.handler db = some (.ok (d, E.commitsOf db haves), db) := by
    rw [hd, Prog.run_ofExcept, List.nil_append]
  have hpeel : (peelWants E fuel [want]).run Db.handler db =
      some (.error (.unsupportedWant chain.target kind), db) := by
    have hone : (Prog.forEach (fun want => (peelWant E fuel want).attempt) [want] : E.Prog WalkError _).run
        Db.handler db = some (.ok [.error (.unsupportedWant chain.target kind)], db) := by
      refine Prog.run_forEach₂ (.cons ?_ .nil)
      rw [Prog.run_attempt, peelWant, run_peelLoop_unsupported hdb.toIntact hp ho hk fuel [] hfuel]
      rfl
    rw [peelWants, Prog.run_bind_ok hone]
    rfl
  refine (Prog.run_bind_ok (hdb.run_prefetchRecords (by omega) _ _)).trans ?_
  refine (Prog.run_bind_ok hhaves).trans ?_
  exact Prog.run_bind_error hpeel

end Walker

namespace UploadPack

variable {db : E.Db} (hdb : Indexed E db) {w : ObjectId} {chain : TagChain}

include hdb

/-- A fetch of a tag whose chain ends in a tree or a blob is refused. -/
theorem run_planPack_unsupported (hp : E.Peels db w chain) (htag : chain.tags ≠ []) {kind : Kind} {body : Bytes}
    (ho : E.objectAt db chain.target = some (kind, body)) (hk : kind = .tree ∨ kind = .blob) (haves : List ObjectId)
    (filter : FilterSpec) (ofsDeltas : Bool) {fuel : Nat} (hfuel : chain.tags.length < fuel) :
    (planPack E fuel [w] haves filter ofsDeltas).run Db.handler db =
      some (.error (.unsupportedWant chain.target kind), db) := by
  obtain ⟨body', how⟩ : ∃ body, E.objectAt db w = some (.tag, body) := by
    cases hp with
    | target => simp at htag
    | tag how => exact ⟨_, how⟩
  have hobj : ∀ w' ∈ [w], (E.objectAt db w').isSome := by simp [how]
  have hhistory : E.wantsOf db .commit .tag [w] = [w] := by simp [Env.wantsOf, Env.kindSize, how]
  rw [planPack, Prog.run_bind_ok (run_partitionWants hdb.toIntact hobj), hhistory]
  simp only [List.isEmpty_cons, Bool.false_eq_true, if_false]
  exact Prog.run_bind_error (Walker.run_selectCommits_unsupported hdb haves hp ho hk hfuel)

/-- A fetch of a tree or a blob sends it. -/
theorem planPack_direct_sends (hw : E.IsDirect db w) (haves : List ObjectId) (filter : FilterSpec) (ofsDeltas : Bool)
    (fuel : Nat) :
    ∃ plan, (planPack E fuel [w] haves filter ofsDeltas).run Db.handler db = some (.ok plan, db) ∧
      w ∈ plan.objects.map (·.oid) := by
  have hfetch : ∀ w' ∈ [w], E.Fetchable db w' := fun w' hw' => by
    rw [List.mem_singleton.1 hw']
    exact .inl hw
  have hnone : ∀ w' ∈ [w], ¬ Walker.Sendable E db w' := fun w' hw' hs => by
    rw [List.mem_singleton.1 hw'] at hs
    exact not_direct_of_sendable hs hw
  refine ⟨_, run_planPack_direct hdb hfetch hnone fuel haves filter ofsDeltas, ?_⟩
  rw [map_oid_plainSchedule, List.mem_eraseDups,
    mem_wantsOf fun w' hw' => objectAt_of_fetchable (hfetch w' hw')]
  exact ⟨List.mem_singleton_self w, hw⟩

/-- A fetch of a commit, or of a tag of one, sends it unless it is a commit
that a have dominates. -/
theorem planPack_history_sends (ht : TreesTyped E db) (hw : E.PeelsToCommit db w chain) (haves : List ObjectId)
    (filter : FilterSpec) (ofsDeltas : Bool) :
    ∃ N, ∀ fuel ≥ N, ∃ plan, (planPack E fuel [w] haves filter ofsDeltas).run Db.handler db = some (.ok plan, db) ∧
      (w ∈ plan.objects.map (·.oid) ∨ ∃ h ∈ haves, (E.commitAt db h).isSome ∧ E.Ancestor db w h) := by
  have hfetch : ∀ w' ∈ [w], E.Fetchable db w' := fun w' hw' => by
    rw [List.mem_singleton.1 hw']
    exact .inr ⟨chain, hw⟩
  obtain ⟨chains, hchains, N, hN⟩ := run_planPack_history hdb ht hfetch ⟨w, by simp, hw.sendable⟩ haves filter ofsDeltas
  refine ⟨N, fun fuel hfuel => ?_⟩
  obtain ⟨plan, s, haveObjects, hrun, hturn, hpend, -, -, -, hmem⟩ := hN fuel hfuel
  refine ⟨plan, hrun, ?_⟩
  have hchain : chain ∈ chains :=
    (mem_wantChains (fun w' hw' => objectAt_of_fetchable (hfetch w' hw')) hchains).2 ⟨w, by simp, hw⟩
  obtain ⟨hpeels, hcommit⟩ := hw
  cases hpeels with
  | tag ho htag hc =>
    refine .inl ((hmem w).2 (.inl (List.mem_append_right _ ?_)))
    exact List.mem_eraseDups.2 (List.mem_flatMap.2 ⟨_, hchain, by simp⟩)
  | target ho hk =>
    -- the want is marked, and neither pending nor sent only if a have reaches it
    obtain ⟨flag, hflag⟩ := Option.isSome_iff_exists.1
      (hturn.covered.starts w (List.mem_map.2 ⟨_, hchain, rfl⟩))
    have hsent : w ∈ s.toSend ∨ s.discovery.state.get w = some .Have := by
      cases flag with
      | Have => exact .inr hflag
      | Want =>
        by_cases hd : w ∈ s.done
        · exact hturn.inv.doneSent w hd
        · have hpending := (hturn.inv.pending w).2 ⟨hflag, hd⟩
          simp [hpend] at hpending
    rcases hsent with hsent | hhave
    · exact .inl ((hmem w).2 (.inl (List.mem_append_left _ hsent)))
    · exact .inr (hdb.below_commitsOf.1 (hturn.inv.have w hhave))

end UploadPack

/-- How a fetch of `w` alone ends: it succeeds and sends `w`, unless `w` is a
commit a have dominates, or is refused because `w` is a tag whose chain ends
in a tree or a blob. -/
def FetchEnds (E : Env) (db : E.Db) (w : ObjectId) (haves : List ObjectId) (filter : FilterSpec) (ofsDeltas : Bool) :
    Prop :=
  ∃ chain kind body N, E.Peels db w chain ∧ E.objectAt db chain.target = some (kind, body) ∧
    (kind = .commit ∨ chain.tags = [] → ∀ fuel ≥ N, ∃ plan,
      E.run (UploadPack.planPack E fuel [w] haves filter ofsDeltas) db = some (.ok plan, db) ∧
      (w ∈ plan.objects.map (·.oid) ∨ ∃ h ∈ haves, (E.commitAt db h).isSome ∧ E.Ancestor db w h)) ∧
    (kind ≠ .commit ∧ chain.tags ≠ [] → ∀ fuel ≥ N,
      E.run (UploadPack.planPack E fuel [w] haves filter ofsDeltas) db =
        some (.error (.unsupportedWant chain.target kind), db))

/-- What accepted pushes of well-typed packs advertise can be fetched, if no
commit has more than 255 parents, tags that lead to no commit aside. -/
theorem advertised_fetchable (hcodec : E.codec = .bytes) {db₀ db : E.Db} (hfresh : Fresh E db₀)
    (hrun : Relation.ReflTransGen (fun db db' => ∃ staged updates, AcceptedPush E db staged updates db' ∧
      staged.TypedFor E db (Promote.tipsOf updates) ∧ staged.FewParents E) db₀ db)
    {w : ObjectId} (hw : Advertised E db w) (haves : List ObjectId) (filter : FilterSpec) (ofsDeltas : Bool) :
    FetchEnds E db w haves filter ofsDeltas := by
  have h : Served E db := by
    clear hw
    induction hrun with
    | refl => exact .of_fresh hfresh
    | tail _ hstep ih =>
      obtain ⟨staged, updates, hpush, htyped, hfew⟩ := hstep
      exact ih.push hpush htyped (hfew.keepsAll hcodec)
  obtain ⟨chain, kind, body, hp, ho, hk⟩ := h.toSound.peels (h.advertised hw)
  by_cases hcommit : kind = .commit
  · subst hcommit
    obtain ⟨N, hN⟩ := UploadPack.planPack_history_sends h.indexed h.treesTyped ⟨hp, h.commitAt_isSome ho⟩ haves filter
      ofsDeltas
    exact ⟨chain, .commit, body, N, hp, ho, fun _ => hN, fun hne => absurd rfl hne.1⟩
  · have hkind : kind = .tree ∨ kind = .blob := by cases kind <;> simp_all
    refine ⟨chain, kind, body, chain.tags.length + 1, hp, ho, fun hok fuel _ => ?_, fun hne fuel hfuel => ?_⟩
    · have htags := hok.resolve_left hcommit
      have htarget : chain.target = w := by
        cases hp with
        | target => rfl
        | tag => simp at htags
      obtain ⟨plan, hplan, hmem⟩ := UploadPack.planPack_direct_sends h.indexed ⟨kind, body, htarget ▸ ho, hkind⟩ haves
        filter ofsDeltas fuel
      exact ⟨plan, hplan, .inl hmem⟩
    · exact UploadPack.run_planPack_unsupported h.indexed hp hne.2 ho hkind haves filter ofsDeltas (by omega)

theorem advertised_of_direct {db : E.Db} {name : String} {w : ObjectId} (h : db.refs.get name = some (.direct w)) :
    Advertised E db w :=
  ⟨(name, .direct w), SortedMap.mem_entries.2 h, rfl⟩

theorem Sample.pack_fewParents : pack.FewParents env := by
  intro c body commit hread hp
  have hmem := StagedPack.mem_of_read hread
  simp only [objects, List.mem_cons, Prod.mk.injEq, reduceCtorEq, false_and, and_false, false_or, or_false, true_and,
    List.not_mem_nil] at hmem
  rcases hmem with ⟨rfl, rfl⟩ | ⟨rfl, rfl⟩
  · cases parse_root.symm.trans hp
    simp
  · cases parse_tip.symm.trans hp
    simp

open Sample in
theorem advertised_fetchable_sample :
    ∃ db, AcceptedPush env Db.empty pack [⟨"refs/tags/v", none, some tagId⟩] db ∧ Advertised env db tagId ∧
      FetchEnds env db tagId [rootId] .blobNone true := by
  obtain ⟨db, hpush, href⟩ := accepted_pack
  have htyped : pack.TypedOver env Db.empty := pack_typed .bytes
  have hadv : Advertised env db tagId := advertised_of_direct href
  exact ⟨db, hpush, hadv, advertised_fetchable rfl fresh_empty
    (.single ⟨pack, _, hpush, htyped.typedFor _, pack_fewParents⟩) hadv [rootId] .blobNone true⟩

/-! A tag of a tree. -/

namespace TreeTag

open Sample (emptyTreeId)

def tagId : ObjectId := sha1Id 0x19ab96a5b4ed14d36e8a8ea3fe1bddb1fc9ac9f9

def tagBody : Bytes := ascii
  "object 4b825dc642cb6eb9a060e54bf8d69288fbee4904\ntype tree\ntag w\ntagger m <m@m> 0 +0000\n\nw\n"

def table : ParseTable where
  commits := []
  tags := [(tagBody, ⟨emptyTreeId, .tree⟩)]
  trees := []
  commits_sha1 := ParseTable.sha1_nil

def env : Env := table.env 1000

def objects : List (ObjectId × Kind × Bytes) := [(emptyTreeId, .tree, []), (tagId, .tag, tagBody)]

def pack : StagedPack := .of objects

theorem parse_tag : env.gix.tagFromBytes tagBody tagId.kind = some ⟨emptyTreeId, .tree⟩ := by
  simp [env, ParseTable.env, ParseTable.gix, tagId, sha1Id, table, List.lookup_cons]

theorem read_tag : pack.read tagId = some (.tag, tagBody) := StagedPack.read_of objects tagId

theorem read_tree : pack.read emptyTreeId = some (.tree, []) := StagedPack.read_of objects emptyTreeId

theorem mem_of_read {x : ObjectId} {kind : Kind} {body : Bytes} (h : pack.read x = some (kind, body)) :
    (x = emptyTreeId ∧ kind = .tree ∧ body = []) ∨ (x = tagId ∧ kind = .tag ∧ body = tagBody) := by
  have hmem : (x, kind, body) ∈ objects := StagedPack.mem_of_read h
  simpa [objects] using hmem

theorem refers {x y : ObjectId} {k : Kind} (h : pack.Refers env x y k) : x = tagId ∧ y = emptyTreeId ∧ k = .tree := by
  obtain ⟨kind, body, refs, hread, hrefs, hmem⟩ := h
  rcases mem_of_read hread with ⟨rfl, rfl, rfl⟩ | ⟨rfl, rfl, rfl⟩
  · cases (show Promote.objectRefs env emptyTreeId .tree [] = some [] from rfl).symm.trans hrefs
    simp at hmem
  · rw [Promote.objectRefs, parse_tag] at hrefs
    cases hrefs
    simpa using hmem

theorem child {x y : ObjectId} (h : pack.Child env x y) : x = tagId ∧ y = emptyTreeId := by
  obtain ⟨kind, body, children, hread, hch, hy⟩ := h
  rw [Promote.objectChildren_eq, Option.map_eq_some_iff] at hch
  obtain ⟨refs, hrefs, rfl⟩ := hch
  obtain ⟨⟨y', k⟩, hmem, rfl⟩ := List.mem_map.1 hy
  obtain ⟨rfl, rfl, -⟩ := refers ⟨kind, body, refs, hread, hrefs, hmem⟩
  exact ⟨rfl, rfl⟩

theorem pack_acyclic : pack.Acyclic env := by
  refine StagedPack.acyclic_of_rank (fun x => if x = tagId then 1 else 0) fun x y h => ?_
  obtain ⟨rfl, rfl⟩ := child h
  decide

theorem pack_typed : pack.TypedOver env Db.empty := by
  intro x y k h kind body hy
  obtain ⟨rfl, rfl, rfl⟩ := refers h
  rcases hy with hy | ⟨-, hy⟩
  · simp [Env.objectAt, Db.empty] at hy
  · cases hy.symm.trans read_tree
    rfl

theorem pack_fewParents : pack.FewParents env := by
  intro c body commit hread
  rcases mem_of_read hread with ⟨-, h, -⟩ | ⟨-, h, -⟩
  · cases h
  · cases h

theorem run_pack :
    (env.run (Promote.receivePack env 9 pack [⟨"refs/tags/w", none, some tagId⟩]) Db.empty).map
      (fun x => (x.1, x.2.refs.get "refs/tags/w")) =
    some (.ok [⟨"refs/tags/w", .updated⟩], some (.direct tagId)) := by
  decide +kernel

end TreeTag

open TreeTag in
theorem treeTag_unfetchable :
    ∃ db, (AcceptedPush env Db.empty pack [⟨"refs/tags/w", none, some tagId⟩] db ∧
        pack.TypedOver env Db.empty ∧ pack.FewParents env) ∧ Advertised env db tagId ∧
      ∀ fuel ≥ 2, env.run (UploadPack.planPack env fuel [tagId] [] .none false) db =
        some (.error (.unsupportedWant Sample.emptyTreeId .tree), db) := by
  obtain ⟨⟨r, db⟩, hrun, heq⟩ := Option.map_eq_some_iff.1 run_pack
  simp only [Prod.mk.injEq] at heq
  obtain ⟨rfl, href⟩ := heq
  have hpush : AcceptedPush env Db.empty pack [⟨"refs/tags/w", none, some tagId⟩] db := ⟨_, pack_acyclic, 9, hrun⟩
  have hserved : Served env db := (Served.of_fresh fresh_empty).push hpush (pack_typed.typedFor _)
    (pack_fewParents.keepsAll rfl)
  have htag : env.objectAt db tagId = some (.tag, tagBody) := by
    rw [← read_tag]
    exact hpush.objectAt_of_fresh fresh_empty (hpush.tips (by simp [Promote.tipsOf]))
  have htree : env.objectAt db Sample.emptyTreeId = some (.tree, []) := by
    rw [← read_tree]
    exact hpush.objectAt_of_fresh fresh_empty (hserved.closed tagId _ ((child_tag htag parse_tag).2 rfl))
  refine ⟨db, ⟨hpush, pack_typed, pack_fewParents⟩, advertised_of_direct href, fun fuel hfuel => ?_⟩
  exact UploadPack.run_planPack_unsupported hserved.indexed (.tag htag parse_tag (.target htree (by decide)))
    (by simp) htree (.inl rfl) [] .none false (by simp only [List.length_singleton]; omega)

end Miscreant
