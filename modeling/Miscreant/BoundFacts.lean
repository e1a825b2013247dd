/-
What is left on the frontier when discovery ends, and what a client is told
of it.

Generations that are wrong only make the server send more
(`selectCommits_overServes`): `Discovery.Inv` asks nothing of them. With
right ones, the frontier runs dry only below a root that has been sent
(`Discovery.Bounded`), so a negotiation round says `ready` exactly when the
haves cut off every history that is sent.
-/
import Miscreant.NegotiateFacts
import Miscreant.PromoteFacts

namespace Miscreant

open Lib Walker

variable {info : Info} {wants haves level : List ObjectId} {s s' : Select}

/-! ## The frontier -/

/-- A commit without parents. -/
def Info.Root (info : Info) (x : ObjectId) : Prop := ∃ r, info x = some r ∧ r.parents = []

/-- Something is queued, unless a root has been sent or nothing was there to
start from. -/
def Discovery.Bounded (info : Info) (wants haves : List ObjectId) (s : Select) : Prop :=
  (∃ e, e ∈ s.discovery.frontier) ∨ (∃ x ∈ s.toSend, info.Root x) ∨ wants = [] ∧ haves = []

theorem Discovery.Bounded.start (hgen : info.Graded) (h : Discovery.Turn info wants haves s) (hdone : s.done = ∅) :
    Discovery.Bounded info wants haves s := by
  have hqueued : ∀ x, (s.discovery.state.get x).isSome → ∃ e, e ∈ s.discovery.frontier := by
    intro x hx
    rcases h.inv.queued x hx (by simp [hdone]) with ⟨e, he, -⟩ | hlevel
    · exact ⟨e, he⟩
    · cases hlevel
  obtain ⟨g, hl⟩ := h.levelled hgen
  cases hw : wants with
  | cons w ws => exact .inl (hqueued w (h.covered.starts w (by simp [hw])))
  | nil =>
    cases hh : haves with
    | cons x xs => exact .inl (hqueued x (by simp [hl.starts x (by simp [hh])]))
    | nil => exact .inr (.inr ⟨rfl, rfl⟩)

/-- What the visits of a level at `g` leave behind. -/
structure Discovery.Left (info : Info) (haves : List ObjectId) (g : Nat) (s₀ : Select) (level : List ObjectId)
    (s : Select) : Prop where
  levelled : Discovery.Levelled info haves g level s
  done : ∀ x ∈ s.done, x ∈ s₀.done ∨ info.gen x = g
  marked : ∀ x, (s₀.discovery.state.get x).isSome → (s.discovery.state.get x).isSome

theorem Discovery.Left.visit {g : Nat} {s₀ : Select} {id : ObjectId} {flag : Flag} {d : Discovery}
    {r : CommitGraphRecord} (hgen : info.Graded) (hinv : Discovery.Inv info wants haves (id :: level) s)
    (h : Discovery.Left info haves g s₀ (id :: level) s) (hf : s.discovery.state.get id = some flag)
    (hr : info id = some r) (hm : Discovery.Marked flag r.parents (s.enter id flag).discovery d) :
    Discovery.Left info haves g s₀ level { s.enter id flag with discovery := d } where
  levelled := h.levelled.visit hgen hinv hf hr hm
  done := by
    intro x hx
    simp only [enter_done, Finset.mem_insert] at hx
    rcases hx with rfl | hx
    · exact .inr (h.levelled.levelGen x (by simp))
    · exact h.done x hx
  marked := fun x hx => hm.marked x (.inl (by simpa using h.marked x hx))

/-- A turn that empties the frontier has sent a root: what was pending has
been visited, and its parents would be queued. -/
theorem Discovery.Turned.bounded (hgen : info.Graded) (h : Discovery.Turn info wants haves s)
    (ht : Discovery.Turned info s s') : Discovery.Bounded info wants haves s' := by
  have hturn := (ht.turn h).1
  obtain ⟨hpending, records, top, htop, hcached, hmore, hparents, hvisit⟩ := ht
  obtain ⟨g₀, hl₀⟩ := h.levelled hgen
  have hinv := h.inv.drain top hcached hmore
  have hl := @Discovery.Levelled.drain info wants haves s records top g₀ h.inv hl₀ htop
  have hleft : Discovery.Left info haves top.generation.toNat s
      (levelOf s.done ∅ (drain s.discovery.frontier top).1) (s.drained records top) :=
    ⟨hl, fun x hx => .inl hx, fun x hx => hx⟩
  obtain ⟨s₁, hs₁, hinv', hleft', -⟩ := visitAll_spec
    (fun hinv hP hf hr hm => Discovery.Left.visit hgen hinv hP hf hr hm) _ hinv hleft
    (nodup_levelOf _ _ _) (fun x hx => (mem_levelOf.1 hx).2.1) hparents
  cases hvisit.symm.trans hs₁
  by_cases hfrontier : ∃ e, e ∈ s'.discovery.frontier
  · exact .inl hfrontier
  refine .inr (.inl ?_)
  have hdone : ∀ x, (s'.discovery.state.get x).isSome → x ∈ s'.done := by
    intro x hx
    by_contra hd
    rcases hinv'.queued x hx hd with ⟨e, he, -⟩ | hlevel
    · exact hfrontier ⟨e, he⟩
    · cases hlevel
  obtain ⟨z, hz⟩ := Finset.nonempty_of_ne_empty hpending
  obtain ⟨hwant, hnew⟩ := (h.inv.pending z).1 hz
  have hzdone := hdone z (hleft'.marked z (by rw [hwant]; rfl))
  have hzgen : info.gen z = top.generation.toNat := (hleft'.done z hzdone).resolve_left hnew
  have hsent : z ∈ s'.toSend := by
    refine (hinv'.doneSent z hzdone).resolve_right fun hhave => ?_
    have hstate := Discovery.Levelled.have_of_below hgen hinv hl (hinv'.have z hhave) hzgen.ge
    cases hwant.symm.trans hstate
  obtain ⟨r, hr⟩ := Option.isSome_iff_exists.1 (h.inv.markedCached z (by rw [hwant]; rfl))
  have hi := h.inv.cached z r hr
  refine ⟨z, hsent, r, hi, List.eq_nil_iff_forall_not_mem.2 fun y hy => ?_⟩
  have hpar : info.Parent z y := ⟨r, hi, hy⟩
  have hydone := hdone y (hturn.covered.parents z hsent y hpar)
  have hge := hleft'.levelled.doneGen y hydone
  have hlt := hgen z y hpar
  omega

/-- Nothing is below a root that has been sent. -/
theorem Discovery.Turn.frontier_of_root (hgen : info.Graded) (hpos : ∀ x r, info x = some r → 0 < r.generation.toNat)
    (h : Discovery.Turn info wants haves s) {x : ObjectId} (hx : x ∈ s.toSend) (hone : info.gen x = 1) :
    ¬ ∃ e, e ∈ s.discovery.frontier := by
  rintro ⟨e, he⟩
  obtain ⟨g, hl⟩ := h.levelled hgen
  obtain ⟨-, r, hr, hrgen⟩ := h.inv.frontier e he
  have hlt := hl.frontier e he
  have hge := hl.doneGen x (h.inv.sent x hx).1
  have hgen := hpos e.oid r hr
  rw [h.inv.gen_eq he, ← hrgen] at hlt
  omega

theorem Discovery.Turn.frontier_of_nil (h : Discovery.Turn info [] [] s) : ¬ ∃ e, e ∈ s.discovery.frontier := by
  rintro ⟨e, he⟩
  obtain ⟨flag, hflag⟩ := Option.isSome_iff_exists.1 (h.inv.frontier e he).1
  cases flag with
  | Want =>
    obtain ⟨_, hw, -⟩ := h.inv.want _ hflag
    cases hw
  | Have =>
    obtain ⟨_, hw, -⟩ := h.inv.have _ hflag
    cases hw

/-! ## Selections -/

section Runs

variable {E : Env} {db : E.Db}

/-- A commit without parents. -/
def Env.RootCommit (E : Env) (db : E.Db) (x : ObjectId) : Prop :=
  ∃ commit, E.commitAt db x = some commit ∧ commit.parents = []

/-- A path along parents that goes on as long as there is one. -/
def Env.MaximalPath (E : Env) (db : E.Db) (path : List ObjectId) : Prop :=
  path.IsChain (E.Parent db) ∧ ∀ x ∈ path.getLast?, ∀ y, ¬ E.Parent db x y

/-- `x` is a recognized have or an ancestor of one. -/
def Env.BelowHaves (E : Env) (db : E.Db) (haves : List ObjectId) (x : ObjectId) : Prop :=
  ∃ h ∈ haves, (E.commitAt db h).isSome ∧ E.Ancestor db x h

/-- Corrupt generations only make `select_commits` send more. Whatever the
records say of them, discovery ends with an answer; what it sends is reached
by the wants, each once, and all that they reach and no have does is there. -/
theorem selectCommits_overServes {E : Env} {db : E.Db} (hdb : Indexed E db) {wants : List ObjectId}
    {chains : List TagChain} (hw : List.Forall₂ (E.PeelsToCommit db) wants chains) (haves : List ObjectId) :
    ∃ N, ∀ fuel ≥ N, ∃ commits common boundedByHaves,
      E.run (selectCommits E fuel wants haves) db = some (.ok
        { toSend := commits ++ (chains.flatMap (·.tags)).eraseDups, common, boundedByHaves }, db) ∧
      commits.Nodup ∧
      (∀ c, (∃ chain ∈ chains, E.Ancestor db c chain.target) → ¬ E.BelowHaves db haves c → c ∈ commits) ∧
      ∀ c ∈ commits, ∃ chain ∈ chains, E.Ancestor db c chain.target := by
  obtain ⟨N, hN⟩ := hdb.run_selectCommits haves hw
  refine ⟨N, fun fuel hfuel => ?_⟩
  obtain ⟨s, hs, hturn, hp⟩ := hN fuel hfuel
  refine ⟨s.toSend, _, _, hs, hturn.inv.nodup, fun c hc hnot => ?_, fun c hc => ?_⟩
  · have hbelow := hturn.inv.complete hturn.covered hp (hdb.below_targets.2 hc)
    exact hbelow.resolve_right fun hb => hnot (hdb.below_commitsOf.1 hb)
  · exact hdb.below_targets.1 (hturn.inv.sent c hc).2

theorem pos_of_generations (hgen : Generations E db) : ∀ x r, E.infoAt db x = some r → 0 < r.generation.toNat := by
  intro x r hr
  have hx := hgen x r hr
  omega

variable (hdb : Indexed E db) (hgen : Generations E db) {wants haves : List ObjectId} {chains : List TagChain}

include hdb

theorem Indexed.root_iff {x : ObjectId} : (E.infoAt db).Root x ↔ E.RootCommit db x := by
  constructor
  · rintro ⟨r, hr, hnil⟩
    obtain ⟨commit, hc, -, hp⟩ := hdb.commit_of_infoAt hr
    exact ⟨commit, hc, hp ▸ hnil⟩
  · rintro ⟨commit, hc, hnil⟩
    obtain ⟨r, hr, -, hp⟩ := hdb.infoAt_of_commit hc
    exact ⟨r, hr, hp ▸ hnil⟩

include hgen

theorem Indexed.gen_root {x : ObjectId} (h : E.RootCommit db x) : (E.infoAt db).gen x = 1 := by
  obtain ⟨r, hr, hnil⟩ := hdb.root_iff.2 h
  have hx := hgen x r hr
  rw [hnil] at hx
  simpa [Info.gen, hr] using hx

/-- Discovery ends with the frontier empty just when it has sent a root, or
was asked for nothing. -/
theorem Indexed.run_selectCommits_bounded (haves : List ObjectId) (hw : List.Forall₂ (E.PeelsToCommit db) wants chains) :
    ∃ N, ∀ fuel ≥ N, ∃ commits boundedByHaves,
      (selectCommits E fuel wants haves).run Db.handler db = some (.ok
        { toSend := commits ++ (chains.flatMap (·.tags)).eraseDups
          common := E.commitsOf db haves
          boundedByHaves }, db) ∧
      (∀ c, c ∈ commits ↔ (∃ chain ∈ chains, E.Ancestor db c chain.target) ∧ ¬ E.BelowHaves db haves c) ∧
      (boundedByHaves = false ↔
        (∃ c ∈ commits, E.RootCommit db c) ∨ wants = [] ∧ ∀ h ∈ haves, E.commitAt db h = none) := by
  have hgraded := graded_of_generations hgen
  obtain ⟨N, hN⟩ := @Indexed.run_selectCommits_of E db hdb haves wants chains hw
    (Discovery.Bounded (E.infoAt db) (chains.map (·.target)) (E.commitsOf db haves))
    (fun s hs hdone => .start hgraded hs hdone) (fun s s' hs _ hturned => hturned.bounded hgraded hs)
  refine ⟨N, fun fuel hfuel => ?_⟩
  obtain ⟨s, hs, ⟨hturn, hbounded⟩, hp⟩ := hN fuel hfuel
  have hwants : chains.map (·.target) = [] ↔ wants = [] := by
    cases hw with
    | nil => simp
    | cons => simp
  have hhaves : E.commitsOf db haves = [] ↔ ∀ h ∈ haves, E.commitAt db h = none := by
    simp [List.eq_nil_iff_forall_not_mem, mem_commitsOf]
  have hpeek : s.discovery.frontier.peek.isSome = false ↔ ¬ ∃ e, e ∈ s.discovery.frontier := by
    rw [MaxHeap.peek]
    cases hl : s.discovery.frontier.entries with
    | nil => simp [MaxHeap.mem_iff, hl]
    | cons e l => simpa using ⟨e, by simp [MaxHeap.mem_iff, hl]⟩
  refine ⟨s.toSend, _, hs, fun c => ?_, ?_⟩
  · rw [hturn.mem_toSend hgraded hp, hdb.below_commitsOf, hdb.below_targets]
    rfl
  · rw [hpeek, ← hwants, ← hhaves]
    constructor
    · intro hempty
      rcases hbounded.resolve_left hempty with ⟨x, hx, hroot⟩ | hnil
      · exact .inl ⟨x, hx, hdb.root_iff.1 hroot⟩
      · exact .inr hnil
    · rintro (⟨x, hx, hroot⟩ | ⟨hnil, hnone⟩)
      · exact hturn.frontier_of_root hgraded (pos_of_generations hgen) hx (hdb.gen_root hgen hroot)
      · rw [hnil, hnone] at hturn
        exact hturn.frontier_of_nil

omit hdb hgen in
/-- The haves cut off every history that is sent just when no root is. -/
theorem cutOff_iff {commits : List ObjectId}
    (hcommits : ∀ c, c ∈ commits ↔ (∃ chain ∈ chains, E.Ancestor db c chain.target) ∧ ¬ E.BelowHaves db haves c)
    (hisCommit : ∀ c ∈ commits, (E.commitAt db c).isSome) :
    (∀ c ∈ commits, ∀ path, E.MaximalPath db (c :: path) → ∃ x ∈ c :: path, E.BelowHaves db haves x) ↔
      ¬ ∃ c ∈ commits, E.RootCommit db c := by
  constructor
  · rintro hcut ⟨c, hc, commit, hcommit, hnil⟩
    have hend : E.MaximalPath db [c] := by
      refine ⟨.singleton c, ?_⟩
      rintro x ⟨⟩ y ⟨commit', hcommit', hy⟩
      cases hcommit.symm.trans hcommit'
      rw [hnil] at hy
      cases hy
    obtain ⟨x, hx, hbelow⟩ := hcut c hc [] hend
    rw [List.mem_singleton.1 hx] at hbelow
    exact ((hcommits c).1 hc).2 hbelow
  · intro hroot c hc path
    -- Along the path: the next commit is below a have, or is sent as well.
    induction path generalizing c with
    | nil =>
      rintro ⟨-, hlast⟩
      obtain ⟨commit, hcommit⟩ := Option.isSome_iff_exists.1 (hisCommit c hc)
      refine absurd ⟨c, hc, commit, hcommit, List.eq_nil_iff_forall_not_mem.2 fun y hy => ?_⟩ hroot
      exact hlast c rfl y ⟨commit, hcommit, hy⟩
    | cons p path ih =>
      rintro ⟨hchain, hlast⟩
      obtain ⟨hpar, hrest⟩ := List.isChain_cons_cons.1 hchain
      by_cases hp : E.BelowHaves db haves p
      · exact ⟨p, by simp, hp⟩
      · obtain ⟨⟨chain, hmem, ha⟩, -⟩ := (hcommits c).1 hc
        obtain ⟨x, hx, hbelow⟩ := ih p ((hcommits p).2 ⟨⟨chain, hmem, ha.tail hpar⟩, hp⟩) ⟨hrest, hlast⟩
        exact ⟨x, List.mem_cons_of_mem c hx, hbelow⟩

end Runs

namespace Merge

open Sample

/-- The root's generation is above that of the commit between it and the
merge. -/
def misgraph : List (ObjectId × CommitGraphRecord) :=
  [(rootId, ⟨8, emptyTreeId, []⟩), (tipId, ⟨1, treeId, [rootId]⟩), (mergeId, ⟨9, treeId, [tipId, rootId]⟩)]

def misnumbered : env.Db := env.storeOf (held ++ objects) misgraph

theorem indexed_misnumbered : Indexed env misnumbered := indexed_storeOf (by decide +kernel) (by decide +kernel)

theorem peels_merge : env.PeelsToCommit misnumbered mergeId ⟨[], mergeId⟩ := by
  have hobj : env.objectAt misnumbered mergeId = some (.commit, mergeBody) := by
    rw [misnumbered, objectAt_storeOf]
    rfl
  exact ⟨.target hobj (by decide), indexed_misnumbered.onlyCommits mergeId (by decide +kernel)⟩

/-- No commit has the merge as a parent. -/
theorem not_below_merge : ¬ env.BelowHaves misnumbered [tipId] mergeId := by
  have hparents : (misgraph.all fun e => ((env.graphAt misnumbered e.1).toOption.bind id).all fun r =>
      mergeId ∉ r.parents) = true := by decide +kernel
  rintro ⟨h, hh, -, ha⟩
  rcases Relation.ReflTransGen.cases_tail ha with heq | ⟨x, -, commit, hcommit, hmem⟩
  · rw [List.mem_singleton.1 hh] at heq
    exact absurd heq (by decide)
  · obtain ⟨r, hr, -, hagree⟩ := indexed_misnumbered.record x commit hcommit
    obtain ⟨r', hx⟩ := mem_of_graph (indexed_misnumbered.allRecorded x (by rw [hcommit]; rfl))
    have hnot := List.all_eq_true.1 hparents _ hx
    simp only [hr, Except.toOption, Option.bind_some, id_eq, Option.all_some, decide_eq_true_eq] at hnot
    exact hnot (hagree ▸ hmem)

end Merge

open Merge in
/-- Wrong generations make the root be sent too, which the have reaches. -/
theorem selectCommits_overServes_sample :
    (∃ N, ∀ fuel ≥ N, ∃ commits common boundedByHaves,
      env.run (selectCommits env fuel [mergeId] [Sample.tipId]) misnumbered =
          some (.ok { toSend := commits, common, boundedByHaves }, misnumbered) ∧
        mergeId ∈ commits ∧ ∀ c ∈ commits, env.Ancestor misnumbered c mergeId) ∧
      ((env.run (selectCommits env 20 [mergeId] [Sample.tipId]) misnumbered).map fun x =>
        x.1.toOption.map fun selection => (selection.toSend, selection.common)) =
          some (some ([mergeId, Sample.rootId], [Sample.tipId])) := by
  refine ⟨?_, by decide +kernel⟩
  obtain ⟨N, hN⟩ := selectCommits_overServes indexed_misnumbered (.cons peels_merge .nil) [Sample.tipId]
  refine ⟨N, fun fuel hfuel => ?_⟩
  obtain ⟨commits, common, bounded, hrun, -, hall, hreached⟩ := hN fuel hfuel
  rw [show (([⟨[], mergeId⟩] : List TagChain).flatMap (·.tags)).eraseDups = [] from rfl, List.append_nil] at hrun
  refine ⟨commits, common, bounded, hrun, hall _ ⟨_, List.mem_singleton_self _, .refl⟩ not_below_merge, fun c hc => ?_⟩
  obtain ⟨chain, hchain, ha⟩ := hreached c hc
  rwa [List.mem_singleton.1 hchain] at ha

section Ready

variable {E : Env} {db : E.Db}

theorem commitAt_of_sent (hdb : Indexed E db) {wants : List ObjectId} {chains : List TagChain}
    (hw : List.Forall₂ (E.PeelsToCommit db) wants chains) {c : ObjectId}
    (hc : ∃ chain ∈ chains, E.Ancestor db c chain.target) : (E.commitAt db c).isSome := by
  obtain ⟨chain, hmem, ha⟩ := hc
  exact commitAt_of_ancestor hdb (commit_of_chain hw chain hmem) ha

/-- The tags after the commits are no commits. -/
theorem sent_iff {wants commits : List ObjectId} {chains : List TagChain}
    (hw : List.Forall₂ (E.PeelsToCommit db) wants chains) (hisCommit : ∀ c ∈ commits, (E.commitAt db c).isSome)
    (c : ObjectId) : c ∈ commits ++ (chains.flatMap (·.tags)).eraseDups ∧ (E.commitAt db c).isSome ↔ c ∈ commits := by
  constructor
  · rintro ⟨hc, hsome⟩
    rcases List.mem_append.1 hc with hc | hc
    · exact hc
    · obtain ⟨chain, hmem, ht⟩ := List.mem_flatMap.1 (List.mem_eraseDups.1 hc)
      obtain ⟨w, -, hpeels⟩ := (mem_chains hw).1 hmem
      obtain ⟨commit, hcommit⟩ := Option.isSome_iff_exists.1 hsome
      exact absurd hcommit (hpeels.1.tags_not_commit c ht)
  · intro hc
    exact ⟨List.mem_append_left _ hc, hisCommit c hc⟩

theorem commitsOf_ne_nil {haves : List ObjectId} :
    E.commitsOf db haves ≠ [] ↔ ∃ h ∈ haves, (E.commitAt db h).isSome := by
  rw [Ne, List.eq_nil_iff_forall_not_mem, not_forall]
  exact exists_congr fun h => by rw [not_not, mem_commitsOf]

end Ready

open UploadPackV0 in
/-- What the client is told of the frontier. `boundedByHaves` is false just
when a root is sent, or there are no wants and no haves that are known; and a
negotiation round is `ready` just when a have is known and every path of
parents from a commit sent comes, before it ends, to what the haves reach. -/
theorem readySignal_exact {E : Env} {db : E.Db} (hdb : Indexed E db) (hgen : Generations E db) :
    (∀ (wants : List ObjectId) (chains : List TagChain) (haves : List ObjectId),
      List.Forall₂ (E.PeelsToCommit db) wants chains → ∃ N, ∀ fuel ≥ N, ∃ selection,
        E.run (selectCommits E fuel wants haves) db = some (.ok selection, db) ∧
        (selection.boundedByHaves = false ↔
          (∃ c ∈ selection.toSend, E.RootCommit db c) ∨ wants = [] ∧ ∀ h ∈ haves, E.commitAt db h = none)) ∧
    ∀ request : Request, (∀ w ∈ request.wants, E.Fetchable db w) → ∃ N, ∀ fuel ≥ N, ∃ partition selection ready,
      E.run (partitionWants E request.wants) db = some (.ok partition, db) ∧
      E.run (selectCommits E fuel partition.history request.haves) db = some (.ok selection, db) ∧
      E.run (discover E fuel request) db = some (.ok (selection.common, ready), db) ∧
      E.run (negotiate E fuel request) db =
        some ((ackNegotiationBlock selection.common ready request.multiAckDetailed).mapError .io, db) ∧
      (ready = true ↔ (∃ h ∈ request.haves, (E.commitAt db h).isSome) ∧
        ∀ c ∈ selection.toSend, (E.commitAt db c).isSome → ∀ path, E.MaximalPath db (c :: path) →
          ∃ x ∈ c :: path, E.BelowHaves db request.haves x) := by
  constructor
  · intro wants chains haves hw
    obtain ⟨N, hN⟩ := hdb.run_selectCommits_bounded hgen haves hw
    refine ⟨N, fun fuel hfuel => ?_⟩
    obtain ⟨commits, bounded, hrun, hcommits, hbounded⟩ := hN fuel hfuel
    refine ⟨_, hrun, hbounded.trans (or_congr_left ?_)⟩
    have hisCommit : ∀ c ∈ commits, (E.commitAt db c).isSome := fun c hc =>
      commitAt_of_sent hdb hw ((hcommits c).1 hc).1
    constructor
    · rintro ⟨c, hc, hroot⟩
      exact ⟨c, List.mem_append_left _ hc, hroot⟩
    · rintro ⟨c, hc, commit, hcommit, hnil⟩
      exact ⟨c, (sent_iff hw hisCommit c).1 ⟨hc, by rw [hcommit]; rfl⟩, commit, hcommit, hnil⟩
  · intro request hrequest
    have hobj : ∀ w ∈ request.wants, (E.objectAt db w).isSome := fun w hw => UploadPack.objectAt_of_fetchable (hrequest w hw)
    obtain ⟨chains, hw⟩ := exists_chains (UploadPack.exists_chain_of_fetchable hrequest)
    obtain ⟨N, hN⟩ := hdb.run_selectCommits_bounded hgen request.haves hw
    refine ⟨N, fun fuel hfuel => ?_⟩
    obtain ⟨commits, bounded, hrun, hcommits, hbounded⟩ := hN fuel hfuel
    have hpart := run_partitionWants hdb.toIntact hobj
    have hisCommit : ∀ c ∈ commits, (E.commitAt db c).isSome := fun c hc =>
      commitAt_of_sent hdb hw ((hcommits c).1 hc).1
    refine ⟨_, _, !(E.commitsOf db request.haves).isEmpty && bounded, hpart, hrun, ?_, ?_, ?_⟩
    · refine (Prog.run_bind_ok (Prog.run_mapErr_ok hpart)).trans ((Prog.run_bind_ok (Prog.run_mapErr_ok hrun)).trans ?_)
      rfl
    · refine (Prog.run_bind_ok (Prog.run_mapErr_ok hpart)).trans ((Prog.run_bind_ok (Prog.run_mapErr_ok hrun)).trans ?_)
      exact Prog.run_ofExcept ..
    · rw [Bool.and_eq_true, Bool.not_eq_true', List.isEmpty_eq_false_iff, commitsOf_ne_nil]
      refine and_congr_right fun hknown => ?_
      have hroot : bounded = true ↔ ¬ ∃ c ∈ commits, E.RootCommit db c := by
        rw [← Bool.not_eq_false, hbounded]
        refine not_congr (or_iff_left fun hnone => ?_)
        obtain ⟨h, hh, hc⟩ := hknown
        rw [hnone.2 h hh] at hc
        cases hc
      rw [hroot, ← cutOff_iff hcommits hisCommit]
      constructor
      · intro hcut c hc hcommit
        exact hcut c ((sent_iff hw hisCommit c).1 ⟨hc, hcommit⟩)
      · intro hcut c hc
        obtain ⟨hc, hcommit⟩ := (sent_iff hw hisCommit c).2 hc
        exact hcut c hc hcommit

open UploadPackV0 Sample in
/-- Fetching the tip while having its parent. -/
theorem readySignal_exact_sample : ∃ N, ∀ fuel ≥ N, ∃ (selection : Selection) (ready : Bool),
    env.run (discover env fuel fetchTip) Sample.db = some (.ok (selection.common, ready), Sample.db) ∧
      (ready = true ↔ (∃ h ∈ [rootId], (env.commitAt Sample.db h).isSome) ∧
        ∀ c ∈ selection.toSend, (env.commitAt Sample.db c).isSome → ∀ path, env.MaximalPath Sample.db (c :: path) →
          ∃ x ∈ c :: path, env.BelowHaves Sample.db [rootId] x) := by
  have hfetchable : ∀ w ∈ fetchTip.wants, env.Fetchable Sample.db w := by
    intro w hw
    obtain rfl := List.mem_singleton.1 hw
    exact .inr ⟨⟨[], tipId⟩, .target objectAt_tip (by decide), by rw [commitAt_tip]; rfl⟩
  obtain ⟨N, hN⟩ := (readySignal_exact Sample.indexed Sample.generations).2 fetchTip hfetchable
  refine ⟨N, fun fuel hfuel => ?_⟩
  obtain ⟨_, selection, ready, -, -, hdiscover, -, hready⟩ := hN fuel hfuel
  exact ⟨selection, ready, hdiscover, hready⟩

end Miscreant
