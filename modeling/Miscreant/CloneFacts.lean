/-
A fetch leaves the client complete.

A client that has what its haves reach has, after a fetch without a filter,
what its wants reach, as the server has it (`fetch_completes`). Nothing is
asked of the generations in the commit-graph: wrong ones send more
(`Discovery.Inv.complete`), never less.
-/
import Miscreant.FetchResponseFacts
import Miscreant.FetchFacts
import Miscreant.NegotiateFacts

namespace Miscreant

open Lib

open Walker (Sendable)

variable {E : Env} {db : E.Db}

/-- A plan sends what the wants need beyond the haves, and nothing the wants
do not reach. -/
structure Covers (E : Env) (db : E.Db) (wants haves : List ObjectId) (plan : PackPlan) : Prop where
  history : ∀ w ∈ wants, Sendable E db w → ∀ y, E.Reaches db w y →
    y ∈ plan.objects.map (·.oid) ∨ ∃ h ∈ haves, (E.commitAt db h).isSome ∧ E.Reaches db h y
  direct : ∀ w ∈ wants, E.IsDirect db w → w ∈ plan.objects.map (·.oid)
  needed : ∀ y ∈ plan.objects.map (·.oid), ∃ w ∈ wants, E.Reaches db w y

/-- With the pack, a client has what a want reaches. -/
theorem Covers.sends {wants haves : List ObjectId} {plan : PackPlan} (h : Covers E db wants haves plan)
    {client : Set ObjectId}
    (hclient : ∀ c ∈ haves, (E.commitAt db c).isSome → ∀ y, E.Reaches db c y → y ∈ client)
    {w : ObjectId} (hwants : w ∈ wants) (hs : Sendable E db w) (y : ObjectId) (hy : E.Reaches db w y) :
    y ∈ client ∨ y ∈ plan.objects.map (·.oid) := by
  rcases h.history w hwants hs y hy with hsent | ⟨c, hmem, hc, hr⟩
  · exact .inr hsent
  · exact .inl (hclient c hmem hc y hr)

section Covers

variable (hdb : Indexed E db) (ht : TreesTyped E db) {wants : List ObjectId}

include hdb ht

/-- What a commit has in its tree, it reaches. -/
theorem reaches_of_tree {a y : ObjectId} {commit : CommitRef} {c : ObjectId} (hc : (E.commitAt db c).isSome)
    (ha : E.Ancestor db a c) (hcommit : E.commitAt db a = some commit) (hy : E.InTree db commit.tree y) :
    E.Reaches db c y :=
  (reaches_commit hdb ht hc).2 ⟨a, commit, ha, hcommit, .inr hy⟩

/-- Planning without a filter. -/
theorem planPack_covers (hw : ∀ w ∈ wants, E.Fetchable db w) (haves : List ObjectId) (ofsDeltas : Bool) :
    ∃ N, ∀ fuel ≥ N, ∃ plan,
      (UploadPack.planPack E fuel wants haves .none ofsDeltas).run Db.handler db = some (.ok plan, db) ∧
      (∀ object ∈ plan.objects, (E.objectAt db object.oid).isSome) ∧ Covers E db wants haves plan := by
  have hobj := fun w hwants => UploadPack.objectAt_of_fetchable (hw w hwants)
  by_cases hsome : ∃ w ∈ wants, Sendable E db w
  · obtain ⟨chains, hchains, N, hN⟩ := UploadPack.run_planPack_history hdb ht hw hsome haves .none ofsDeltas
    refine ⟨N, fun fuel hfuel => ?_⟩
    obtain ⟨plan, s, haveObjects, hrun, hturn, hpend, -, hset, -, hmem⟩ := hN fuel hfuel
    have hchain := fun chain => @mem_wantChains E db wants chains hobj hchains chain
    have hneeded : ∀ y ∈ plan.objects.map (·.oid), ∃ w ∈ wants, E.Reaches db w y := by
      have hbelow : ∀ c, c ∈ s.toSend ++ (chains.flatMap (·.tags)).eraseDups → ∃ w ∈ wants, E.Reaches db w c := by
        intro c hc
        rcases List.mem_append.1 hc with hc | hc
        · obtain ⟨chain, hmemChain, ha⟩ := hdb.below_targets.1 (hturn.inv.sent c hc).2
          obtain ⟨w, hwants, hpeel⟩ := (hchain chain).1 hmemChain
          obtain ⟨commit, hcommit⟩ := Option.isSome_iff_exists.1 (commitAt_of_ancestor hdb hpeel.2 ha)
          exact ⟨w, hwants, (reaches_chain hpeel.1).2
            (.inr ((reaches_commit hdb ht hpeel.2).2 ⟨c, commit, ha, hcommit, .inl rfl⟩))⟩
        · obtain ⟨chain, hmemChain, htag⟩ := List.mem_flatMap.1 (List.mem_eraseDups.1 hc)
          obtain ⟨w, hwants, hpeel⟩ := (hchain chain).1 hmemChain
          exact ⟨w, hwants, (reaches_chain hpeel.1).2 (.inl htag)⟩
      intro y hy
      rcases (hmem y).1 hy with hsent | ⟨htree, -⟩ | hdirect
      · exact hbelow y hsent
      · obtain ⟨c, hc, hin⟩ := inTree_rootTrees.1 htree
        obtain ⟨w, hwants, hr⟩ := hbelow c hc
        exact ⟨w, hwants, hr.trans (hin.reaches hdb ht)⟩
      · exact ⟨y, ((mem_wantsOf hobj).1 hdirect).1, .refl⟩
    refine ⟨plan, hrun, fun object hobject => ?_, ⟨fun w hwants hs y hy => ?_, fun w hwants hdirect => ?_, hneeded⟩⟩
    · exact UploadPack.objectAt_of_listed hdb ht hobj hchains hturn ((hmem object.oid).1 (List.mem_map_of_mem hobject))
    · obtain ⟨chain, hpeel⟩ := (hw w hwants).resolve_left (not_direct_of_sendable hs)
      have hmemChain := (hchain chain).2 ⟨w, hwants, hpeel⟩
      rcases (reaches_chain hpeel.1).1 hy with htag | hy
      · refine .inl ((hmem y).2 (.inl (List.mem_append_right _ ?_)))
        exact List.mem_eraseDups.2 (List.mem_flatMap.2 ⟨chain, hmemChain, htag⟩)
      obtain ⟨a, commit, ha, hcommit, hya⟩ := (reaches_commit hdb ht hpeel.2).1 hy
      rcases hturn.inv.complete hturn.covered hpend (hdb.below_targets.2 ⟨chain, hmemChain, ha⟩) with hsent | hbelow
      · have hplan : a ∈ plan.objects.map (·.oid) := (hmem a).2 (.inl (List.mem_append_left _ hsent))
        rcases hya with rfl | hin
        · exact .inl hplan
        by_cases hhave : y ∈ haveObjects
        · -- The tree of a have has it already.
          obtain ⟨root, hroot, hin'⟩ := hset.sound y hhave
          obtain ⟨h, hh, commit', hcommit', rfl⟩ := Walker.mem_rootTrees.1 hroot
          obtain ⟨hh, hc⟩ := mem_commitsOf.1 hh
          exact .inr ⟨h, hh, hc, reaches_of_tree hdb ht hc .refl hcommit' hin'⟩
        · refine .inl ((hmem y).2 (.inr (.inl ⟨⟨commit.tree, ?_, hin⟩, hhave, fun _ _ => trivial⟩)))
          exact Walker.mem_rootTrees.2 ⟨a, List.mem_append_left _ hsent, commit, hcommit, rfl⟩
      · obtain ⟨h, hh, hc, hah⟩ := hdb.below_commitsOf.1 hbelow
        exact .inr ⟨h, hh, hc, (reaches_commit hdb ht hc).2 ⟨a, commit, hah, hcommit, hya⟩⟩
    · exact (hmem w).2 (.inr (.inr ((mem_wantsOf hobj).2 ⟨hwants, hdirect⟩)))
  · have hnone : ∀ w ∈ wants, ¬ Sendable E db w := fun w hwants hs => hsome ⟨w, hwants, hs⟩
    have hids : ∀ y, y ∈ (UploadPack.plainSchedule (E.wantsOf db .tree .blob wants).eraseDups).map (·.oid) ↔
        y ∈ wants ∧ E.IsDirect db y := by
      intro y
      rw [UploadPack.map_oid_plainSchedule, List.mem_eraseDups]
      exact mem_wantsOf hobj
    refine ⟨0, fun fuel _ => ⟨_, UploadPack.run_planPack_direct hdb hw hnone fuel haves .none ofsDeltas,
      fun object hobject => ?_, ⟨fun w hwants hs => absurd hs (hnone w hwants),
      fun w hwants hdirect => (hids w).2 ⟨hwants, hdirect⟩, fun y hy => ⟨y, ((hids y).1 hy).1, .refl⟩⟩⟩⟩
    exact hobj _ ((hids _).1 (List.mem_map_of_mem hobject)).1

end Covers

/-- A fetch leaves the client complete. Where commits are indexed, by whatever
generations, and trees are typed, a client that has what its haves reach, and
asks without a filter, reads from the response objects as the store has them,
each one reached from a want; with them it has what every commit and tag it
wants reaches, and the trees and blobs it asked for. -/
theorem fetch_completes {ε : Type} (hdb : Indexed E db) (ht : TreesTyped E db) (G : UploadPack.PackBytes)
    (objectHash : HashKind) {args : List String} {parsed : UploadPack.FetchArgs}
    (hargs : UploadPack.FetchArgs.parse args = .ok parsed) (hne : parsed.wants ≠ [])
    (hw : ∀ w ∈ parsed.wants, E.Fetchable db w) (hfilter : parsed.filter = .none) {client : Set ObjectId}
    (hclient : ∀ h ∈ parsed.haves, (E.commitAt db h).isSome → ∀ y, E.Reaches db h y → y ∈ client) :
    ∃ N, ∀ fuel ≥ N, ∃ plan,
      E.run (UploadPack.planPack E fuel parsed.wants parsed.haves .none parsed.ofsDelta) db = some (.ok plan, db) ∧
      (∀ w ∈ parsed.wants, Sendable E db w → ∀ y, E.Reaches db w y → y ∈ client ∨ y ∈ plan.objects.map (·.oid)) ∧
      (∀ w ∈ parsed.wants, E.IsDirect db w → w ∈ plan.objects.map (·.oid)) ∧
      (∀ y ∈ plan.objects.map (·.oid), ∃ w ∈ parsed.wants, E.Reaches db w y) ∧
      (plan.objects.length < 2 ^ 32 → ∃ response,
        E.run (UploadPack.fetch E G fuel objectHash args : E.Prog ε _) db = some (.ok response, db) ∧
        UploadPack.Delivers E db G objectHash parsed plan response) := by
  obtain ⟨N, hN⟩ := planPack_covers hdb ht hw parsed.haves parsed.ofsDelta
  refine ⟨N, fun fuel hfuel => ?_⟩
  obtain ⟨plan, hplan, hobjects, hcovers⟩ := hN fuel hfuel
  refine ⟨plan, hplan, fun w hwants hs => hcovers.sends hclient hwants hs, hcovers.direct, hcovers.needed, fun hlen => ?_⟩
  rw [← hfilter] at hplan
  exact @UploadPack.run_fetch E db db ε hdb.toIntact G objectHash fuel args parsed hargs hne plan hplan hlen hobjects

open Sample UploadPack in
/-- A client that has its root has, with what it reads, what the tag
reaches. -/
theorem fetch_completes_sample : ∃ N, ∀ fuel ≥ N, ∃ plan response,
    env.run (planPack env fuel [tagId] [rootId] .none true) Sample.db = some (.ok plan, Sample.db) ∧
      (∀ y, env.Reaches Sample.db tagId y → env.Reaches Sample.db rootId y ∨ y ∈ plan.objects.map (·.oid)) ∧
      env.run (fetch env packBytes fuel .sha1 fetchArgs : env.Prog Empty _) Sample.db =
        some (.ok response, Sample.db) ∧
      Delivers env Sample.db packBytes .sha1 ⟨[tagId], [rootId], true, false, true, .none⟩ plan response := by
  obtain ⟨N₁, hN⟩ := @fetch_completes env Sample.db Empty Sample.indexed Sample.typed packBytes .sha1 _ _ parse_fetchArgs
    (by simp) fetchable_tag rfl {y | env.Reaches Sample.db rootId y} (by
      intro h hh _ y hy
      rwa [List.mem_singleton.1 hh] at hy)
  obtain ⟨N₂, hshort⟩ := length_plan_tag
  refine ⟨max N₁ N₂, fun fuel hfuel => ?_⟩
  obtain ⟨plan, hplan, hhistory, -, -, hresponse⟩ := hN fuel (by omega)
  obtain ⟨response, hrun, hdelivers⟩ := hresponse (hshort fuel (by omega) plan _ hplan)
  exact ⟨plan, response, hplan, hhistory tagId (List.mem_singleton_self _) peels_tag.sendable, hrun, hdelivers⟩

/-! ## The classic protocol -/

namespace UploadPackV0

open UploadPack (PackBytes Whole StandsFor)

/-- The client reads, in the response to a `done` round, the last object that
is common, and then the pack, over side bands if it asked for them. -/
def Delivers (E : Env) (db : E.Db) (G : PackBytes) (objectHash : HashKind) (request : FullRequest) (plan : PackPlan)
    (response : ReceivePack.Response) : Prop :=
  response.status = 200 ∧ ∃ rest, response.body = Pktline.line (asBytes (doneLine plan.common)) ++ rest ∧
    (request.sideBand64k = true → ∃ r, (Pktline.readPackets rest).bind Pktline.demux = some r ∧
      Whole E db G objectHash plan.objects request.noProgress r) ∧
    (request.sideBand64k = false → ∃ entries,
      rest = G.pack (UInt32.ofNat plan.objects.length) objectHash entries ∧ StandsFor E db plan.objects entries)

/-- A `done` round whose plan is made. -/
theorem run_uploadPack {ε : Type} (hdb : Intact E db) (G : PackBytes) (objectHash : HashKind) {fuel : Nat} {body : Bytes}
    {request : FullRequest} (hrequest : parseRequest body = .ok request) (hdone : request.done = true)
    (hne : request.wants ≠ []) {plan : PackPlan}
    (hplan : (UploadPack.planPack E fuel request.wants request.haves .none request.ofsDelta).run Db.handler db =
      some (.ok plan, db))
    (hlen : plan.objects.length < 2 ^ 32) (hobjects : ∀ object ∈ plan.objects, (E.objectAt db object.oid).isSome) :
    ∃ response, (uploadPack E G fuel objectHash body : E.Prog ε _).run Db.handler db = some (.ok response, db) ∧
      Delivers E db G objectHash request plan response := by
  have hround : (streamDoneRound E fuel request.toRequest).run Db.handler db =
      some (.ok (plan, Pktline.line (asBytes (doneLine plan.common))), db) := by
    rw [streamDoneRound, Prog.run_bind_ok (Prog.run_mapErr_ok hplan), if_neg (Nat.not_le.2 hlen), ackDoneLine_eq]
    rfl
  have hattempt : ((streamDoneRound E fuel request.toRequest).attempt : E.Prog ε _).run Db.handler db =
      some (.ok (.ok (plan, Pktline.line (asBytes (doneLine plan.common)))), db) := by
    rw [Prog.run_attempt, hround]
    rfl
  rw [uploadPack, hrequest]
  dsimp only
  rw [if_neg (by rwa [List.isEmpty_iff]), if_pos hdone, Prog.run_bind_ok hattempt]
  dsimp only
  cases hband : request.sideBand64k with
  | true =>
    obtain ⟨stream, r, hstream, hfits, hdemux, hwhole⟩ := @UploadPack.run_streamPackResponse E db ε hdb G objectHash
      plan.objects hlen hobjects (Pktline.line (asBytes (doneLine plan.common))) request.noProgress request.ofsDelta
    have hread : (Pktline.readPackets (Pktline.encodeAll stream)).bind Pktline.demux = some r := by
      rw [Pktline.readPackets_encoded hfits, Option.bind_some, hdemux]
    exact ⟨_, hstream, rfl, _, rfl, fun _ => ⟨r, hread, hwhole⟩, fun hno => absurd (hband.symm.trans hno) (by decide)⟩
  | false =>
    obtain ⟨entries, hstream, hstands⟩ := @UploadPack.run_streamPackResponse_raw E db ε hdb G objectHash
      plan.objects hlen hobjects (Pktline.line (asBytes (doneLine plan.common))) request.noProgress request.ofsDelta
    exact ⟨_, hstream, rfl, _, rfl, fun hyes => absurd (hband.symm.trans hyes) (by decide),
      fun _ => ⟨entries, rfl, hstands⟩⟩

/-- The `done` round of the classic protocol leaves the client complete too. -/
theorem done_completes {ε : Type} (hdb : Indexed E db) (ht : TreesTyped E db) (G : PackBytes) (objectHash : HashKind)
    {body : Bytes} {request : FullRequest} (hrequest : parseRequest body = .ok request) (hdone : request.done = true)
    (hne : request.wants ≠ []) (hw : ∀ w ∈ request.wants, E.Fetchable db w) {client : Set ObjectId}
    (hclient : ∀ h ∈ request.haves, (E.commitAt db h).isSome → ∀ y, E.Reaches db h y → y ∈ client) :
    ∃ N, ∀ fuel ≥ N, ∃ plan,
      E.run (UploadPack.planPack E fuel request.wants request.haves .none request.ofsDelta) db = some (.ok plan, db) ∧
      (∀ w ∈ request.wants, Sendable E db w → ∀ y, E.Reaches db w y → y ∈ client ∨ y ∈ plan.objects.map (·.oid)) ∧
      (∀ w ∈ request.wants, E.IsDirect db w → w ∈ plan.objects.map (·.oid)) ∧
      (∀ y ∈ plan.objects.map (·.oid), ∃ w ∈ request.wants, E.Reaches db w y) ∧
      (plan.objects.length < 2 ^ 32 → ∃ response,
        E.run (uploadPack E G fuel objectHash body : E.Prog ε _) db = some (.ok response, db) ∧
        Delivers E db G objectHash request plan response) := by
  obtain ⟨N, hN⟩ := planPack_covers hdb ht hw request.haves request.ofsDelta
  refine ⟨N, fun fuel hfuel => ?_⟩
  obtain ⟨plan, hplan, hobjects, hcovers⟩ := hN fuel hfuel
  exact ⟨plan, hplan, fun w hwants hs => hcovers.sends hclient hwants hs, hcovers.direct, hcovers.needed, fun hlen =>
    run_uploadPack hdb.toIntact G objectHash hrequest hdone hne hplan hlen hobjects⟩

end UploadPackV0

namespace Sample

deriving instance DecidableEq for UploadPackV0.Request, UploadPackV0.FullRequest

def doneRequest : Bytes :=
  Pktline.line (asBytes ("want " ++ tagId.toHex ++ " side-band-64k ofs-delta\n")) ++ Pktline.FLUSH_LINE ++
    Pktline.line (asBytes ("have " ++ rootId.toHex ++ "\n")) ++ Pktline.line (asBytes "done\n")

theorem parse_doneRequest :
    UploadPackV0.parseRequest doneRequest = .ok ⟨⟨[tagId], [rootId], true, false⟩, true, true, false⟩ := by
  decide +kernel

end Sample

open Sample UploadPackV0 in
theorem UploadPackV0.done_completes_sample : ∃ N, ∀ fuel ≥ N, ∃ plan response,
    env.run (UploadPack.planPack env fuel [tagId] [rootId] .none true) Sample.db = some (.ok plan, Sample.db) ∧
      (∀ y, env.Reaches Sample.db tagId y → env.Reaches Sample.db rootId y ∨ y ∈ plan.objects.map (·.oid)) ∧
      env.run (uploadPack env packBytes fuel .sha1 doneRequest : env.Prog Empty _) Sample.db =
        some (.ok response, Sample.db) ∧
      Delivers env Sample.db packBytes .sha1 ⟨⟨[tagId], [rootId], true, false⟩, true, true, false⟩ plan response := by
  obtain ⟨N₁, hN⟩ := @done_completes env Sample.db Empty Sample.indexed Sample.typed packBytes .sha1 _ _ parse_doneRequest
    rfl (by simp) fetchable_tag {y | env.Reaches Sample.db rootId y} (by
      intro h hh _ y hy
      rwa [List.mem_singleton.1 hh] at hy)
  obtain ⟨N₂, hshort⟩ := length_plan_tag
  refine ⟨max N₁ N₂, fun fuel hfuel => ?_⟩
  obtain ⟨plan, hplan, hhistory, -, -, hresponse⟩ := hN fuel (by omega)
  obtain ⟨response, hrun, hdelivers⟩ := hresponse (hshort fuel (by omega) plan _ hplan)
  exact ⟨plan, response, hplan, hhistory tagId (List.mem_singleton_self _) peels_tag.sendable, hrun, hdelivers⟩

end Miscreant
