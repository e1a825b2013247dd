/-
Negotiation rounds and `done` rounds of a classic fetch.

A discovery that succeeds reports exactly the haves that name commits
(`selectCommits_common`): a lookup gives a record only of a commit, and the
errors that excuse a have are about something that is not one. The rounds are
compared where every commit has a record: the lookups of a batch, which the
source runs together, meet nowhere else but in a missing record. Both rounds run discovery, except that planning skips it when
every want is a tree or a blob.
-/
import Miscreant.Negotiate
import Miscreant.PushFacts
import Miscreant.PlanFacts
import Miscreant.BackfillFacts

namespace Miscreant

open Lib Walker

variable {E : Env} {db db' : E.Db}

/-! ## Lookups that end -/

/-- What the loop of a backfill of `c` ends with, having begun in `db`. -/
def BackfillEnds (E : Env) (commits : Commits) (c : ObjectId) (db : E.Db) (x : Except WalkError (Option CommitGraphRecord))
    (db' : E.Db) : Prop :=
  GraphGrows E commits db db' ∧ match x with
    | .ok result => ∃ r, result = some r ∧ commits.IsRecord c r
    | .error e => Blocked E commits (fun _ => True) e

/-- What a lookup of `c` that ended with `r` says of `c`. -/
def Answers (commits : Commits) (c : ObjectId) : Except WalkError CommitGraphRecord → Prop
  | .ok r => commits.IsRecord c r
  | .error e => e.about = some c → commits c = none

namespace Walker

section Ends

variable {commits : Commits} {fuel : Nat} {c : ObjectId} {r : Except WalkError CommitGraphRecord} (hdb : Intact E db)
  (hcm : E.commitAt db = commits) (hsane : Sane E commits (fun _ => True) db)

include hdb hcm hsane

theorem backfillLoop_ends (hmiss : db.graph c = none) {x : Except WalkError (Option CommitGraphRecord)} {db₁ : E.Db}
    (hrun : (Prog.loop (backfillStep E c) fuel ⟨[c], .empty, .empty, none⟩).run Db.handler db = some (x, db₁)) :
    BackfillEnds E commits c db x db₁ := by
  refine Prog.loop_inv (backfillStep E c) (I := Backfill.Inv E commits (fun _ => True) c db)
    (Q := BackfillEnds E commits c db) ?_ (.start trivial) hrun
  intro s db₁ y db₂ hinv hstep
  cases hs : s.stack with
  | nil =>
    have hres : Resolved s.generations c := hinv.target.resolve_left (by simp [hs])
    obtain ⟨r, hr⟩ := hinv.result hres
    simp only [backfillStep, hs] at hstep
    cases hstep
    exact ⟨hinv.grows, r, hr, hinv.record r hr⟩
  | cons top rest =>
    rcases backfill_turn hdb hcm hsane hmiss (fun _ _ _ _ _ => trivial) hinv hs with
      ⟨e, db₃, hfail, hblocked, hgrows⟩ | ⟨s', db₃, hturn, hinv', -, -⟩
    · cases hstep.symm.trans hfail
      exact ⟨hgrows, hblocked⟩
    · cases hstep.symm.trans hturn
      exact hinv'

theorem backfillCommitInfo_ends (hmiss : db.graph c = none)
    (hr : (backfillCommitInfo E fuel c).run Db.handler db = some (r, db')) :
    Recorded E commits db db' ∧ Answers commits c r := by
  rcases Prog.run_bind_inv hr with ⟨result, db₁, hrun, hr⟩ | ⟨e, hrun, rfl⟩
  · obtain ⟨hgrows, r', rfl, hrec⟩ := backfillLoop_ends hdb hcm hsane hmiss hrun
    cases hr
    exact ⟨hgrows.toRecorded, hrec⟩
  · obtain ⟨hgrows, a, -, hblocked⟩ := backfillLoop_ends hdb hcm hsane hmiss hrun
    refine ⟨hgrows.toRecorded, fun habout => ?_⟩
    rcases hblocked with ⟨hnone, ha⟩ | ⟨-, ha⟩
    · cases habout.symm.trans ha
      exact hnone
    · cases habout.symm.trans ha

theorem getCommitInfo_ends (hr : (getCommitInfo E fuel c).run Db.handler db = some (r, db')) :
    Recorded E commits db db' ∧ Answers commits c r := by
  rw [getCommitInfo, Prog.run_bind, run_getCommitGraph_mapErr] at hr
  rcases hsane.graphAt (c := c) trivial with ⟨hnone, hg⟩ | ⟨-, ⟨⟨r', hg, hrec⟩, -⟩ | ⟨⟨e, hg⟩, -⟩⟩
  · rw [hg] at hr
    exact backfillCommitInfo_ends hdb hcm hsane hnone hr
  · rw [hg] at hr
    cases hr
    exact ⟨.refl db, hrec⟩
  · rw [hg] at hr
    cases hr
    exact ⟨.refl db, fun h => by cases h⟩

end Ends

/-- The haves a batch of answers reports are those it has records of. -/
theorem markHaves_common : ∀ {fetched : List (ObjectId × Except WalkError CommitGraphRecord)} {d d' : Discovery}
    {common common' : List ObjectId}, markHaves fetched d common = .ok (d', common') →
      common' = common ++ (fetched.filter fun (_, r) => r.isOk).map (·.1) ∧
        ∀ c e, (c, .error e) ∈ fetched → e.about = some c
  | [], d, d', common, common', h => by
    cases h
    simp
  | (c, r) :: fetched, d, d', common, common', h => by
    have hskip : ∀ e, r = .error e → e.about = some c → markHaves fetched d common = .ok (d', common') →
        common' = common ++ (((c, r) :: fetched).filter fun (_, r) => r.isOk).map (·.1) ∧
          ∀ c' e', (c', .error e') ∈ (c, r) :: fetched → e'.about = some c' := by
      intro e hr habout hrest
      obtain ⟨hcommon, herr⟩ := markHaves_common hrest
      subst hr
      refine ⟨hcommon, fun c' e' hmem => ?_⟩
      rcases List.mem_cons.1 hmem with heq | hmem
      · cases heq
        exact habout
      · exact herr c' e' hmem
    cases hr : r with
    | ok info =>
      rw [hr] at h
      have hrest : markHaves fetched (d.mark c .Have info.generation) (common ++ [c]) = .ok (d', common') := h
      obtain ⟨hcommon, herr⟩ := markHaves_common hrest
      refine ⟨by simpa [Except.isOk, Except.toBool] using hcommon, fun c' e' hmem => ?_⟩
      rcases List.mem_cons.1 hmem with heq | hmem
      · cases heq
      · exact herr c' e' hmem
    | error e =>
      rw [← hr]
      rw [hr] at h
      cases e with
      | missingObject missing =>
        rw [markHaves] at h
        split_ifs at h with heq
        exact hskip _ hr (by rw [heq]; rfl) h
      | unexpectedKind oid expected actual =>
        rw [markHaves] at h
        split_ifs at h with heq
        exact hskip _ hr (by rw [heq]; rfl) h
      | store e | objects e | unknownWant e | unsupportedWant e k | decode e | discoveryStalled e => cases h

section Common

variable {commits : Commits} (hdb : Intact E db) (hcm : E.commitAt db = commits)
  (hsane : Sane E commits (fun _ => True) db) (hhonest : ∀ x, E.Honest commits x)

include hdb hcm hsane hhonest

/-- Every answer of a batch is one about its id. -/
theorem prefetchRecords_answers {fuel : Nat} {cache : SortedMap ObjectId CommitGraphRecord} {ids : List ObjectId}
    {fetched : List (ObjectId × Except WalkError CommitGraphRecord)} {records : SortedMap ObjectId CommitGraphRecord}
    (hr : (prefetchRecords E fuel cache ids).run Db.handler db = some (.ok (fetched, records), db')) :
    List.Forall₂ (fun c entry => entry.1 = c ∧ Answers commits c entry.2) (misses cache ∅ ids) fetched := by
  obtain ⟨fetched', db₁, hrun, hr⟩ := Prog.run_bind_ok_inv hr
  cases hr
  refine (Prog.forEach_inv (I := Recorded E commits db) (fun c db₁ entry db₂ hrec hrun => ?_) (.refl db) hrun).2
  obtain ⟨r, db₃, hrun, hr⟩ := Prog.run_bind_ok_inv hrun
  cases hr
  rw [Prog.run_attempt] at hrun
  cases hinfo : (getCommitInfo E fuel c).run Db.handler db₁ with
  | none => simp [hinfo] at hrun
  | some x =>
    obtain ⟨r', db₄⟩ := x
    simp only [hinfo, Option.map_some, Option.some.injEq, Prod.mk.injEq, Except.ok.injEq] at hrun
    obtain ⟨rfl, rfl⟩ := hrun
    have hcm₁ : E.commitAt db₁ = commits := by rw [← hcm]; exact funext hrec.commitAt
    obtain ⟨hrec', hanswers⟩ := getCommitInfo_ends (hrec.intact hdb) hcm₁
      (hrec.sane (fun x _ => hhonest x) hsane) hinfo
    exact ⟨hrec.trans hrec', rfl, hanswers⟩

/-- A discovery that succeeds reports the haves that name commits, each
once. -/
theorem selectCommits_common {fuel : Nat} {wants haves : List ObjectId} {selection : Selection}
    (hr : (selectCommits E fuel wants haves).run Db.handler db = some (.ok selection, db')) :
    selection.common = E.commitsOf db haves := by
  obtain ⟨⟨fetched, records⟩, db₁, hfetch, hr⟩ := Prog.run_bind_ok_inv hr
  obtain ⟨⟨d, common⟩, db₂, hmark, hr⟩ := Prog.run_bind_ok_inv hr
  obtain ⟨⟨commitWants, tags⟩, db₃, -, hr⟩ := Prog.run_bind_ok_inv hr
  obtain ⟨⟨fetched', records'⟩, db₄, -, hr⟩ := Prog.run_bind_ok_inv hr
  obtain ⟨d', db₅, -, hr⟩ := Prog.run_bind_ok_inv hr
  obtain ⟨s, db₆, -, hr⟩ := Prog.run_bind_ok_inv hr
  cases hr
  simp only [Prog.run_ofExcept, Option.some.injEq, Prod.mk.injEq] at hmark
  obtain ⟨hcommon, herr⟩ := markHaves_common hmark.1
  have hanswers := prefetchRecords_answers hdb hcm hsane hhonest hfetch
  have hfilter : ∀ {ids : List ObjectId} {fetched : List (ObjectId × Except WalkError CommitGraphRecord)},
      List.Forall₂ (fun c entry => entry.1 = c ∧ Answers commits c entry.2) ids fetched →
      (∀ c e, (c, .error e) ∈ fetched → e.about = some c) →
      (fetched.filter fun (_, r) => r.isOk).map (·.1) = ids.filter fun c => (commits c).isSome := by
    intro ids fetched h herr
    induction h with
    | nil => rfl
    | @cons c entry ids fetched h _ ih =>
      obtain ⟨c', r⟩ := entry
      obtain ⟨rfl, hr⟩ := h
      have ih := ih fun c e hmem => herr c e (by simp [hmem])
      cases r with
      | ok r =>
        obtain ⟨commit, hc, -⟩ := hr
        simpa [Except.isOk, Except.toBool, hc] using ih
      | error e =>
        have hnone : commits c' = none := hr (herr c' e (by simp))
        simpa [Except.isOk, Except.toBool, hnone] using ih
  rw [hcommon, hfilter hanswers herr, Env.commitsOf, hcm, List.nil_append, misses_eq]
  simp [eraseDups_filter]

end Common

end Walker

/-! ## The two rounds -/

namespace UploadPackV0

theorem length_of_decode_bytes {codec : GraphCodec} (hcodec : codec = .bytes) {v : codec.Val} {k : HashKind}
    {r : CommitGraphRecord} (h : codec.decode v k = .ok r) : r.parents.length ≤ 255 := by
  subst hcodec
  exact CommitGraphRecord.length_of_decode h

/-- With the codec of the store, a record that is read back could be written
back. -/
theorem sane_of_correct (hcodec : E.codec = .bytes) (hcorrect : Correct E (E.commitAt db) (fun _ => True) db) :
    Sane E (E.commitAt db) (fun _ => True) db := by
  intro c v _ hv
  obtain ⟨r, hd, hr⟩ := hcorrect c v trivial hv
  have hlen : r.parents.length ≤ 255 := length_of_decode_bytes hcodec hd
  refine .inl ⟨⟨r, hd, hr⟩, Env.readable_of_few hcodec fun commit hc => ?_⟩
  obtain ⟨commit', hc', -, -, hparents⟩ := hr
  cases hc.symm.trans hc'
  rwa [← hparents]

variable {fuel fuel' : Nat} {request : Request} {plan : PackPlan} {block lead : Bytes} {db₁ db₂ : E.Db}

/-- What a negotiation round finds out: the haves it acknowledges, and whether
the client may stop. -/
def discover (E : Env) (fuel : Nat) (request : Request) : E.Prog FetchError (List ObjectId × Bool) := do
  let partition ← (Walker.partitionWants E request.wants).mapErr .walk
  let selection ← (Walker.selectCommits E fuel partition.history request.haves).mapErr .walk
  pure (selection.common, !selection.common.isEmpty && selection.boundedByHaves)

theorem run_mapErr_ok_inv {ε ε' α : Type} {f : ε → ε'} {p : E.Prog ε α} {a : α}
    (h : (p.mapErr f).run Db.handler db = some (.ok a, db')) : p.run Db.handler db = some (.ok a, db') := by
  rw [Prog.run_mapErr, Option.map_eq_some_iff] at h
  obtain ⟨⟨x, db₁⟩, hrun, heq⟩ := h
  cases x with
  | error e => cases heq
  | ok a' =>
    cases heq
    exact hrun

theorem ofExcept_ok_inv {ε ε' α : Type} {f : ε → ε'} {x : Except ε α} {a : α}
    (h : (Prog.ofExcept (x.mapError f) : E.Prog ε' α).run Db.handler db = some (.ok a, db')) :
    x = .ok a ∧ db' = db := by
  rw [Prog.run_ofExcept] at h
  cases x with
  | error e => cases h
  | ok a' =>
    cases h
    exact ⟨rfl, rfl⟩

/-- A negotiation round that succeeds writes down what it found out, which is
the haves that name commits. -/
theorem negotiate_ok (hcodec : E.codec = .bytes) (hdb : Intact E db)
    (hcorrect : Correct E (E.commitAt db) (fun _ => True) db)
    (h : (negotiate E fuel request).run Db.handler db = some (.ok block, db₁)) :
    ∃ ready, (discover E fuel request).run Db.handler db = some (.ok (E.commitsOf db request.haves, ready), db₁) ∧
      ackNegotiationBlock (E.commitsOf db request.haves) ready request.multiAckDetailed = .ok block ∧
      ∀ w ∈ request.wants, (E.objectAt db w).isSome := by
  obtain ⟨partition, db₂, hpart, h⟩ := Prog.run_bind_ok_inv h
  obtain ⟨selection, db₃, hsel, h⟩ := Prog.run_bind_ok_inv h
  obtain ⟨hblock, rfl⟩ := ofExcept_ok_inv h
  have hpresent := partitionWants_present hdb (run_mapErr_ok_inv hpart)
  have hrun := run_mapErr_ok_inv hpart
  rw [run_partitionWants hdb hpresent] at hrun
  cases hrun
  have hcommon := Walker.selectCommits_common hdb rfl (sane_of_correct hcodec hcorrect)
    (Env.honest_bytes hcodec db) (run_mapErr_ok_inv hsel)
  rw [hcommon] at hblock
  refine ⟨_, ?_, hblock, hpresent⟩
  refine (Prog.run_bind_ok hpart).trans ((Prog.run_bind_ok hsel).trans ?_)
  rw [hcommon]
  rfl

/-- Where every commit has a record, a negotiation round writes nothing. -/
theorem discover_still (hdb : Intact E db) (hall : AllRecorded E db) {found : List ObjectId × Bool}
    (h : (discover E fuel request).run Db.handler db = some (.ok found, db₁)) : db₁ = db := by
  obtain ⟨partition, db₂, hpart, h⟩ := Prog.run_bind_ok_inv h
  obtain ⟨selection, db₃, hsel, h⟩ := Prog.run_bind_ok_inv h
  cases h
  obtain rfl := keeps_readsObjects (I := (· = db)) (readsObjects_partitionWants _) db _ db₂ rfl (run_mapErr_ok_inv hpart)
  exact keeps_selectCommits (keeps_getCommitInfo_recorded hdb hall) _ _ _ _ _ _ rfl (run_mapErr_ok_inv hsel)

/-- A plan that succeeds reports the haves that name commits, if there is
history among its wants. -/
theorem planPack_common (hcodec : E.codec = .bytes) (hdb : Intact E db)
    (hcorrect : Correct E (E.commitAt db) (fun _ => True) db) {wants haves : List ObjectId} {filter : FilterSpec}
    {ofsDeltas : Bool}
    (h : (UploadPack.planPack E fuel wants haves filter ofsDeltas).run Db.handler db = some (.ok plan, db₁)) :
    ((∃ w ∈ wants, Sendable E db w) → plan.common = E.commitsOf db haves) ∧
      ((∀ w ∈ wants, ¬ Sendable E db w) → plan.common = []) := by
  obtain ⟨partition, db₂, hpart, h⟩ := Prog.run_bind_ok_inv h
  have hpresent := partitionWants_present hdb hpart
  rw [run_partitionWants hdb hpresent] at hpart
  cases hpart
  dsimp only at h
  split at h
  · rename_i hempty
    cases h
    refine ⟨fun hsome => ?_, fun _ => rfl⟩
    obtain ⟨w, hw, hs⟩ := hsome
    have hmem := (mem_wantsOf hpresent).2 ⟨hw, hs⟩
    rw [List.isEmpty_iff.1 hempty] at hmem
    cases hmem
  · rename_i hempty
    obtain ⟨selection, db₃, hsel, h⟩ := Prog.run_bind_ok_inv h
    have hcommon : plan.common = selection.common := by
      cases ofsDeltas with
      | true =>
        obtain ⟨collected, db₄, -, h⟩ := Prog.run_bind_ok_inv h
        obtain ⟨objects, db₅, -, h⟩ := Prog.run_bind_ok_inv h
        cases h
        rfl
      | false =>
        obtain ⟨objects, db₄, -, h⟩ := Prog.run_bind_ok_inv h
        cases h
        rfl
    refine ⟨fun _ => ?_, fun hnone => ?_⟩
    · rw [hcommon]
      exact Walker.selectCommits_common hdb rfl (sane_of_correct hcodec hcorrect) (Env.honest_bytes hcodec db) hsel
    · refine absurd (List.isEmpty_iff.2 (List.eq_nil_iff_forall_not_mem.2 fun w hmem => ?_)) hempty
      obtain ⟨hw, hs⟩ := (mem_wantsOf hpresent).1 hmem
      exact hnone w hw hs

/-- The line before the pack. -/
def doneLine (common : List ObjectId) : String :=
  match common.getLast? with
  | some last => "ACK " ++ last.toHex ++ "\n"
  | none => "NAK\n"

theorem length_ackLine (id : ObjectId) :
    (asBytes ("ACK " ++ id.toHex ++ "\n")).length = 2 * id.kind.lenInBytes + 5 := by
  simp only [asBytes_append, List.length_append, ObjectId.length_toHex]
  have hack : (asBytes "ACK ").length = 4 := by decide +kernel
  have hlf : (asBytes "\n").length = 1 := by decide +kernel
  omega

theorem length_nakLine : (asBytes "NAK\n").length = 4 := by decide +kernel

theorem ackDoneLine_eq (common : List ObjectId) :
    ackDoneLine common = .ok (Pktline.line (asBytes (doneLine common))) := by
  unfold ackDoneLine doneLine
  cases common.getLast? with
  | none => exact Pktline.dataToWrite_fits ⟨by decide +kernel, by rw [length_nakLine]; decide⟩ []
  | some last =>
    have hlen := length_ackLine last
    refine Pktline.dataToWrite_fits ⟨fun hnil => ?_, ?_⟩ []
    · rw [hnil] at hlen
      cases hlen
    · rw [hlen]
      cases last.kind <;> decide

/-- The line before the pack is a `NAK` only if nothing is acknowledged. -/
theorem doneLine_nak_iff {common : List ObjectId} :
    Pktline.line (asBytes (doneLine common)) = Pktline.line (asBytes "NAK\n") ↔ common = [] := by
  unfold doneLine
  cases hlast : common.getLast? with
  | none => simp [List.getLast?_eq_none_iff.1 hlast]
  | some last =>
    have hne : common ≠ [] := by
      intro hnil
      simp [hnil] at hlast
    simp only [hne, iff_false]
    intro heq
    have hlen := congrArg List.length heq
    rw [Pktline.length_line, Pktline.length_line, length_ackLine, length_nakLine] at hlen
    omega

end UploadPackV0

open UploadPackV0

/-- Where every commit has a record and the records are right, a negotiation
round acknowledges the haves that name commits. The `done` round of the same
wants and haves agrees with it if there is a commit or a tag among the wants.
Otherwise it skips discovery and has nothing to acknowledge. Neither writes
anything. -/
theorem rounds_agree {E : Env} (hcodec : E.codec = .bytes) {db db₁ db' db₂ : E.Db} (hdb : Intact E db)
    (hcorrect : Correct E (E.commitAt db) (fun _ => True) db) (hall : AllRecorded E db) (hsame : SameObjects db db')
    (hcorrect' : Correct E (E.commitAt db) (fun _ => True) db') (hall' : AllRecorded E db') {fuel fuel' : Nat}
    {request : Request} {block lead : Bytes} {plan : PackPlan}
    (hnegotiate : E.run (negotiate E fuel request) db = some (.ok block, db₁))
    (hdone : E.run (streamDoneRound E fuel' request) db' = some (.ok (plan, lead), db₂)) :
    db₁ = db ∧ db₂ = db' ∧ ∃ common ready, E.run (discover E fuel request) db = some (.ok (common, ready), db₁) ∧
      ackNegotiationBlock common ready request.multiAckDetailed = .ok block ∧
      common = E.commitsOf db request.haves ∧
      ((∃ w ∈ request.wants, Sendable E db w) → plan.common = common ∧
        (∀ last, common.getLast? = some last → lead = Pktline.line (asBytes ("ACK " ++ last.toHex ++ "\n"))) ∧
        (lead = Pktline.line (asBytes "NAK\n") ↔ common = [])) ∧
      ((∀ w ∈ request.wants, ¬ Sendable E db w) →
        plan.common = [] ∧ lead = Pktline.line (asBytes "NAK\n")) := by
  obtain ⟨ready, hdiscover, hblock, -⟩ := negotiate_ok hcodec hdb hcorrect hnegotiate
  have hwritten : db₁ = db := discover_still hdb hall hdiscover
  obtain ⟨plan', db₃, hplan, hdone⟩ := Prog.run_bind_ok_inv hdone
  have hlead : plan = plan' ∧ lead = Pktline.line (asBytes (doneLine plan'.common)) ∧ db₂ = db₃ := by
    split at hdone
    · cases hdone
    · obtain ⟨lead', db₄, hline, hdone⟩ := Prog.run_bind_ok_inv hdone
      cases hdone
      obtain ⟨hline, rfl⟩ := ofExcept_ok_inv hline
      rw [ackDoneLine_eq] at hline
      cases hline
      exact ⟨rfl, rfl, rfl⟩
  obtain ⟨rfl, rfl, rfl⟩ := hlead
  have hwritten' : db₂ = db' :=
    keeps_planPack (keeps_getCommitInfo_recorded (hsame.toSameData.intact hdb) hall') _ _ _ _ _ db' _ db₂ rfl
      (run_mapErr_ok_inv hplan)
  have hcm : E.commitAt db' = E.commitAt db := funext hsame.toSameData.commitAt
  have hcommons : E.commitsOf db' request.haves = E.commitsOf db request.haves := by
    rw [Env.commitsOf, Env.commitsOf, hcm]
  have hsend : ∀ w, Sendable E db' w ↔ Sendable E db w := by
    intro w
    rw [Sendable, Sendable, hsame.toSameData.objectAt]
  obtain ⟨hhistory, hdirect⟩ := planPack_common hcodec (hsame.toSameData.intact hdb) (by rwa [hcm])
    (run_mapErr_ok_inv hplan)
  refine ⟨hwritten, hwritten', _, ready, hdiscover, hblock, rfl, fun hsome => ?_, fun hnone => ?_⟩
  · have hcommon : plan.common = E.commitsOf db request.haves := by
      rw [← hcommons]
      refine hhistory ?_
      obtain ⟨w, hw, hs⟩ := hsome
      exact ⟨w, hw, (hsend w).2 hs⟩
    rw [hcommon]
    refine ⟨rfl, fun last hlast => ?_, doneLine_nak_iff⟩
    rw [doneLine, hlast]
  · have hcommon : plan.common = [] := hdirect fun w hw hs => hnone w hw ((hsend w).1 hs)
    rw [hcommon]
    exact ⟨rfl, rfl⟩

namespace Sample

/-- A fetch of the tip by a client that has its parent. -/
def fetchTip : Request := ⟨[tipId], [rootId], false, true⟩

/-- A fetch of a blob by a client that has the tip. -/
def fetchBlob : Request := ⟨[blobId], [tipId], false, true⟩

end Sample

open Sample in
theorem rounds_agree_sample : ∃ block plan lead db₁ db₂,
    env.run (negotiate env 5 fetchTip) Sample.db = some (.ok block, db₁) ∧
      env.run (streamDoneRound env 5 fetchTip) Sample.db = some (.ok (plan, lead), db₂) ∧
      plan.common = env.commitsOf Sample.db [rootId] := by
  obtain ⟨db₁, hnegotiate⟩ := Prog.exists_ok (x := env.run (negotiate env 5 fetchTip) Sample.db)
    (a := ["ACK " ++ rootId.toHex ++ " common\n", "ACK " ++ rootId.toHex ++ " ready\n", "NAK\n"].flatMap fun l =>
      Pktline.line (asBytes l)) (by decide +kernel)
  obtain ⟨db₂, hdone⟩ := Prog.exists_ok (x := env.run (streamDoneRound env 5 fetchTip) Sample.db)
    (a := (⟨[⟨tipId, none⟩, ⟨treeId, none⟩, ⟨blobId, none⟩], [rootId]⟩,
      Pktline.line (asBytes ("ACK " ++ rootId.toHex ++ "\n")))) (by decide +kernel)
  obtain ⟨-, -, common, ready, -, -, hcommon, hhistory, -⟩ := rounds_agree rfl intact_storeOf correct_db indexed.allRecorded
    (SameObjects.refl Sample.db) correct_db indexed.allRecorded hnegotiate hdone
  have hsend : Sendable env Sample.db tipId := ⟨_, _, objectAt_tip, .inl rfl⟩
  refine ⟨_, _, _, _, _, hnegotiate, hdone, ?_⟩
  rw [← show common = env.commitsOf Sample.db [rootId] from hcommon]
  exact (hhistory ⟨tipId, by simp [fetchTip], hsend⟩).1

open Sample in
/-- The negotiation round of a fetch of a blob acknowledges the tip, and the
`done` round after it answers `NAK`. -/
theorem rounds_disagree : Intact env Sample.db ∧ Correct env (env.commitAt Sample.db) (fun _ => True) Sample.db ∧
    AllRecorded env Sample.db ∧ ∃ block plan db₁ db₂, env.run (negotiate env 5 fetchBlob) Sample.db = some (.ok block, db₁) ∧
      ackNegotiationBlock [tipId] true true = .ok block ∧
      env.run (streamDoneRound env 5 fetchBlob) Sample.db =
        some (.ok (plan, Pktline.line (asBytes "NAK\n")), db₂) ∧
      plan.common = [] := by
  obtain ⟨db₁, hnegotiate⟩ := Prog.exists_ok (x := env.run (negotiate env 5 fetchBlob) Sample.db)
    (a := ["ACK " ++ tipId.toHex ++ " common\n", "ACK " ++ tipId.toHex ++ " ready\n", "NAK\n"].flatMap fun l =>
      Pktline.line (asBytes l)) (by decide +kernel)
  obtain ⟨db₂, hdone⟩ := Prog.exists_ok (x := env.run (streamDoneRound env 5 fetchBlob) Sample.db)
    (a := (⟨[⟨blobId, none⟩], []⟩, Pktline.line (asBytes "NAK\n"))) (by decide +kernel)
  refine ⟨intact_storeOf, correct_db, indexed.allRecorded, _, _, _, _, hnegotiate, ?_, hdone, rfl⟩
  have hblock : (ackNegotiationBlock [tipId] true true).toOption =
      some (["ACK " ++ tipId.toHex ++ " common\n", "ACK " ++ tipId.toHex ++ " ready\n", "NAK\n"].flatMap fun l =>
        Pktline.line (asBytes l)) := by decide +kernel
  cases h : ackNegotiationBlock [tipId] true true with
  | error e => simp [h, Except.toOption] at hblock
  | ok block =>
    rw [h] at hblock
    exact congrArg Except.ok (Option.some.inj hblock)

end Miscreant
