/-
The refs push requests lead to.

A repository starts with `HEAD` alone, a symbolic ref no push can change.
Every other ref was set by a command, so it is direct, and its name came in a
pkt-line beside two ids (`PushedRefs`).
-/
import Miscreant.ReceivePackFacts

namespace Miscreant

open Lib ReceivePack

/-- A repository as `create_repo` leaves it. -/
def newRepository {V : Type} : Db V := { Db.empty with refs := SortedMap.empty.insert HEAD_REF (.reference DEFAULT_BRANCH) }

/-- The objects of an indexed pack have the ids they hash to. -/
def GixPack.Hashed (E : Env) (G : GixPack) : Prop :=
  ∀ input objectHash bases staged, G.writeToDirectory input objectHash bases = .ok staged → staged.Acyclic E

/-- A push request is handled to its end. -/
def Requested (E : Env) (G : GixPack) (db db' : E.Db) : Prop :=
  ∃ fuel objectFormat body response,
    (receivePack E G fuel objectFormat body : E.Prog PromoteError _).run Db.handler db = some (.ok response, db')

/-- `db` is reached from a new repository by push requests. -/
def Hosted (E : Env) (G : GixPack) (db : E.Db) : Prop := Relation.ReflTransGen (Requested E G) newRepository db

/-! ## One request -/

section Request

variable {E : Env} {G : GixPack} {db db' : E.Db}

theorem staged_acyclic (hG : G.Hashed E) {input : Bytes} {objectHash : HashKind} {staged : StagedPack}
    (h : E.run (ingestPack E G input objectHash) db = some (.ok staged, db')) : staged.Acyclic E := by
  have hempty : (⟨.empty⟩ : StagedPack).Acyclic E := StagedPack.acyclic_of_rank (fun _ => 0) fun x y hc => by
    obtain ⟨kind, body, children, hread, -⟩ := hc
    cases hread
  unfold ingestPack at h
  split at h
  · cases h
    exact hempty
  · rcases Prog.run_bind_inv h with ⟨bases, db₁, -, hrest⟩ | ⟨e, -, heq⟩
    · rw [Prog.run_ofExcept] at hrest
      exact hG _ _ bases _ (Prod.mk.inj (Option.some.inj hrest)).1
    · cases heq

/-- What a request does: nothing, or a push of what it carries. -/
theorem Requested.cases (hG : G.Hashed E) (h : Requested E G db db') :
    db' = db ∨ ∃ (request : Request) (staged : StagedPack) (r : _), (∀ cmd ∈ request.commands, Command.Framed cmd) ∧
      Push E db staged request.updates r db' := by
  obtain ⟨fuel, objectFormat, body, response, hrun⟩ := h
  unfold receivePack at hrun
  cases hparse : parseRequest body with
  | none =>
    rw [hparse] at hrun
    cases hrun
    exact .inl rfl
  | some request =>
    rw [hparse] at hrun
    dsimp only [handle] at hrun
    obtain ⟨ingested, hingest⟩ := run_ingestPack G request.pack objectFormat db
    have hattempt : ((ingestPack E G request.pack objectFormat).attempt : E.Prog PromoteError _).run Db.handler db =
        some (.ok ingested, db) := by
      rw [Prog.run_attempt, hingest]
      rfl
    rw [Prog.run_bind_ok hattempt] at hrun
    cases ingested with
    | error e =>
      cases hrun
      exact .inl rfl
    | ok staged =>
      dsimp only at hrun
      rw [Prog.run_bind, Prog.run_attempt] at hrun
      cases hpromote : (Promote.validateAndPromote E fuel staged request.tips).run Db.handler db with
      | none =>
        rw [hpromote] at hrun
        cases hrun
      | some r =>
        obtain ⟨promoted, db₁⟩ := r
        rw [hpromote] at hrun
        have htips : Promote.tipsOf request.updates = request.tips := by
          rw [Promote.tipsOf, Request.updates, List.filterMap_map]
          rfl
        have hacyc := staged_acyclic hG hingest
        refine .inr ⟨request, staged, ?_⟩
        cases promoted with
        | error e =>
          cases hrun
          refine ⟨.error e, parseRequest_framed hparse, hacyc, fuel, ?_⟩
          rw [Promote.receivePack, htips]
          exact Prog.run_bind_error hpromote
        | ok promotion =>
          obtain ⟨results, db₂, -, -, hupdate⟩ := run_updateRefs (ε := PromoteError) request.updates db₁
          have hresponse : (updateRefs request.updates >>= fun results => pure (reportSuccess request results) :
              E.Prog PromoteError Response).run Db.handler db₁ = some (.ok response, db') := hrun
          rw [Prog.run_bind_ok hupdate] at hresponse
          cases hresponse
          refine ⟨.ok results, parseRequest_framed hparse, hacyc, fuel, ?_⟩
          rw [Promote.receivePack, htips]
          exact (Prog.run_bind_ok hpromote).trans hupdate

end Request

/-! ## What the refs are -/

/-- The refs of a repository that requests have been made to. -/
structure PushedRefs (refs : Refs) : Prop where
  head : refs HEAD_REF = some (.reference DEFAULT_BRANCH)
  other : ∀ name target, refs name = some target → name ≠ HEAD_REF → ∃ oid, target = .direct oid ∧
    2 * oid.kind.lenInBytes + 42 + (asBytes name).length ≤ Pktline.MAX_DATA_LEN

theorem pushedRefs_new {V : Type} : PushedRefs (newRepository : Db V).refs.get where
  head := by
    show (SortedMap.empty.insert HEAD_REF (RefTarget.reference DEFAULT_BRANCH)).get HEAD_REF = _
    rw [SortedMap.get_insert, if_pos rfl]
  other name target h hne := by
    have hget : (SortedMap.empty.insert HEAD_REF (RefTarget.reference DEFAULT_BRANCH)).get name = some target := h
    rw [SortedMap.get_insert, if_neg hne] at hget
    cases hget

theorem PushedRefs.swap {refs : Refs} (h : PushedRefs refs) {cmd : Command} (hcmd : cmd.Framed) :
    PushedRefs (refs.swap ⟨cmd.name, cmd.old, cmd.new⟩).1 := by
  unfold Refs.swap
  split
  · exact h
  · rename_i hsym
    have hname : cmd.name ≠ HEAD_REF := fun heq => hsym _ (by rw [heq]; exact h.head)
    split
    · refine ⟨?_, fun name target hget hne => ?_⟩
      · exact (Function.update_of_ne (Ne.symm hname) _ _).trans h.head
      · dsimp only at hget
        by_cases heq : name = cmd.name
        · rw [heq, Function.update_self] at hget
          obtain ⟨oid, hnew, rfl⟩ := Option.map_eq_some_iff.1 hget
          have hold := hexWidth_ge cmd.old
          have hfits := hcmd.fits
          rw [hnew, hexWidth] at hfits
          rw [heq]
          exact ⟨oid, rfl, by omega⟩
        · rw [Function.update_of_ne heq] at hget
          exact h.other name target hget hne
    · exact h

theorem PushedRefs.swapAll : ∀ {commands : List Command} {refs : Refs}, PushedRefs refs →
    (∀ cmd ∈ commands, Command.Framed cmd) →
    PushedRefs (Refs.swapAll (commands.map fun cmd => ⟨cmd.name, cmd.old, cmd.new⟩) refs).1
  | [], refs, h, _ => h
  | cmd :: commands, refs, h, hframed => by
    rw [List.map_cons, Refs.swapAll_cons]
    exact PushedRefs.swapAll (h.swap (hframed cmd (List.mem_cons_self ..)))
      fun cmd' hcmd' => hframed cmd' (List.mem_cons_of_mem _ hcmd')

/-- What is known of a repository that requests have been made to. -/
structure Pushable (E : Env) (db : E.Db) : Prop extends Tracked E db where
  dated : db.Dated
  pushed : PushedRefs db.refs.get

theorem fresh_new {E : Env} : Fresh E newRepository where
  objects _ := rfl
  graph _ := rfl
  refs name oid h := by
    by_cases hname : name = HEAD_REF
    · rw [hname, pushedRefs_new.head] at h
      cases h
    · have hget : (SortedMap.empty.insert HEAD_REF (RefTarget.reference DEFAULT_BRANCH)).get name = _ := h
      rw [SortedMap.get_insert, if_neg hname] at hget
      cases hget

theorem Pushable.request {E : Env} {G : GixPack} {db db' : E.Db} (hcodec : E.codec = .bytes) (hG : G.Hashed E)
    (h : Pushable E db) (hr : Requested E G db db') : Pushable E db' := by
  rcases hr.cases hG with rfl | ⟨request, staged, r, hframed, hpush⟩
  · exact h
  · have htracked := h.toTracked.push hcodec hpush
    rcases hpush.cases with ⟨fuel, e, -, hrun⟩ | ⟨fuel, results, p, db₁, -, hrun, hupdate⟩
    · have hsame := (keepsRefs_validateAndPromote fuel staged _).sameRefState hrun
      exact ⟨htracked, hsame.dated h.dated, by rw [hsame.refs]; exact h.pushed⟩
    · have hsame := (keepsRefs_validateAndPromote fuel staged _).sameRefState hrun
      obtain ⟨db₂, hrun₂, hrefs, hdated⟩ := run_updateRefs_alone (ε := PromoteError) request.updates (hsame.dated h.dated)
      cases hupdate.symm.trans hrun₂
      refine ⟨htracked, hdated, ?_⟩
      rw [hrefs, hsame.refs]
      exact h.pushed.swapAll hframed

/-- A run of requests leads to such a repository. -/
theorem Hosted.pushable {E : Env} {G : GixPack} {db : E.Db} (hcodec : E.codec = .bytes) (hG : G.Hashed E)
    (h : Hosted E G db) : Pushable E db := by
  induction h with
  | refl => exact ⟨fresh_new.tracked, fun _ => le_rfl, pushedRefs_new⟩
  | tail _ hstep ih => exact ih.request hcodec hG hstep

/-! ## A tag under any name -/

namespace Sample

theorem packs_hashed : packs.Hashed env := by
  intro input objectHash bases staged h
  cases h
  exact pack_acyclic

theorem promoted_new : (env.run (Promote.validateAndPromote env 20 pack [tagId]) newRepository).map
    (fun x => x.1.toOption.isSome) = some true := by decide +kernel

/-- The tag is pushed under a name. -/
theorem requested_tag {name : String} (hname : name ≠ "") (hnul : (0 : UInt8) ∉ asBytes name)
    (hlen : (asBytes name).length ≤ 65433) (hhead : name ≠ HEAD_REF) :
    ∃ db, Hosted env packs db ∧
      db.refs.get = Function.update (newRepository : env.Db).refs.get name (some (.direct tagId)) := by
  let cmd : Command := ⟨none, some tagId, name⟩
  have hwritable : cmd.Writable := ⟨hname, hnul, nofun, fun id h => by cases h; decide⟩
  have htext : (asBytes cmd.text).length = 82 + (asBytes name).length := by
    have hspace : (asBytes " ").length = 1 := by decide
    have hnull : (hexTextIn .sha1 none) = (Advertise.nullId .sha1).toHex := rfl
    have htag : (hexTextIn .sha1 (some tagId)) = tagId.toHex := rfl
    simp only [cmd, Command.text, Command.textIn, asBytes_append, List.length_append, hnull, htag, ObjectId.length_toHex, hspace]
    have hsha : (Advertise.nullId .sha1).kind.lenInBytes = 20 := rfl
    have hsha' : tagId.kind.lenInBytes = 20 := rfl
    omega
  obtain ⟨body, hparse⟩ : ∃ body, parseRequest body = some ⟨[cmd], parseCaps [], [0]⟩ :=
    ⟨_, @parseRequest_written cmd hwritable [] (by decide)
      (by rw [htext]; simp only [List.length_nil, Pktline.MAX_DATA_LEN]; omega) [0]⟩
  obtain ⟨⟨x, db₁⟩, hpromote, hok⟩ := Option.map_eq_some_iff.1 promoted_new
  obtain ⟨promotion, rfl⟩ : ∃ promotion, x = .ok promotion := by
    cases x with
    | error e => cases hok
    | ok promotion => exact ⟨promotion, rfl⟩
  have hsame := (keepsRefs_validateAndPromote 20 pack [tagId]).sameRefState hpromote
  obtain ⟨db, hupdate, hrefs, -⟩ := run_updateRefs_alone (ε := PromoteError) [⟨name, none, some tagId⟩]
    (hsame.dated fun _ => le_rfl)
  have hnone : (newRepository : env.Db).refs.get name = none := by
    show (SortedMap.empty.insert HEAD_REF (RefTarget.reference DEFAULT_BRANCH)).get name = none
    rw [SortedMap.get_insert, if_neg hhead]
    rfl
  have hhandle : ∃ response, (handle env packs 20 .sha1 ⟨[cmd], parseCaps [], [0]⟩ : env.Prog PromoteError _).run
      Db.handler newRepository = some (.ok response, db) := by
    have hattempt : ((Promote.validateAndPromote env 20 pack [tagId]).attempt : env.Prog PromoteError _).run Db.handler
        newRepository = some (.ok (.ok promotion), db₁) :=
      (Prog.run_attempt _ _).trans (congrArg (Option.map _) hpromote)
    exact ⟨_, (Prog.run_bind_ok hattempt).trans (Prog.run_bind_ok hupdate)⟩
  obtain ⟨response, hhandle⟩ := hhandle
  have hreceive : (receivePack env packs 20 .sha1 body : env.Prog PromoteError _).run Db.handler newRepository =
      some (.ok response, db) := by
    rw [receivePack, hparse]
    exact hhandle
  refine ⟨db, .single ⟨20, .sha1, body, response, hreceive⟩, ?_⟩
  rw [hrefs, hsame.refs, Refs.swapAll_cons, @Refs.swap_direct _ _ none hnone, if_pos rfl]
  rfl

end Sample

end Miscreant
