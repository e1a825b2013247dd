/-
Ref advertisements: `ls-refs` of protocol v2
(`src/protocol/upload_pack.rs`), the classic upload-pack advertisement
(`src/protocol/upload_pack_v0.rs`), and the lines both endpoints write
(`src/protocol/advertise.rs`).

The logging, the metrics and the HTTP framing around the bodies are left out.
-/
import Miscreant.UploadPack
import Miscreant.Wire

namespace Miscreant

open Lib

def MAX_PEEL_DEPTH : Nat := 5

/-- `LsRefsError`. -/
inductive LsRefsError
  | store (e : StoreError)
  | objects (e : ObjectDbError)
  | decode (oid : ObjectId)
  | io (e : Pktline.EncodeError)
  deriving DecidableEq, Repr

/-- `LsRefsArgs`. -/
structure LsRefsArgs where
  prefixes : List String
  symrefs : Bool
  peel : Bool
  unborn : Bool

/-- One line of `ls-refs`; a ref without an id is unborn. -/
structure LsRef where
  oid : Option ObjectId
  name : String
  symrefTarget : Option String
  peeled : Option ObjectId
  deriving DecidableEq, Repr

/-- The text of the line. -/
def LsRef.line (r : LsRef) : String :=
  (match r.oid with
    | some oid => oid.toHex
    | none => "unborn") ++ " " ++ r.name ++
  (match r.symrefTarget with
    | some inner => " symref-target:" ++ inner
    | none => "") ++
  (match r.peeled with
    | some peeled => " peeled:" ++ peeled.toHex
    | none => "") ++ "\n"

namespace UploadPack

variable (E : Env)

/-- `Store::list_refs` of the names that start with `p`. -/
def listRefsUnder {ε : Type} (p : String) : E.Prog ε (List (String × RefTarget)) := do
  let refs ← Store.listRefs
  pure (refs.filter fun entry => (asBytes p).isPrefixOf (asBytes entry.1))

/-- The refs under some prefixes, gathered in a map. -/
def gatherFrom {ε : Type} : List String → SortedMap String RefTarget → E.Prog ε (SortedMap String RefTarget)
  | [], refs => pure refs
  | p :: prefixes, refs => do
    let found ← listRefsUnder E p
    gatherFrom prefixes (found.foldl (fun refs (name, target) => refs.insert name target) refs)

/-- `gather_refs`. -/
def gatherRefs {ε : Type} (prefixes : List String) : E.Prog ε (List (String × RefTarget)) :=
  if prefixes.isEmpty then Store.listRefs
  else do
    let refs ← gatherFrom E prefixes .empty
    pure refs.entries

/-- The loop of `peel_ref`, with `n` turns left. -/
def peelFrom : Nat → Bool → ObjectId → E.Prog LsRefsError (Option ObjectId)
  | 0, peeled, current => pure (if peeled then some current else none)
  | n + 1, peeled, current => do
    match ← (ObjectDb.get E current).mapErr .objects with
    | none => pure none
    | some (kind, body) =>
      if kind ≠ .tag then pure (if peeled then some current else none)
      else
        match E.gix.tagFromBytes body current.kind with
        | none => .fail (.decode current)
        | some tag => peelFrom n true tag.target

/-- `peel_ref`. -/
def peelRef (oid : ObjectId) : E.Prog LsRefsError (Option ObjectId) := peelFrom E MAX_PEEL_DEPTH false oid

/-- The target to report for a symbolic ref, when it is asked for. -/
def symrefTarget (args : LsRefsArgs) : RefTarget → Option String
  | .reference inner => if args.symrefs then some inner else none
  | .direct _ => none

/-- What `build_ls_refs` says of one ref; `none` is a ref routed around. -/
def lsRef (args : LsRefsArgs) (name : String) (target : RefTarget) : E.Prog LsRefsError (Option LsRef) := do
  match ← resolveRef E target with
  | .dangling =>
    match target with
    | .reference _ => pure (if args.unborn then some ⟨none, name, symrefTarget args target, none⟩ else none)
    | .direct _ => pure none
  | .tooDeep => pure none
  | .resolved oid => do
    let peeled ← if args.peel then peelRef E oid else pure none
    pure (some ⟨some oid, name, symrefTarget args target, peeled⟩)

/-- The loop of `build_ls_refs`. -/
def lsRefsFrom (args : LsRefsArgs) : List (String × RefTarget) → Bytes → E.Prog LsRefsError Bytes
  | [], body => pure body
  | (name, target) :: refs, body => do
    match ← lsRef E args name target with
    | none => lsRefsFrom args refs body
    | some r => do
      let body ← Prog.ofExcept ((Pktline.dataToWrite (asBytes r.line) body).mapError .io)
      lsRefsFrom args refs body

/-- `build_ls_refs`. -/
def buildLsRefs (args : LsRefsArgs) : E.Prog LsRefsError Bytes := do
  let refs ← gatherRefs E args.prefixes
  let body ← lsRefsFrom E args refs []
  pure (Pktline.flushToWrite body)

end UploadPack

namespace Advertise

/-- `agent`, of the version in `Cargo.toml`. -/
def agent : String := "miscreant/0.1.0"

/-- `Kind::null`. -/
def nullId (objectFormat : HashKind) : ObjectId where
  kind := objectFormat
  bytes := List.replicate objectFormat.lenInBytes 0
  len := List.length_replicate

/-- The capabilities `receive_pack` advertises. -/
def receivePackCaps : String := "report-status delete-refs side-band-64k ofs-delta agent=" ++ agent

/-- The synthetic line of an advertisement with no refs. -/
def noRefsLine (objectFormat : HashKind) (caps : String) : String :=
  (nullId objectFormat).toHex ++ " capabilities^\x7b\x7d\x00" ++ caps ++ "\n"

/-- The ref lines of `receive_pack`: the direct refs, with the capabilities
on the first. -/
def receivePackLines : Bool → List (String × RefTarget) → List String
  | _, [] => []
  | first, (_, .reference _) :: refs => receivePackLines first refs
  | first, (name, .direct oid) :: refs =>
    (if first then oid.toHex ++ " " ++ name ++ "\x00" ++ receivePackCaps ++ "\n" else oid.toHex ++ " " ++ name ++ "\n")
      :: receivePackLines false refs

/-- A service's advertisement: its header and its lines. -/
def service (header : String) (lines : List String) : Except Pktline.EncodeError Bytes := do
  let out ← Pktline.dataToWrite (asBytes header) []
  let out ← Pktline.writeAll Pktline.dataToWrite (lines.map asBytes) (Pktline.flushToWrite out)
  pure (Pktline.flushToWrite out)

/-- `receive_pack`. -/
def receivePack (refs : List (String × RefTarget)) (objectFormat : HashKind) : Except Pktline.EncodeError Bytes :=
  let lines := receivePackLines true refs
  service "# service=git-receive-pack\n"
    (if lines.isEmpty then [noRefsLine objectFormat receivePackCaps] else lines)

/-- `UploadRef`. -/
structure UploadRef where
  name : String
  oid : ObjectId
  peeled : Option ObjectId
  deriving DecidableEq, Repr

/-- The capabilities `upload_pack_v0` advertises. -/
def uploadPackCaps (headSymrefTarget : Option String) : String :=
  "multi_ack_detailed side-band-64k no-progress ofs-delta agent=" ++ agent ++
    match headSymrefTarget with
    | some target => " symref=HEAD:" ++ target
    | none => ""

/-- The lines of one ref of `upload_pack_v0`. -/
def UploadRef.lines (r : UploadRef) (caps : Option String) : List String :=
  (match caps with
    | some caps => r.oid.toHex ++ " " ++ r.name ++ "\x00" ++ caps ++ "\n"
    | none => r.oid.toHex ++ " " ++ r.name ++ "\n") ::
  match r.peeled with
  | some peeled => [peeled.toHex ++ " " ++ r.name ++ "^\x7b\x7d\n"]
  | none => []

/-- The lines of `upload_pack_v0`, with the capabilities on the first. -/
def uploadPackLines (objectFormat : HashKind) (caps : String) : List UploadRef → List String
  | [] => [noRefsLine objectFormat caps]
  | r :: refs => r.lines (some caps) ++ refs.flatMap (·.lines none)

/-- `upload_pack_v0`. -/
def uploadPackV0 (refs : List UploadRef) (headSymrefTarget : Option String) (objectFormat : HashKind) :
    Except Pktline.EncodeError Bytes :=
  service "# service=git-upload-pack\n" (uploadPackLines objectFormat (uploadPackCaps headSymrefTarget) refs)

end Advertise

namespace UploadPackV0

open Advertise

variable (E : Env)

/-- The refs other than `HEAD` that resolve, each peeled. -/
def advertiseRest : List (String × RefTarget) → List UploadRef → E.Prog LsRefsError (List UploadRef)
  | [], advertised => pure advertised
  | (name, target) :: rest, advertised => do
    match ← UploadPack.resolveRef E target with
    | .resolved oid => do
      let peeled ← UploadPack.peelRef E oid
      advertiseRest rest (advertised ++ [⟨name, oid, peeled⟩])
    | _ => advertiseRest rest advertised

/-- `HEAD`, when it resolves, and the symref target it is advertised with. -/
def advertiseHead : Option RefTarget → E.Prog LsRefsError (List UploadRef × Option String)
  | none => pure ([], none)
  | some target => do
    match ← UploadPack.resolveRef E target with
    | .resolved oid =>
      pure ([⟨HEAD_REF, oid, none⟩], match target with
        | .reference inner => some inner
        | .direct _ => none)
    | _ => pure ([], none)

/-- The refs `build_advertisement` passes to `upload_pack_v0`, and the symref
target of `HEAD`. -/
def advertised : E.Prog LsRefsError (List UploadRef × Option String) := do
  let refs ← Store.listRefs
  let headTarget := (refs.filter fun entry => entry.1 = HEAD_REF).getLast?.map (·.2)
  let rest := refs.filter fun entry => entry.1 ≠ HEAD_REF
  let (head, symrefTarget) ← advertiseHead E headTarget
  let advertised ← advertiseRest E rest head
  pure (advertised, symrefTarget)

/-- `build_advertisement`. -/
def buildAdvertisement (objectFormat : HashKind) : E.Prog LsRefsError Bytes := do
  let (refs, symrefTarget) ← advertised E
  Prog.ofExcept ((uploadPackV0 refs symrefTarget objectFormat).mapError .io)

end UploadPackV0

end Miscreant
