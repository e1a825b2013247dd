/-
The push endpoint (`src/protocol/receive_pack.rs`): the request's command
list, ingestion (`src/git/ingest.rs`), the classes of errors a client is shown
(`src/error.rs`), and the report of what became of each command.

gix's pack indexing is a parameter (`GixPack`). Faults of the staging disk,
the metrics and the logging are left out, and the repository is one that has
been resolved.
-/
import Miscreant.Promote
import Miscreant.Wire

namespace Miscreant

open Lib

/-! ## Ingestion -/

/-- `IngestError`. -/
inductive IngestError
  | pack
  | baseLookup (e : ObjectDbError)
  | bundle
  deriving DecidableEq, Repr

/-- `gix_pack`: the bases a pack's ref-deltas name, and the objects of a
pack that is indexed over bases found elsewhere. -/
structure GixPack where
  refDeltaBases : Bytes → HashKind → List ObjectId
  writeToDirectory : Bytes → HashKind → List (ObjectId × Kind × Bytes) → Except IngestError StagedPack

/-- The prefetch of `ingest_pack`: the bases there are. -/
def prefetchBases (E : Env) : List ObjectId → List (ObjectId × Kind × Bytes) →
    E.Prog IngestError (List (ObjectId × Kind × Bytes))
  | [], bases => pure bases
  | baseId :: rest, bases => do
    match ← (ObjectDb.get E baseId).mapErr .baseLookup with
    | some object => prefetchBases E rest (bases ++ [(baseId, object)])
    | none => prefetchBases E rest bases

/-- `ingest_pack`. -/
def ingestPack (E : Env) (G : GixPack) (input : Bytes) (objectHash : HashKind) : E.Prog IngestError StagedPack :=
  if input = [] then pure ⟨.empty⟩
  else do
    let bases ← prefetchBases E (G.refDeltaBases input objectHash) []
    Prog.ofExcept (G.writeToDirectory input objectHash bases)

/-! ## Error classes -/

/-- `Class`. -/
inductive Class
  | client (reason : String)
  | notFound
  | server
  deriving DecidableEq, Repr

def StoreError.class : StoreError → Class
  | value _ => .server

def ObjectDbError.class : ObjectDbError → Class
  | store e => e.class
  | blob | corruptZlib _ => .server

def IngestError.class : IngestError → Class
  | pack => .client "index-pack failed"
  | baseLookup e => e.class
  | bundle => .server

def WalkError.class : WalkError → Class
  | unknownWant oid => .client ("not our ref " ++ oid.toHex)
  | unsupportedWant _ _ => .client "want is not a commit or tag"
  | store e => e.class
  | objects e => e.class
  | missingObject _ | unexpectedKind _ _ _ | decode _ | discoveryStalled _ => .server

def PromoteError.class : PromoteError → Class
  | connectivity _ _ => .client "missing necessary objects"
  | store e => e.class
  | objects e => e.class
  | walk e => e.class
  | decode _ => .server

namespace ReceivePack

/-! ## Requests -/

/-- `Command`; `old` and `new` are `none` for the all-zero id. -/
structure Command where
  old : Option ObjectId
  new : Option ObjectId
  name : String
  deriving DecidableEq, Repr

/-- `Caps`. -/
structure Caps where
  reportStatus : Bool
  sideBand64k : Bool
  deriving DecidableEq, Repr

/-- `Caps::default`. -/
def Caps.none : Caps := ⟨false, false⟩

/-- `Request`. -/
structure Request where
  commands : List Command
  caps : Caps
  pack : Bytes
  deriving DecidableEq, Repr

/-- One token of `parse_caps`: its name, up to a `=`. -/
def Caps.addToken (caps : Caps) (token : Bytes) : Caps :=
  let name := token.takeWhile (· ≠ 61)
  if name = asBytes "report-status" then { caps with reportStatus := true }
  else if name = asBytes "side-band-64k" then { caps with sideBand64k := true }
  else caps

/-- `parse_caps`. An ASCII byte is a character of its own whatever the bytes
around it, so the tokens the lossy decoding gives are those of the bytes. -/
def parseCaps (bytes : Bytes) : Caps := (bytes.splitOn 32).foldl Caps.addToken .none

/-- `parse_oid`; the outer `none` is a parse error. -/
def parseOid (hex : List Char) : Option (Option ObjectId) := do
  let id ← ObjectId.fromHex (asBytes (String.ofList hex))
  pure (if id.isNull then none else some id)

/-- What comes before the first space, and after it. -/
def splitAtSpace (text : List Char) : Option (List Char × List Char) :=
  match text.dropWhile (· ≠ ' ') with
  | [] => none
  | _ :: rest => some (text.takeWhile (· ≠ ' '), rest)

/-- `strip_suffix(b"\n")`, or the data as it is. -/
def stripLf (data : Bytes) : Bytes := if data.getLast? = some 10 then data.dropLast else data

/-- The command bytes of a line, and the capabilities after a NUL. -/
def splitCaps (data : Bytes) : Bytes × Option Caps :=
  match data.findIdx? (· == 0) with
  | some nul => (data.take nul, some (parseCaps (data.drop (nul + 1))))
  | none => (data, none)

/-- The three fields of a command. -/
def parseFields (text : List Char) : Option Command := do
  let (old, rest) ← splitAtSpace text
  let (new, name) ← splitAtSpace rest
  if name = [] then none
  else do
    let old ← parseOid old
    let new ← parseOid new
    pure ⟨old, new, String.ofList name⟩

/-- `parse_command`. -/
def parseCommand (data : Bytes) : Option (Command × Option Caps) := do
  let (commandBytes, caps) := splitCaps (stripLf data)
  let text ← fromUtf8 commandBytes
  let command ← parseFields text.toList
  pure (command, caps)

/-- The loop of `parse_request`. Every line takes bytes, so their number is
fuel enough. -/
def parseRequestFrom : Nat → Bytes → Bool → Caps → List Command → Option Request
  | 0, _, _, _, _ => none
  | fuel + 1, body, first, caps, commands =>
    match Pktline.streaming body with
    | .ok (.complete .flush consumed) => some ⟨commands, caps, body.drop consumed⟩
    | .ok (.complete (.data data) consumed) => do
      let (command, lineCaps) ← parseCommand data
      parseRequestFrom fuel (body.drop consumed) false (if first then lineCaps.getD caps else caps)
        (commands ++ [command])
    | _ => none

/-- `parse_request`. -/
def parseRequest (body : Bytes) : Option Request := parseRequestFrom body.length body true .none []

/-- The ref updates of a request. -/
def Request.updates (request : Request) : List RefUpdate :=
  request.commands.map fun cmd => ⟨cmd.name, cmd.old, cmd.new⟩

/-- The reachability tips of a request. -/
def Request.tips (request : Request) : List ObjectId := request.commands.filterMap (·.new)

/-! ## Reports -/

/-- `RefStatus`. -/
inductive RefStatus
  | ok
  | ng (reason : String)
  deriving DecidableEq, Repr

/-- A response: its status code, content type and body. -/
structure Response where
  status : Nat
  contentType : String
  body : Bytes
  deriving DecidableEq, Repr

def RESULT_CONTENT_TYPE : String := "application/x-git-receive-pack-result"
def NG_UNPACKER_ERROR : String := "unpacker error"
def MAX_BAND_DATA : Nat := 65515

/-- `Channel::Data`. -/
def CHANNEL_DATA : UInt8 := 1

/-- `http::plain`. -/
def plain (status : Nat) (message : String) : Response := ⟨status, "text/plain; charset=utf-8", asBytes message⟩

/-- `http::internal_error`. -/
def internalError : Response := plain 500 "internal server error"

/-- The status line of one command. -/
def statusLine : String × RefStatus → String
  | (name, .ok) => "ok " ++ name ++ "\n"
  | (name, .ng reason) => "ng " ++ name ++ " " ++ reason ++ "\n"

/-- The pkt-lines of `report_body`, before any side band. -/
def reportLines (unpackLine : String) (statuses : List (String × RefStatus)) : Except Pktline.EncodeError Bytes := do
  let inner ← Pktline.dataToWrite (asBytes (unpackLine ++ "\n")) []
  let inner ← Pktline.writeAll Pktline.dataToWrite (statuses.map fun s => asBytes (statusLine s)) inner
  pure (Pktline.flushToWrite inner)

/-- `report_body`. -/
def reportBody (unpackLine : String) (statuses : List (String × RefStatus)) (sideBand : Bool) :
    Except Pktline.EncodeError Bytes := do
  let inner ← reportLines unpackLine statuses
  if !sideBand then pure inner
  else do
    let outer ← Pktline.writeAll (Pktline.bandToWrite CHANNEL_DATA) (Pktline.chunks MAX_BAND_DATA inner) []
    pure (Pktline.flushToWrite outer)

/-- `build_report`. -/
def buildReport (caps : Caps) (unpackLine : String) (statuses : List (String × RefStatus)) : Response :=
  if !caps.reportStatus then ⟨200, RESULT_CONTENT_TYPE, []⟩
  else
    match reportBody unpackLine statuses caps.sideBand64k with
    | .ok body => ⟨200, RESULT_CONTENT_TYPE, body⟩
    | .error _ => internalError

/-- `push_failed`. -/
def pushFailed (request : Request) : Class → Response
  | .client reason =>
    buildReport request.caps ("unpack " ++ reason) (request.commands.map fun cmd => (cmd.name, .ng NG_UNPACKER_ERROR))
  | .notFound => plain 404 "repository not found"
  | .server => internalError

/-- The status reported for an outcome. -/
def RefStatus.ofOutcome : RefOutcome → RefStatus
  | .updated => .ok
  | .rejected reason => .ng reason

/-- `report_success`. -/
def reportSuccess (request : Request) (results : List RefUpdateResult) : Response :=
  buildReport request.caps "unpack ok" (results.map fun r => (r.name, .ofOutcome r.outcome))

/-- `receive_pack` of a request that has been parsed. -/
def handle {ε : Type} (E : Env) (G : GixPack) (fuel : Nat) (objectFormat : HashKind) (request : Request) :
    E.Prog ε Response := do
  match ← (ingestPack E G request.pack objectFormat).attempt with
  | .error e => pure (pushFailed request e.class)
  | .ok staged =>
    match ← (Promote.validateAndPromote E fuel staged request.tips).attempt with
    | .error e => pure (pushFailed request e.class)
    | .ok _ => do
      let results ← updateRefs request.updates
      pure (reportSuccess request results)

/-- `receive_pack`. -/
def receivePack {ε : Type} (E : Env) (G : GixPack) (fuel : Nat) (objectFormat : HashKind) (body : Bytes) :
    E.Prog ε Response :=
  match parseRequest body with
  | none => pure (plain 400 "malformed receive-pack request")
  | some request => handle E G fuel objectFormat request

end ReceivePack

end Miscreant
