/-
What upload-pack answers (`src/protocol/upload_pack.rs`,
`src/protocol/upload_pack_v0.rs`): the arguments of the commands, and the
responses, of which a fetch's is a stream of the pack.

A pack is streamed by two tasks: one looks up the objects in their order, the
other writes what it is handed, and frames it (`Miscreant.Stream`). gix's
`FromEntriesIter`, which turns entries into bytes, is a parameter
(`PackBytes`). The client stays until the response ends; metrics and logging
are left out.
-/
import Miscreant.Requests
import Miscreant.Advertise
import Miscreant.PackOut
import Miscreant.Stream

namespace Miscreant

open Lib

open ReceivePack (Response plain internalError CHANNEL_DATA MAX_BAND_DATA)

/-! ## Filters -/

/-- `str::parse::<u64>`: decimal digits after an optional plus. -/
def parseU64 (text : List Char) : Option Nat :=
  let digits := match text with
    | '+' :: rest => rest
    | text => text
  if digits ≠ [] ∧ digits.all Char.isDigit then
    let value := digits.foldl (fun value c => value * 10 + (c.toNat - 48)) 0
    if value < 2 ^ 64 then some value else none
  else none

/-- `parse_unit_size`. -/
def parseUnitSize (text : List Char) : Option Nat := do
  let last ← text.getLast?
  let (digits, multiplier) :=
    if last = 'k' ∨ last = 'K' then (text.dropLast, 1024)
    else if last = 'm' ∨ last = 'M' then (text.dropLast, 1024 * 1024)
    else if last = 'g' ∨ last = 'G' then (text.dropLast, 1024 * 1024 * 1024)
    else (text, 1)
  let value ← parseU64 digits
  -- `checked_mul`
  if value * multiplier < 2 ^ 64 then some (value * multiplier) else none

/-- `FilterSpec::parse`. -/
def FilterSpec.parse (spec : List Char) : Option FilterSpec :=
  if spec = "blob:none".toList then some .blobNone
  else (stripPrefix "blob:limit=".toList spec).bind fun limit => (parseUnitSize limit).map .blobLimit

namespace UploadPack

/-! ## Arguments -/

/-- `FetchArgs`. -/
structure FetchArgs where
  wants : List ObjectId
  haves : List ObjectId
  done : Bool
  noProgress : Bool
  ofsDelta : Bool
  filter : FilterSpec
  deriving DecidableEq, Repr

/-- `FetchArgs::default`. -/
def FetchArgs.start : FetchArgs := ⟨[], [], false, false, false, .none⟩

/-- An id after its keyword, or the message that it is none. -/
def parseId (keyword : String) (hex : List Char) : Except String ObjectId :=
  match ObjectId.fromHex (asBytes (String.ofList hex)) with
  | some oid => .ok oid
  | none => .error ("invalid " ++ keyword ++ ": " ++ String.ofList hex)

/-- One turn of `FetchArgs::parse`. -/
def FetchArgs.add (parsed : FetchArgs) (arg : String) : Except String FetchArgs :=
  match stripPrefix "want ".toList arg.toList with
  | some hex => (parseId "want" hex).map fun oid => { parsed with wants := parsed.wants ++ [oid] }
  | none =>
    match stripPrefix "have ".toList arg.toList with
    | some hex => (parseId "have" hex).map fun oid => { parsed with haves := parsed.haves ++ [oid] }
    | none =>
      match stripPrefix "filter ".toList arg.toList with
      | some spec =>
        match FilterSpec.parse spec with
        | some filter => .ok { parsed with filter }
        | none => .error ("unsupported filter: " ++ String.ofList spec)
      | none =>
        if arg = "done" then .ok { parsed with done := true }
        else if arg = "no-progress" then .ok { parsed with noProgress := true }
        else if arg = "ofs-delta" then .ok { parsed with ofsDelta := true }
        else if arg = "thin-pack" ∨ arg = "include-tag" then .ok parsed
        else .error ("unexpected fetch argument: " ++ arg)

/-- `FetchArgs::parse`. -/
def FetchArgs.parse (args : List String) : Except String FetchArgs := args.foldlM FetchArgs.add .start

/-- `ObjectInfoArgs`. -/
structure ObjectInfoArgs where
  size : Bool
  oids : List ObjectId
  deriving DecidableEq, Repr

/-- One turn of `ObjectInfoArgs::parse`. -/
def ObjectInfoArgs.add (parsed : ObjectInfoArgs) (arg : String) : Except String ObjectInfoArgs :=
  match stripPrefix "oid ".toList arg.toList with
  | some hex => (parseId "oid" hex).map fun oid => { parsed with oids := parsed.oids ++ [oid] }
  | none =>
    if arg = "size" then .ok { parsed with size := true }
    else .error ("unexpected object-info argument: " ++ arg)

/-- `ObjectInfoArgs::parse`. -/
def ObjectInfoArgs.parse (args : List String) : Except String ObjectInfoArgs :=
  args.foldlM ObjectInfoArgs.add ⟨false, []⟩

/-- One turn of `LsRefsArgs::parse`; an argument it does not know is the
error. -/
def addLsRefsArg (parsed : LsRefsArgs) (arg : String) : Except String LsRefsArgs :=
  match stripPrefix "ref-prefix ".toList arg.toList with
  | some name => .ok { parsed with prefixes := parsed.prefixes ++ [String.ofList name] }
  | none =>
    if arg = "symrefs" then .ok { parsed with symrefs := true }
    else if arg = "peel" then .ok { parsed with peel := true }
    else if arg = "unborn" then .ok { parsed with unborn := true }
    else .error arg

/-- `LsRefsArgs::parse`. -/
def parseLsRefsArgs (args : List String) : Except String LsRefsArgs :=
  args.foldlM addLsRefsArg ⟨[], false, false, false⟩

/-! ## Refusals -/

def RESULT_CONTENT_TYPE : String := "application/x-git-upload-pack-result"

/-- `advertise::error_line`. -/
def errorLine (message : String) : Except Pktline.EncodeError Bytes :=
  -- `encode::error_to_write`
  Pktline.prefixedDataToWrite (asBytes "ERR ") (asBytes message) []

/-- `err_line`, and `reject_fetch`. -/
def errLine (message : String) : Response :=
  match errorLine message with
  | .ok body => ⟨200, RESULT_CONTENT_TYPE, body⟩
  | .error _ => internalError

/-- `error_response`. -/
def errorResponse : Class → Response
  | .client reason => errLine reason
  | .notFound => plain 404 "repository not found"
  | .server => internalError

end UploadPack

def LsRefsError.class : LsRefsError → Class
  | store e => e.class
  | objects e => e.class
  | decode _ | io _ => .server

/-- `FetchObjectError`. -/
inductive FetchObjectError
  | objects (e : ObjectDbError)
  | missing (oid : ObjectId)
  deriving DecidableEq, Repr

def FetchObjectError.class : FetchObjectError → Class
  | objects e => e.class
  | missing _ => .server

def PackOut.PackOutError.class : PackOut.PackOutError FetchObjectError → Class
  | input e => e.class
  | corruptZlib _ | truncated _ _ => .server

namespace UploadPack

/-! ## The pack -/

/-- `FromEntriesIter`: what it writes before the first entry, for an entry
after those already written, and after the last one. -/
structure PackBytes where
  header : UInt32 → HashKind → Bytes
  entry : List PackOut.Entry → PackOut.Entry → List Bytes
  trailer : HashKind → Bytes → Bytes

/-- The writes of some entries, after those in `done`. -/
def PackBytes.entries (G : PackBytes) : List PackOut.Entry → List PackOut.Entry → List Bytes
  | _, [] => []
  | done, entry :: rest => G.entry done entry ++ G.entries (done ++ [entry]) rest

/-- The writes before the trailer. -/
def PackBytes.writes (G : PackBytes) (count : UInt32) (objectHash : HashKind) (entries : List PackOut.Entry) :
    List Bytes :=
  G.header count objectHash :: G.entries [] entries

/-- The bytes of a whole pack. -/
def PackBytes.pack (G : PackBytes) (count : UInt32) (objectHash : HashKind) (entries : List PackOut.Entry) : Bytes :=
  let body := (G.writes count objectHash entries).flatten
  body ++ G.trailer objectHash body

/-- `write_all`, of one piece after another. -/
def writeAllTo (frame : Framing) : Writer → List Bytes → Except StreamError Unit × Writer
  | w, [] => (.ok (), w)
  | w, data :: rest =>
    match w.write frame data with
    | (.error e, w) => (.error e, w)
    | (.ok _, w) => writeAllTo frame w rest

/-- `PackOutError`, with the errors of the output. -/
inductive PackWriteError
  | write (e : StreamError)
  | pack (e : PackOut.PackOutError FetchObjectError)
  deriving DecidableEq, Repr

def PackWriteError.class : PackWriteError → Class
  | write _ => .server
  | pack e => e.class

/-- `write_pack_with_options`, with what it writes. The trailer follows the
end of the input, before the entries are counted. -/
def writePackTo (frame : Framing) (G : PackBytes) (zlib : Zlib) (ofsDeltas : Bool) (objectHash : HashKind)
    (objects : List (Except FetchObjectError PackOut.PackEntry)) (count : UInt32) (w : Writer) :
    Option (Except PackWriteError Unit × Writer) :=
  (PackOut.handEntries zlib ofsDeltas objects 0 .empty).map fun (entries, ended) =>
    let writes := G.writes count objectHash entries
    match writeAllTo frame w writes with
    | (.error e, w) => (.error (.write e), w)
    | (.ok (), w) =>
      match ended with
      | .error e => (.error (.pack e), w)
      | .ok written =>
        match writeAllTo frame w [G.trailer objectHash writes.flatten] with
        | (.error e, w) => (.error (.write e), w)
        | (.ok (), w) =>
          match w.flush frame with
          | (.error e, w) => (.error (.write e), w)
          | (.ok (), w) =>
            if written ≠ count then (.error (.pack (.truncated written count)), w) else (.ok (), w)

/-! ## The stream -/

/-- `Channel::Progress` and `Channel::Error`. -/
def CHANNEL_PROGRESS : UInt8 := 2
def CHANNEL_ERROR : UInt8 := 3

/-- `send_band`; its result is not looked at where it is used here. -/
def sendBand (tx : Sender) (channel : UInt8) (text : String) : Sender :=
  (tx.send (fun data => Pktline.bandToWrite channel data []) (asBytes text)).2

/-- A line of progress, unless the client wants none. -/
def sendProgress (tx : Sender) (noProgress : Bool) (text : String) : Sender :=
  if noProgress then tx else sendBand tx CHANNEL_PROGRESS text

/-- The end of `stream_pack`, over side bands. -/
def endPack (tx : Sender) (count : UInt32) (noProgress : Bool) : Except PackWriteError Unit → Sender
  | .ok () =>
    let tx := sendProgress tx noProgress ("packed " ++ toString count ++ " objects\n")
    (tx.blockingSend (Pktline.flushToWrite [])).2
  | .error (.write .brokenPipe) => tx
  | .error e =>
    match e.class with
    | .client reason => sendBand tx CHANNEL_ERROR reason
    | .notFound | .server => sendBand tx CHANNEL_ERROR "internal error"

/-- `stream_pack`. -/
def streamPack (G : PackBytes) (zlib : Zlib) (objects : List (Except FetchObjectError PackOut.PackEntry)) (tx : Sender)
    (count : UInt32) (objectHash : HashKind) (sideband noProgress ofsDeltas : Bool) : Option Sender :=
  if sideband then
    let tx := sendProgress tx noProgress ("packing " ++ toString count ++ " objects\n")
    (writePackTo bandFraming G zlib ofsDeltas objectHash objects count ⟨tx, [], 0⟩).map fun (outcome, w) =>
      endPack w.tx count noProgress outcome
  else (writePackTo rawFraming G zlib ofsDeltas objectHash objects count ⟨tx, [], 0⟩).map fun (_, w) => w.tx

variable (E : Env) {ε : Type}

/-- `feed_objects`. The lookups are made ahead of their use, and used in
order; an object is never changed. -/
def feedObjects : List ScheduledObject → E.Prog ε (List (Except FetchObjectError PackOut.PackEntry))
  | [] => pure []
  | object :: rest => do
    match ← (ObjectDb.readCompressed E object.oid).attempt with
    | .ok (some (kind, decompressedSize, zlib)) => do
      let items ← feedObjects rest
      pure (.ok ⟨object.oid, kind, decompressedSize, zlib, object.deltaGroup⟩ :: items)
    | .ok none => pure [.error (.missing object.oid)]
    | .error e => pure [.error (.objects e)]

/-- `stream_pack_response`: the body is `lead`, and what is sent. A writer that
panics leaves the program stuck. -/
def streamPackResponse (G : PackBytes) (objectHash : HashKind) (objects : List ScheduledObject) (lead : Bytes)
    (sideband noProgress ofsDeltas : Bool) : E.Prog ε Response := do
  let items ← feedObjects E objects
  match streamPack G E.zlib items ⟨[], true⟩ (UInt32.ofNat objects.length) objectHash sideband noProgress ofsDeltas with
  | some tx => pure ⟨200, RESULT_CONTENT_TYPE, lead ++ tx.sent.flatten⟩
  | none => .stuck

/-! ## Commands -/

/-- The lines of `negotiation_prefix` before its delimiter. -/
def acknowledgments (common : List ObjectId) : List String :=
  ["acknowledgments\n"] ++
    (if common.isEmpty then ["NAK\n"] else common.map fun oid => "ACK " ++ oid.toHex ++ "\n") ++ ["ready\n"]

/-- `negotiation_prefix`. -/
def negotiationPrefix (done : Bool) (common : List ObjectId) : Except Pktline.EncodeError Bytes := do
  let out ← if done then pure [] else do
    let out ← Pktline.writeAll Pktline.dataToWrite ((acknowledgments common).map asBytes) []
    -- `delim_to_write`
    pure (out ++ Pktline.DELIMITER_LINE)
  Pktline.dataToWrite (asBytes "packfile\n") out

/-- `fetch`. -/
def fetch (G : PackBytes) (fuel : Nat) (objectHash : HashKind) (args : List String) : E.Prog ε Response :=
  match FetchArgs.parse args with
  | .error message => pure (errLine message)
  | .ok parsed =>
    if parsed.wants.isEmpty then pure (errLine "fetch requires at least one want")
    else do
      match ← (planPack E fuel parsed.wants parsed.haves parsed.filter parsed.ofsDelta).attempt with
      | .error e => pure (errorResponse e.class)
      | .ok plan =>
        if 2 ^ 32 ≤ plan.objects.length then pure (errLine "too many objects for one pack")
        else
          match negotiationPrefix parsed.done plan.common with
          | .error _ => pure internalError
          | .ok lead =>
            streamPackResponse E G objectHash plan.objects lead true parsed.noProgress parsed.ofsDelta

/-- `gix_hash::Kind`, as it is written out. -/
def formatName : HashKind → String
  | .sha1 => "sha1"
  | .sha256 => "sha256"

/-- `object_format`. -/
def objectFormat (format : HashKind) : Response :=
  match Pktline.dataToWrite (asBytes (formatName format ++ "\n")) [] with
  | .ok body => ⟨200, RESULT_CONTENT_TYPE, Pktline.flushToWrite body⟩
  | .error _ => internalError

/-- The loop of `object_info`: the lines so far are in `body`. -/
def objectInfoFrom : List ObjectId → Bytes → E.Prog ε Response
  | [], body => pure ⟨200, RESULT_CONTENT_TYPE, Pktline.flushToWrite body⟩
  | oid :: oids, body => do
    match ← ObjectDb.size E oid with
    | none => pure (errLine ("unknown object " ++ oid.toHex))
    | some (_, size) =>
      match Pktline.dataToWrite (asBytes (oid.toHex ++ " " ++ toString size ++ "\n")) body with
      | .error _ => pure internalError
      | .ok body => objectInfoFrom oids body

/-- `object_info`. -/
def objectInfo (args : List String) : E.Prog ε Response :=
  match ObjectInfoArgs.parse args with
  | .error message => pure (errLine message)
  | .ok parsed =>
    match Pktline.dataToWrite (asBytes "size\n") [] with
    | .error _ => pure internalError
    | .ok body => objectInfoFrom E parsed.oids body

/-- `ls_refs`. -/
def lsRefsResponse (args : List String) : E.Prog ε Response :=
  match parseLsRefsArgs args with
  | .error arg => pure (errLine ("unexpected ls-refs argument: " ++ arg))
  | .ok parsed => do
    match ← (buildLsRefs E parsed).attempt with
    | .error e => pure (errorResponse e.class)
    | .ok body => pure ⟨200, RESULT_CONTENT_TYPE, body⟩

/-- The dispatch of `upload_pack`, for a repository that has been found. -/
def dispatch (G : PackBytes) (fuel : Nat) (objectHash : HashKind) (request : Request) : E.Prog ε Response :=
  if request.command = "ls-refs" then lsRefsResponse E request.args
  else if request.command = "fetch" then fetch E G fuel objectHash request.args
  else if request.command = "object-format" then pure (objectFormat objectHash)
  else if request.command = "object-info" then objectInfo E request.args
  else pure (errLine ("unknown command: " ++ request.command))

/-- `upload_pack`, of a repository there is. -/
def uploadPack (G : PackBytes) (fuel : Nat) (objectHash : HashKind) (body : Bytes) : E.Prog ε Response :=
  match parseRequest body with
  | none => pure (plain 400 "malformed upload-pack request")
  | some request =>
    match request.objectFormat.filter (· ≠ "sha1") with
    | some format => pure (errLine ("unsupported object format: " ++ format))
    | none => dispatch E G fuel objectHash request

end UploadPack

namespace UploadPackV0

open UploadPack (RESULT_CONTENT_TYPE PackBytes errorLine errLine errorResponse streamPackResponse)

/-- `malformed`. -/
def malformed : Response :=
  match errorLine "malformed upload-pack request" with
  | .ok body => ⟨400, RESULT_CONTENT_TYPE, body⟩
  | .error _ => internalError

/-- The response to a round that is refused. -/
def refused : FetchError → Response
  | .walk e => errorResponse e.class
  | .io _ => internalError
  | .tooManyObjects => errLine "too many objects for one pack"

/-- `upload_pack`, of a repository there is. -/
def uploadPack {ε : Type} (E : Env) (G : PackBytes) (fuel : Nat) (objectHash : HashKind) (body : Bytes) :
    E.Prog ε Response :=
  match parseRequest body with
  | .error .filter => pure (errLine "filter requires protocol v2")
  | .error .malformed => pure malformed
  | .ok request =>
    if request.wants.isEmpty then pure (errLine "fetch requires at least one want")
    else if request.done then do
      match ← (streamDoneRound E fuel request.toRequest).attempt with
      | .error e => pure (refused e)
      | .ok (plan, lead) =>
        streamPackResponse E G objectHash plan.objects lead request.sideBand64k request.noProgress request.ofsDelta
    else do
      match ← (negotiate E fuel request.toRequest).attempt with
      | .error e => pure (refused e)
      | .ok body => pure ⟨200, RESULT_CONTENT_TYPE, body⟩

end UploadPackV0

end Miscreant
