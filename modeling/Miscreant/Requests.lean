/-
The parsing of fetch requests: the protocol-v2 command request
(`src/protocol/upload_pack.rs`) and the classic one
(`src/protocol/upload_pack_v0.rs`). A push's is in `ReceivePack`.
-/
import Miscreant.Negotiate
import Miscreant.ReceivePack
import Miscreant.Lib.Packets

namespace Miscreant

open Lib ReceivePack

namespace UploadPack

/-- `Request`. -/
structure Request where
  command : String
  objectFormat : Option String
  args : List String
  deriving DecidableEq, Repr

def COMMAND : List Char := "command=".toList
def OBJECT_FORMAT : List Char := "object-format=".toList

/-- The locals of the loop of `parse_request`. -/
structure Parse where
  command : Option String
  objectFormat : Option String
  args : List String
  inArgs : Bool
  deriving DecidableEq, Repr

/-- A text line. -/
def Parse.addText (s : Parse) (text : String) : Option Parse :=
  if s.inArgs then some { s with args := s.args ++ [text] }
  else
    match stripPrefix COMMAND text.toList with
    | some name => if s.command.isSome then none else some { s with command := some (String.ofList name) }
    | none =>
      match stripPrefix OBJECT_FORMAT text.toList with
      | some format => some { s with objectFormat := some (String.ofList format) }
      | none => some s

/-- The `match line` of the loop, but for the flush, which ends it. -/
def Parse.addLine (s : Parse) : Pktline.PacketLine → Option Parse
  | .data data => (fromUtf8 (stripLf data)).bind s.addText
  | .delimiter => if s.inArgs then none else some { s with inArgs := true }
  | .flush => some s
  | .responseEnd => none

/-- `parse_request`. What follows the flush is not looked at. -/
def parseRequest (body : Bytes) : Option Request := do
  let (s, _) ← Pktline.foldPackets Parse.addLine body.length body ⟨none, none, [], false⟩
  let command ← s.command
  pure ⟨command, s.objectFormat, s.args⟩

end UploadPack

namespace UploadPackV0

/-- `Request`, with what the rounds use of it. -/
structure FullRequest extends Request where
  done : Bool
  sideBand64k : Bool
  noProgress : Bool

/-- `Request::default`. -/
def FullRequest.none : FullRequest := ⟨⟨[], [], false, false⟩, false, false, false⟩

/-- `ParseError`. -/
inductive ParseError
  | malformed
  | filter
  deriving DecidableEq, Repr

/-- One token of `parse_caps`: its name, up to a `=`. -/
def FullRequest.addToken (request : FullRequest) (token : List Char) : FullRequest :=
  let name := String.ofList (token.takeWhile (· ≠ '='))
  if name = "side-band-64k" then { request with sideBand64k := true }
  else if name = "no-progress" then { request with noProgress := true }
  else if name = "multi_ack_detailed" then { request with multiAckDetailed := true }
  else if name = "ofs-delta" then { request with ofsDelta := true }
  else request

/-- `parse_caps`. -/
def parseCaps (caps : List Char) (request : FullRequest) : FullRequest :=
  (caps.splitOn ' ').foldl FullRequest.addToken request

/-- `ObjectId::from_hex`, or the request is malformed. -/
def parseHex (hex : List Char) : Except ParseError ObjectId :=
  match ObjectId.fromHex (asBytes (String.ofList hex)) with
  | some oid => .ok oid
  | none => .error .malformed

def WANT : List Char := "want ".toList
def HAVE : List Char := "have ".toList
def FILTER : List Char := "filter ".toList

/-- A text line other than `done`, and whether the next `want` is still the
first. -/
def addText (first : Bool) (request : FullRequest) (text : String) : Except ParseError (Bool × FullRequest) :=
  match stripPrefix WANT text.toList with
  | some rest => do
    let (hex, caps) :=
      match splitAtSpace rest with
      | some (hex, caps) => (hex, some caps)
      | none => (rest, none)
    let oid ← parseHex hex
    let request := { request with wants := request.wants ++ [oid] }
    match first, caps with
    | true, some caps => pure (false, parseCaps caps request)
    | _, _ => pure (false, request)
  | none =>
    match stripPrefix HAVE text.toList with
    | some hex => do
      let oid ← parseHex hex
      pure (first, { request with haves := request.haves ++ [oid] })
    | none => if (stripPrefix FILTER text.toList).isSome then .error .filter else .error .malformed

/-- The loop of `parse_request`. Every line takes bytes, so their number is
fuel enough. -/
def parseRequestFrom : Nat → Bytes → Bool → FullRequest → Except ParseError FullRequest
  | 0, _, _, request => .ok request
  | fuel + 1, body, first, request =>
    if body = [] then .ok request
    else
      match Pktline.streaming body with
      | .ok (.complete .flush consumed) => parseRequestFrom fuel (body.drop consumed) first request
      | .ok (.complete (.data data) consumed) =>
        match fromUtf8 (stripLf data) with
        | none => .error .malformed
        | some text =>
          if text = "done" then .ok { request with done := true }
          else do
            let (first, request) ← addText first request text
            parseRequestFrom fuel (body.drop consumed) first request
      | _ => .error .malformed

/-- `parse_request`. A line is seen if there are bytes at all. -/
def parseRequest (body : Bytes) : Except ParseError FullRequest :=
  if body = [] then .error .malformed else parseRequestFrom body.length body true .none

end UploadPackV0

end Miscreant
