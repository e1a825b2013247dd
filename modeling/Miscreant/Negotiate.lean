/-
Rounds of a classic fetch (`src/protocol/upload_pack_v0.rs`): a negotiation
round acknowledges the haves the server shares, and a `done` round plans the
pack and names the last of them.

The request's parsing and the streaming of the pack are not part of this
module.
-/
import Miscreant.UploadPack
import Miscreant.Wire

namespace Miscreant

open Lib

/-- Why a round is refused. -/
inductive FetchError
  | walk (e : WalkError)
  | io (e : Pktline.EncodeError)
  | tooManyObjects


namespace UploadPackV0

variable (E : Env)

/-- `Request`: what the rounds use of it. -/
structure Request where
  wants : List ObjectId
  haves : List ObjectId
  ofsDelta : Bool
  multiAckDetailed : Bool

/-- The lines of `ack_negotiation_block`. -/
def ackLines (common : List ObjectId) (ready multiAckDetailed : Bool) : List String :=
  (if multiAckDetailed then
    common.map (fun oid => "ACK " ++ oid.toHex ++ " common\n") ++
      (if ready then common.getLast?.toList.map fun last => "ACK " ++ last.toHex ++ " ready\n" else [])
  else []) ++ ["NAK\n"]

/-- `ack_negotiation_block`. -/
def ackNegotiationBlock (common : List ObjectId) (ready multiAckDetailed : Bool) : Except Pktline.EncodeError Bytes :=
  Pktline.writeAll Pktline.dataToWrite ((ackLines common ready multiAckDetailed).map asBytes) []

/-- `ack_done_line`. -/
def ackDoneLine (common : List ObjectId) : Except Pktline.EncodeError Bytes :=
  match common.getLast? with
  | some last => Pktline.dataToWrite (asBytes ("ACK " ++ last.toHex ++ "\n")) []
  | none => Pktline.dataToWrite (asBytes "NAK\n") []

/-- `negotiate`: the acknowledgement block. -/
def negotiate (fuel : Nat) (request : Request) : E.Prog FetchError Bytes := do
  let partition ← (Walker.partitionWants E request.wants).mapErr .walk
  let selection ← (Walker.selectCommits E fuel partition.history request.haves).mapErr .walk
  let ready := !selection.common.isEmpty && selection.boundedByHaves
  Prog.ofExcept ((ackNegotiationBlock selection.common ready request.multiAckDetailed).mapError .io)

/-- `stream_done_round`: the plan of the pack, and the acknowledgement before
it. -/
def streamDoneRound (fuel : Nat) (request : Request) : E.Prog FetchError (PackPlan × Bytes) := do
  let plan ← (UploadPack.planPack E fuel request.wants request.haves .none request.ofsDelta).mapErr .walk
  if 2 ^ 32 ≤ plan.objects.length then .fail .tooManyObjects
  else do
    let lead ← Prog.ofExcept ((ackDoneLine plan.common).mapError .io)
    pure (plan, lead)

end UploadPackV0

end Miscreant
