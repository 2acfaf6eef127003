import Coinpilot.Core.Rebalance

/-!
# What an operation is answered

The routes `POST /invest`, `POST /rebalance`, `POST /proposal/approve` and `DELETE /proposal`: from the
way a call ended to the answer of its request. An evaluation that could not run is refused, and so is
one that ran and could not compute; every other exception is the framework's 500, which says nothing.
-/

set_option autoImplicit false

namespace Coinpilot.Api

open Coinpilot.Lib Coinpilot.Exchange Coinpilot.Engine Coinpilot.Core

/-! ## What is shown -/

/-- `str(value)` of an amount in its plain form. A column keeps a NaN. -/
def plainDecimal : PyDecimal → String
  | .finite d => plainAmount d
  | .infinite negative => if negative then "-Infinity" else "Infinity"
  | .nan => "NaN"

/-- One leg of an operation. Every amount is a plain decimal string. -/
structure LegOut where
  asset : String
  pair : String
  side : Side
  amountFiat : String
  minimumFiat : Option String
  status : LegStatus
  clOrdId : Option String
  txid : Option String
  cost : Option String
  executedVolume : Option String
  executedPrice : Option String
  fee : Option String
  error : Option String
  note : Option String
  volume : Option String
  deriving DecidableEq, Repr

def legOut (leg : LegResult) : LegOut :=
  { asset := leg.asset, pair := leg.pair, side := leg.side
    amountFiat := plainAmount leg.amountFiat
    minimumFiat := leg.minimumFiat.map plainAmount
    status := leg.status, clOrdId := leg.clOrdId, txid := leg.txid
    cost := leg.cost.map plainDecimal
    executedVolume := leg.executedVolume.map plainDecimal
    executedPrice := leg.executedPrice.map plainDecimal
    fee := leg.fee.map plainDecimal
    error := leg.error, note := leg.note
    volume := leg.volume.map plainAmount }

structure InvestOut where
  status : EvaluationStatus
  preview : Bool
  legs : List LegOut
  messages : List String
  deriving DecidableEq, Repr

/-- The live proposal as a client reads it. -/
structure ProposalOut where
  version : Int
  status : ProposalStatus
  trigger : ProposalTrigger
  fiat : String
  legs : List DocumentLeg
  deriving DecidableEq, Repr

/-- `_proposal`. -/
def proposalOut (state : Proposal) : ProposalOut :=
  { version := state.version, status := state.status, trigger := state.trigger
    fiat := state.plan.fiat, legs := state.plan.legs }

structure RebalanceOut where
  status : EvaluationStatus
  legs : List LegOut
  proposal : Option ProposalOut
  messages : List String
  deriving DecidableEq, Repr

/-! ## Refusals -/

/-- A `refusal`, with the extra fields that some of them carry. -/
structure Refusal where
  statusCode : Nat
  detail : String
  proposal : Option ProposalOut := none
  messages : List String := []
  deriving DecidableEq, Repr

/-- What a request is answered: a body, nothing (204), a refusal, or the framework's 500. -/
inductive Response where
  | invested (body : InvestOut)
  | rebalanced (body : RebalanceOut)
  | noContent
  | refused (refusal : Refusal)
  | failed (e : Exn)
  deriving DecidableEq, Repr

def BUSY : String := "an evaluation of this account is already running; try again shortly"
def UNREADABLE : String := "the stored key cannot be read; register it again"
def STILL_UNRESOLVED : String := "an earlier order is still unresolved; try again in a few minutes"
def UNREAD : String := "kraken could not be read; nothing was sent"
def NO_PROPOSAL : String := "there is no live proposal"
def STALE_VERSION : String := "that is not the live version; read the proposal again"
def PLAN_CHANGED : String := "the plan changed since it was proposed; nothing was sent"

/-- The evaluations that never started: busy, not configured, or a key that does not open. -/
def evaluationErrors : Exn → Exn
  | .evaluationBusy => .http 409 BUSY
  | .notReady message => .http 409 message
  | .credentialsUnreadable => .http 500 UNREADABLE
  | e => e

/-- What the framework makes of an exception that reaches it. -/
def unhandled : Exn → Response
  | .http statusCode detail => .refused { statusCode, detail }
  | e => .failed e

/-- The answer for an evaluation that ran, was recorded, and could not compute. -/
def unfinished (result : EvaluationResult) : Option Refusal :=
  match result.status with
  | .unresolved => some { statusCode := 409, detail := STILL_UNRESOLVED }
  | .krakenUnavailable => some { statusCode := 503, detail := UNREAD }
  | _ => none

/-! ## The routes -/

/-- `POST /invest`. -/
def investNow : Except Exn EvaluationResult → Response
  | .error e => unhandled (evaluationErrors e)
  | .ok result =>
      match unfinished result with
      | some refused => .refused refused
      | none => .invested {
          status := result.status, preview := result.preview
          legs := result.legs.map legOut, messages := result.messages }

/-- `_out`. -/
def rebalanceOut (result : EvaluationResult) (proposal : Option Proposal) : RebalanceOut :=
  { status := result.status, legs := result.legs.map legOut
    proposal := proposal.map proposalOut, messages := result.messages }

/-- `POST /rebalance`. -/
def rebalance : Except Exn (EvaluationResult × Option Proposal) → Response
  | .error e => unhandled (evaluationErrors e)
  | .ok (result, proposal) =>
      match unfinished result with
      | some refused => .refused refused
      | none => .rebalanced (rebalanceOut result proposal)

/-- `POST /proposal/approve`. -/
def approveProposal : Except Exn (EvaluationResult × Option Proposal) → Response
  | .error .noProposal => .refused { statusCode := 404, detail := NO_PROPOSAL }
  | .error (.staleVersion current) =>
      .refused { statusCode := 409, detail := STALE_VERSION, proposal := some (proposalOut current) }
  | .error e => unhandled (evaluationErrors e)
  | .ok (result, proposal) =>
      match unfinished result with
      | some refused => .refused refused
      | none =>
          if result.status = .superseded then
            .refused {
              statusCode := 409, detail := PLAN_CHANGED
              proposal := proposal.map proposalOut, messages := result.messages }
          else .rebalanced (rebalanceOut result proposal)

/-- `DELETE /proposal`. -/
def withdrawProposal : Except Exn Bool → Response
  | .error (.staleVersion current) =>
      .refused { statusCode := 409, detail := STALE_VERSION, proposal := some (proposalOut current) }
  | .error e => unhandled e
  | .ok withdrawn => if withdrawn then .noContent else unhandled (.http 404 NO_PROPOSAL)

/-- How a call of a request ended, as its route reads it. -/
def ended {α : Type} (read : Outcome → Option α) : Except Exn Outcome → Option (Except Exn α)
  | .ok outcome => (read outcome).map Except.ok
  | .error e => some (.error e)

/-- The answer to a request. The scheduler's calls have none. -/
def respond : Request → Except Exn Outcome → Option Response
  | .invest _ .api, called =>
      (ended (fun | .evaluated result => some result | _ => none) called).map investNow
  | .propose .api, called =>
      (ended (fun | .rebalanced result proposal => some (result, proposal) | _ => none) called).map rebalance
  | .approve _, called =>
      (ended (fun | .rebalanced result proposal => some (result, proposal) | _ => none) called).map
        approveProposal
  | .withdraw _, called => (ended (fun | .withdrawn done => some done | _ => none) called).map withdrawProposal
  | _, _ => none

end Coinpilot.Api
