import Coinpilot.Exchange.Orders
import Coinpilot.Core.Portfolio

/-!
# The rows of one user

The tables an evaluation reads and writes, restricted to one user, and what a column accepts.
Times are microseconds. A ledger is a list of rows in the order they were written, and its client
ids are distinct, as the column's unique constraint has it (`Ledger`).
-/

set_option autoImplicit false

namespace Coinpilot.Core

open Coinpilot.Lib Coinpilot.Exchange Coinpilot.Engine

/-! ## Settings and credentials -/

structure UserSettings where
  fiat : String
  investCashEnabled : Bool
  cashRebalanceEnabled : Bool
  autoRebalanceEnabled : Bool
  minDriftPct : Decimal
  minOrderFiat : Decimal
  paused : Bool
  deriving DecidableEq, Repr

/-- One managed asset. A target of zero says *exit this position*. -/
structure AssetConfig where
  asset : String
  pair : String
  targetPct : Decimal
  deriving DecidableEq, Repr

/-- A sealed Kraken key. -/
structure Sealed where
  ciphertext : List UInt8
  nonce : List UInt8
  keyVersion : Int
  deriving DecidableEq, Repr

/-! ## Orders -/

/-- `pending` is written before `AddOrder` is called and means the outcome is unknown. -/
inductive OrderStatus where
  | pending
  | filled
  | failed
  deriving DecidableEq, Repr

def OrderStatus.value : OrderStatus → String
  | .pending => "PENDING"
  | .filled => "FILLED"
  | .failed => "FAILED"

/-- Which operation asked for the order. -/
inductive OrderReason where
  | invest
  | rebalance
  deriving DecidableEq, Repr

structure Order where
  sessionId : Option Nat
  clOrdId : String
  txid : Option String
  pair : String
  asset : String
  side : Side
  reason : OrderReason
  status : OrderStatus
  requestedFiat : PyDecimal
  executedVolume : Option PyDecimal
  executedPrice : Option PyDecimal
  fee : Option PyDecimal
  cost : Option PyDecimal
  error : Option String
  attemptedAt : Int
  createdAt : Int
  deriving DecidableEq, Repr

/-- The order ledger, in the order of `seq`. -/
structure Ledger where
  rows : List Order
  unique : (rows.map Order.clOrdId).Nodup
  deriving DecidableEq

/-! ## The proposal -/

inductive ProposalStatus where
  | executing
  | executed
  | live
  | withdrawn
  deriving DecidableEq, Repr

inductive ProposalTrigger where
  | manual
  | scheduled
  deriving DecidableEq, Repr

/-- One leg of a stored plan. Every amount is a string. -/
structure DocumentLeg where
  asset : String
  pair : String
  side : String
  amountFiat : String
  minimumFiat : Option String
  note : Option String
  deriving DecidableEq, Repr

/-- A rebalance plan as the proposal stores it. -/
structure Document where
  fiat : String
  legs : List DocumentLeg
  deriving DecidableEq, Repr

/-- The one proposal of a user. -/
structure Proposal where
  version : Int
  plan : Document
  trigger : ProposalTrigger
  status : ProposalStatus
  deriving DecidableEq, Repr

/-! ## Telemetry -/

/-- What an evaluation was for. -/
inductive Operation where
  | invest
  | propose
  | approve
  | rebalance
  deriving DecidableEq, Repr

/-- Who started an evaluation. -/
inductive Trigger where
  | api
  | scheduler
  deriving DecidableEq, Repr

inductive EvaluationStatus where
  | done
  | nothingToDo
  | stopped
  | unresolved
  | krakenUnavailable
  | preview
  | error
  | partly
  | proposed
  | superseded
  deriving DecidableEq, Repr

/-- One evaluation. It runs until it has a status. -/
structure EvaluationSession where
  operation : Operation
  trigger : Trigger
  startedAt : Int
  status : Option EvaluationStatus
  finishedAt : Option Int
  durationMs : Option Int
  logMessages : Option String
  deriving DecidableEq, Repr

structure PortfolioSnapshot where
  asOf : Int
  fiat : String
  totalValue : PyDecimal
  cash : PyDecimal
  holdings : SnapshotJson
  pinned : Bool
  deriving DecidableEq

/-- The rows of one user. -/
structure Db where
  settings : Option UserSettings
  credentials : Option Sealed
  assets : List AssetConfig
  ledger : Ledger
  proposal : Option Proposal
  sessions : List EvaluationSession
  snapshots : List PortfolioSnapshot
  deriving DecidableEq

/-! ## Exceptions and columns -/

/-- The exceptions an operation can end in. -/
inductive Exn where
  | python (e : PyError)
  | database
  | unpriced (e : UnpricedAsset)
  | portfolioUnavailable (what : String)
  | notReady (message : String)
  | evaluationBusy
  | credentialsUnreadable
  | noProposal
  | staleVersion (current : Proposal)
  | http (status : Nat) (detail : String)
  deriving DecidableEq, Repr

/-- `Numeric(24, 12)`: twelve places, half away from zero, and twelve integer digits. -/
def amountColumn : PyDecimal → Except Exn PyDecimal
  | .finite d =>
      let q := Decimal.quantize d.value 12 .halfUp
      if |q.coeff| < 10 ^ 24 then .ok (.finite q) else .error .database
  | .infinite _ => .error .database
  | .nan => .ok .nan

/-- `String(n)`. -/
def textColumn (n : Nat) (s : String) : Except Exn String :=
  if s.length ≤ n then .ok s else .error .database

end Coinpilot.Core
