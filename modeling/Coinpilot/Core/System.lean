import Coinpilot.Core.Transactions
import Coinpilot.Exchange.Remote
import Coinpilot.Lib.Program

/-!
# The world of an evaluation

What the calls of one user do to the world outside them: transactions, HTTP exchanges with Kraken,
the user's lock and the clock (`Op`). A call is a `Work`, with the variables its closures share as
locals. `system` says how the world answers. Every transaction is one step, and so is each exchange
with Kraken; in between, other calls of the user may take theirs, the clock may advance, and the
user's configuration and snapshots may change.

With `honest`, Kraken is as `Answers`, `Evolves` and `Timely` assume; without it, it may answer
anything.
-/

set_option autoImplicit false

namespace Coinpilot.Core

open Coinpilot.Lib Coinpilot.Lib.Program Coinpilot.Exchange Coinpilot.Engine

/-! ## Results and locals -/

inductive LegStatus where
  | filled
  | failed
  | pending
  | skipped
  | validated
  | rejected
  | unchecked
  deriving DecidableEq, Repr

def LegStatus.value : LegStatus → String
  | .filled => "FILLED"
  | .failed => "FAILED"
  | .pending => "PENDING"
  | .skipped => "SKIPPED"
  | .validated => "VALIDATED"
  | .rejected => "REJECTED"
  | .unchecked => "UNCHECKED"

structure LegResult where
  asset : String
  pair : String
  side : Side
  amountFiat : Decimal
  minimumFiat : Option Decimal
  status : LegStatus
  clOrdId : Option String := none
  txid : Option String := none
  cost : Option PyDecimal := none
  executedVolume : Option PyDecimal := none
  executedPrice : Option PyDecimal := none
  fee : Option PyDecimal := none
  error : Option String := none
  note : Option String := none
  volume : Option Decimal := none
  deriving DecidableEq, Repr

structure EvaluationResult where
  status : EvaluationStatus
  preview : Bool
  legs : List LegResult := []
  messages : List String := []
  lookupFailed : Bool := false
  deriving DecidableEq, Repr

/-- The variables of one call that outlive an exception: the log, the results so far, whether a
lookup failed, whether the snapshot was pinned, and whether an approval went through. -/
structure Locals where
  log : List String := []
  legs : List LegResult := []
  blocked : List Bool := []
  pinned : Bool := false
  executing : Bool := false
  deriving DecidableEq, Repr

/-! ## Operations -/

inductive Op where
  | now
  | newUuid
  | unseal (sealed : Sealed)
  | tx (t : Txn)
  | post (r : PrivateCall)
  | assetNames
  | assetPairs
  | ticker (pairs : List String)
  | assetDecimals
  | tryLock
  | unlock

/-- What each operation answers. Kraken's public side answers a value object, `none` where it could
not be asked, or raises. -/
def Ans : Op → Type
  | .now => Int
  | .newUuid => String
  | .unseal _ => Except Exn Unit
  | .tx t => Except Exn t.Ans
  | .post _ => HttpOutcome
  | .assetNames => Except Exn (Option (Dict String String))
  | .assetPairs => Except Exn (Option (Dict String PairMeta))
  | .ticker _ => Except Exn (Option (Dict String Decimal))
  | .assetDecimals => Except Exn (Option (Dict String Int))
  | .tryLock => Except Exn Bool
  | .unlock => Except Exn Unit

/-- The code of one call. -/
abbrev Work : Type → Type := Proc Op Ans Locals Exn

/-- One `with sessions()` block. -/
def transact (t : Txn) : Work t.Ans := attempt (Op.tx t) fun (b : Ans (Op.tx t)) => b

/-- `context.now()`. -/
def currentTime : Work Int := (perform Op.now : Work (Ans Op.now))

def logLines (lines : List String) : Work Unit :=
  modifyLocals fun l => { l with log := l.log ++ lines }

def addLeg (r : LegResult) : Work Unit := modifyLocals fun l => { l with legs := l.legs ++ [r] }

/-- Kraken's asset names, from the catalog. -/
def assetNames : Work (Option (Dict String String)) :=
  attempt Op.assetNames fun (b : Ans Op.assetNames) => b

/-- Kraken's pairs, from the catalog. -/
def assetPairs : Work (Option (Dict String PairMeta)) :=
  attempt Op.assetPairs fun (b : Ans Op.assetPairs) => b

/-- The places of Kraken's ledger, from the catalog. -/
def assetDecimals : Work (Option (Dict String Int)) :=
  attempt Op.assetDecimals fun (b : Ans Op.assetDecimals) => b

/-- The last traded price of each pair. -/
def ticker (pairs : List String) : Work (Option (Dict String Decimal)) :=
  attempt (Op.ticker pairs) fun (b : Ans (Op.ticker pairs)) => b

/-- The client of the user's key. -/
def privateClient : KrakenClient Work where
  post r := (perform (Op.post r) : Work (Ans (Op.post r)))
  raise e := throw (.python e)

/-- The calls of one user. -/
inductive Request where
  | invest (preview : Bool) (trigger : Trigger)
  | propose (trigger : Trigger)
  | approve (version : Int)
  | rebalanceNow
  | withdraw (version : Int)
  deriving DecidableEq, Repr

/-! ## The world -/

structure World where
  db : Db
  lock : Option Nat
  clock : Int
  remote : List RemoteOrder

/-- A transaction commits, or raises and changes nothing. The database may fail at any time. -/
def transacted (t : Txn) (w : World) (b : Except Exn t.Ans) (w' : World) : Prop :=
  (∃ e, b = .error e ∧ (e = .database ∨ t.run w.clock w.db = .error e) ∧ w' = w) ∨
    ∃ a db, t.run w.clock w.db = .ok (a, db) ∧ b = .ok a ∧ w' = { w with db }

/-- When the attempt of a client id was written down. -/
def attemptedAt (w : World) (clOrdId : String) : Int :=
  ((w.db.ledger.getByClOrdId clOrdId).map Order.attemptedAt).getD w.clock

/-- An exchange with Kraken. -/
def exchanged (honest : Prop) (r : PrivateCall) (w : World) (answer : HttpOutcome) (w' : World) :
    Prop :=
  ∃ remote, w' = { w with remote } ∧
    (honest → Answers (attemptedAt w) r w.remote answer remote ∧ Timely ABSENCE_GRACE w.clock remote)

/-- How the world answers thread `i`. -/
def answered (honest : Prop) (i : Nat) : (o : Op) → World → Ans o → World → Prop
  | .now, w, b, w' => b = w.clock ∧ w' = w
  | .tx t, w, b, w' => transacted t w b w'
  | .post r, w, b, w' => exchanged honest r w b w'
  | .tryLock, w, b, w' =>
      (b = .ok true ∧ w.lock = none ∧ w' = { w with lock := some i }) ∨
        ((b = .ok false ∧ w.lock ≠ none ∨ ∃ e, b = .error e) ∧ w' = w)
  | .unlock, w, b, w' =>
      w' = { w with lock := if w.lock = some i then none else w.lock } ∨
        ((∃ e, b = .error e) ∧ w' = w)
  | _, w, _, w' => w' = w

/-- What happens between two operations: the clock advances, the configuration and the snapshots may
change, and Kraken's orders move on. -/
structure Between (honest : Prop) (w w' : World) : Prop where
  ledger : w'.db.ledger = w.db.ledger
  proposal : w'.db.proposal = w.db.proposal
  sessions : w'.db.sessions = w.db.sessions
  lock : w'.lock = w.lock
  clock : w.clock ≤ w'.clock
  remote : honest → Evolves w.remote w'.remote ∧ Timely ABSENCE_GRACE w'.clock w'.remote

/-- The calls of one user against the world. A process that dies loses its connection, and the lock
goes with it. -/
def system (honest : Prop) : Semantics Op Ans Request World where
  step i _ o := answered honest i o
  env := Between honest
  died i w := { w with lock := if w.lock = some i then none else w.lock }

end Coinpilot.Core
