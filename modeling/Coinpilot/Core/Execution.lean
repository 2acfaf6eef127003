import Coinpilot.Core.Settlement
import Coinpilot.Core.Reading

/-!
# Placing orders

The one place that does. An evaluation takes the user's lock, resolves what is unknown, reads and
plans, lets the caller's decision judge, and sends what it lets through: sells first, then buys inside
what there is to spend. The row of an attempt is committed before its order is sent.
-/

set_option autoImplicit false

namespace Coinpilot.Core

open Coinpilot.Lib Coinpilot.Lib.Program Coinpilot.Exchange Coinpilot.Engine

/-- Once the plan is known: `none` sends it, and a status ends the evaluation. -/
abbrev Decision : Type := Planned → Work (Option EvaluationStatus)

def UNRESOLVED_MESSAGE : String := "an earlier order is still unresolved; nothing was computed"

/-! ## Planning -/

/-- Read the account, run the engine, and size each leg against Kraken's minimum. -/
def plan (account : Account) : Work Planned := do
  let view ← readPortfolio account.fiat account.targets
  match view.unpriced with
  | asset :: _ => throw (.portfolioUnavailable ("a price for " ++ asset))
  | [] =>
      let metas ← orUnavailable "asset pairs" (← assetPairs)
      let decimals ← assetDecimals
      let places ← orUnavailable "asset decimals" ((decimals.getD Dict.empty).get? account.fiat)
      fromExcept (planLegs account view metas places)

/-! ## One leg -/

def skipped (leg : PlannedLeg) (note : String) : LegResult :=
  { asset := leg.asset, pair := leg.pair, side := leg.side, amountFiat := leg.amount
    minimumFiat := leg.minimum, status := .skipped, note := some note, volume := leg.volume }

/-- `LegStatus(order.status)`. -/
def LegStatus.ofOrder : OrderStatus → LegStatus
  | .pending => .pending
  | .filled => .filled
  | .failed => .failed

def fromRow (leg : PlannedLeg) (order : Order) : LegResult :=
  { asset := leg.asset, pair := leg.pair, side := leg.side, amountFiat := leg.amount
    minimumFiat := leg.minimum, status := .ofOrder order.status, clOrdId := some order.clOrdId
    txid := order.txid, cost := order.cost, executedVolume := order.executedVolume
    executedPrice := order.executedPrice, fee := order.fee, error := order.error
    volume := leg.volume }

def describe (leg : LegResult) (fiat : String) : String :=
  leg.asset ++ ": " ++ leg.side.value ++ " of " ++ plainAmount leg.amountFiat ++ " " ++ fiat ++ " " ++
    leg.status.value ++ ((leg.error.filter (· ≠ "")).map fun e => " (" ++ e ++ ")").getD "" ++
    ((leg.note.filter (· ≠ "")).map fun n => ": " ++ n).getD ""

/-- A buy is an amount of fiat; a sell is a volume of the asset. -/
def place (leg : PlannedLeg) (clOrdId : String) (validate : Bool) : Work Placement :=
  match leg.side with
  | .buy => addOrder privateClient leg.pair "buy" leg.amount clOrdId true validate
  | .sell =>
      match leg.volume with
      | some volume => addOrder privateClient leg.pair "sell" volume clOrdId false validate
      | none => throw (.python .typeError)

/-- What is written down of the answer to a placement. -/
def recordPlacement (clOrdId : String) (placement : Placement) : Work Unit :=
  match placement.outcome, placement.txid with
  | .refused, _ => transact (.markFailed clOrdId placement.error)
  | .sent, some txid => do
      transact (.markSent clOrdId txid)
      let lookup ← findOrderByTxid privateClient txid
      let _ : OrderStatus ← transact (.settle clOrdId lookup)
  | _, _ => return ()

/-- `new_cl_ord_id()`. -/
def newClOrdId : Work String := (perform Op.newUuid : Work (Ans Op.newUuid))

def send (id : Nat) (leg : PlannedLeg) (reason : OrderReason) : Work LegResult := do
  let clOrdId ← newClOrdId
  let attemptedAt ← currentTime
  transact (.recordAttempt clOrdId leg reason attemptedAt id)
  -- Committed. From here a lost answer leaves a row to resolve, not a gap.
  let placement ← place leg clOrdId false
  recordPlacement clOrdId placement
  let order : Option Order ← transact (.getByClOrdId clOrdId)
  match order with
  | some order => return fromRow leg order
  | none => throw (.python .attributeError)

/-- Pin the evaluation's snapshot once, just before its first order is sent. -/
def pin (snapshot : Nat) : Work Unit := do
  let l ← getLocals
  if l.pinned then return ()
  else
    transact (.pinSnapshot snapshot)
    modifyLocals fun l => { l with pinned := true }

/-- Send one leg unless it is skipped or an earlier answer was lost. Returns `stopped`. -/
def attemptLeg (id : Nat) (leg : PlannedLeg) (reason : OrderReason) (stopped : Bool) (snapshot : Nat) :
    Work (LegResult × Bool) :=
  match leg.note with
  | some note => return (skipped leg note, stopped)
  | none =>
      if stopped then return (skipped leg "not sent: an earlier order's answer is unknown", true)
      else do
        pin snapshot
        let result ← send id leg reason
        -- An unknown answer leaves no txid. The balance is ambiguous until resolved.
        return (result, result.status = .pending && result.txid = none)

/-! ## The budget -/

/-- Add what a sell raised. `none` is a NaN, which stays one. -/
def addRaised (budget : Option Rat) : PyDecimal → Option Rat
  | .finite d => budget.map (· + d.value)
  | _ => none

/-- What one sell adds to the budget: nothing unless it filled. -/
def afterSell (places : Int) (result : LegResult) (budget : Option Rat) : Except PyError (Option Rat) :=
  if result.status = .filled then
    (creditedAmount (result.cost.getD (.finite .zero)) (result.fee.getD (.finite .zero)) places).map
      (addRaised budget)
  else .ok budget

/-- One buy, shrunk by a factor. A buy that shrinks below its minimum is skipped. -/
def shrink (factor : Rat) (fiat : String) (leg : PlannedLeg) : PlannedLeg :=
  match hn : leg.note, hm : leg.pairMeta, hl : leg.minimum with
  | none, some m, some least =>
      let amount := roundCost m (leg.amount.value * factor)
      if h : amount.value < least.value then
        { leg with
          amount
          note := some ("after the sells, " ++ plainAmount amount ++ " " ++ fiat ++
            " is below the minimum of " ++ plainAmount least ++ " " ++ fiat)
          sized := nofun }
      else
        { leg with
          amount
          sized := fun hnote => by
            obtain ⟨m', least', hm', hl', -, -, hv⟩ := leg.sized hnote
            rw [hm] at hm'
            obtain rfl := Option.some.inj hm'
            rw [hl] at hl'
            obtain rfl := Option.some.inj hl'
            exact ⟨m, least, hm, hl, not_lt.mp h, onGrid_roundCost m _, hv⟩ }
  | _, _, _ => leg

/-- What the buys ask for together. -/
def asked (buys : List PlannedLeg) : Rat :=
  ((buys.filter fun leg => leg.note = none).map fun leg => leg.amount.value).sum

/-- The buys, shrunk in proportion when together they ask for more than the budget. -/
def within (buys : List PlannedLeg) (budget : Option Rat) (fiat : String) :
    Except PyError (List PlannedLeg) :=
  match budget with
  | none => .error .invalidOperation
  | some budget =>
      if asked buys ≤ budget then .ok buys
      else if asked buys = 0 then .error .divisionByZero
      else .ok (buys.map (shrink (budget / asked buys) fiat))

/-! ## Sending -/

/-- Send one leg, and keep and log its result. -/
def sendLeg (id : Nat) (leg : PlannedLeg) (reason : OrderReason) (fiat : String) (stopped : Bool)
    (snapshot : Nat) : Work (LegResult × Bool) := do
  let (result, stopped) ← attemptLeg id leg reason stopped snapshot
  addLeg result
  logLines [describe result fiat]
  return (result, stopped)

/-- The loop over the sells, which adds to the budget what each of them raised. -/
def sendSells (id : Nat) (reason : OrderReason) (fiat : String) (snapshot : Nat) (places : Int) :
    List PlannedLeg → Bool → Option Rat → Work (Bool × Option Rat)
  | [], stopped, budget => return (stopped, budget)
  | leg :: rest, stopped, budget => do
      let (result, stopped) ← sendLeg id leg reason fiat stopped snapshot
      match afterSell places result budget with
      | .error e => throw (.python e)
      | .ok budget => sendSells id reason fiat snapshot places rest stopped budget

/-- The loop over the buys. -/
def sendBuys (id : Nat) (reason : OrderReason) (fiat : String) (snapshot : Nat) :
    List PlannedLeg → Bool → Work Bool
  | [], stopped => return stopped
  | leg :: rest, stopped => do
      let (_, stopped) ← sendLeg id leg reason fiat stopped snapshot
      sendBuys id reason fiat snapshot rest stopped

/-- The legs of one side. -/
def Planned.ofSide (planned : Planned) (side : Side) : List PlannedLeg :=
  planned.legs.filter fun leg => leg.side = side

/-- Sells first, then the buys inside what there is to spend. True when an unknown answer stopped
it. -/
def sendAll (id : Nat) (planned : Planned) (reason : OrderReason) (fiat : String) (snapshot : Nat) :
    Work Bool := do
  let (stopped, budget) ← sendSells id reason fiat snapshot planned.fiatPlaces (planned.ofSide .sell)
    false (some planned.freeCash)
  match within (planned.ofSide .buy) budget fiat with
  | .error e => throw (.python e)
  | .ok buys => sendBuys id reason fiat snapshot buys stopped

/-! ## One evaluation -/

/-- The status of an evaluation that sent its plan. -/
def statusOf (stopped : Bool) (legs : List LegResult) : EvaluationStatus :=
  if stopped then .stopped
  else if legs.any fun leg => leg.status = .failed then .partly
  else if legs.any fun leg => leg.status ≠ .skipped then .done
  else .nothingToDo

/-- `_evaluate`: resolve, plan, decide, and send. -/
def evaluateSteps (id : Nat) (account : Account) (reason : OrderReason) (decide : Decision) :
    Work EvaluationStatus := do
  let now ← currentTime
  let resolution ← resolvePending now
  logLines resolution.messages
  if resolution.clear then
    let planned ← plan account
    let asOf ← currentTime
    let snapshot : Nat ← transact
      (.keepSnapshot asOf account.fiat planned.view.managedValue planned.view.cash.value
        planned.view.snapshotJson)
    match ← decide planned with
    | some verdict => return verdict
    | none =>
        let stopped ← sendAll id planned reason account.fiat snapshot
        let l ← getLocals
        if l.legs = [] ∧ stopped = false then
          logLines ["the plan has no orders; nothing was sent"]
        return statusOf stopped l.legs
  else
    logLines [UNRESOLVED_MESSAGE]
    modifyLocals fun l => { l with blocked := l.blocked ++ [resolution.lookupFailed] }
    return .unresolved

/-- The status of the steps, or the exception that ended them. A read of Kraken that failed is a
status. -/
def caught (m : Work EvaluationStatus) : Work (Except Exn EvaluationStatus) :=
  tryCatch' (do return .ok (← m)) fun e =>
    match e with
    | .portfolioUnavailable what => do
        logLines ["kraken did not return " ++ what ++ "; nothing was sent"]
        return .ok .krakenUnavailable
    | e => return .error e

/-- `"\n".join(log) or None`. -/
def logText (log : List String) : Option String :=
  let text := "\n".intercalate log
  if text = "" then none else some text

/-- The status that is recorded: `ERROR` when an exception escapes. -/
def recordedStatus : Except Exn EvaluationStatus → EvaluationStatus
  | .ok status => status
  | .error _ => .error

/-- `_run`: the record of an evaluation around its steps. It is closed whatever happened. -/
def runEvaluation (account : Account) (reason : OrderReason) (decide : Decision)
    (operation : Operation) (trigger : Trigger) : Work EvaluationResult := do
  let startedAt ← currentTime
  let id : Nat ← transact (.startEvaluation operation trigger startedAt)
  let outcome ← caught (evaluateSteps id account reason decide)
  let finishedAt ← currentTime
  let l ← getLocals
  transact (.finishEvaluation id (recordedStatus outcome) finishedAt (logText l.log))
  let status ← fromExcept outcome
  return { status, preview := false, legs := l.legs, messages := l.log
           lookupFailed := l.blocked.any fun b => b }

/-- `with context.user_lock(user_id)`: the body runs if the lock was taken, and gives it back. -/
def withLock {α : Type} (body : Work α) : Work α := do
  let taken ← attempt Op.tryLock fun (b : Ans Op.tryLock) => b
  if taken then tryFinally body (attempt Op.unlock fun (b : Ans Op.unlock) => b)
  else throw .evaluationBusy

/-- `context.kraken_for(user_id, context.cipher.unseal(user_id, sealed))`. -/
def krakenFor (sealed : Sealed) : Work Unit := attempt (Op.unseal sealed) fun (b : Ans (Op.unseal sealed)) => b

/-- Lock, resolve, read and plan; then let `decide` judge, and send what it lets through. -/
def evaluate (allowSells : Bool) (reason : OrderReason) (decide : Decision) (operation : Operation)
    (trigger : Trigger) : Work EvaluationResult := do
  let account : Account ← transact (.load allowSells)
  krakenFor account.sealed
  withLock (runEvaluation account reason decide operation trigger)

/-! ## Investing -/

/-- An investment needs no approval. -/
def sendIt : Decision := fun _ => return none

/-- A scheduled investment reads the settings again. -/
def stillScheduled : Decision := fun _ => do
  let settings : Option UserSettings ← transact .readSettings
  match settings.filter UserSettings.investCashEnabled with
  | none =>
      logLines ["investing was switched off; nothing was sent"]
      return some .nothingToDo
  | some s =>
      if s.paused then
        logLines ["scheduled operations are paused; nothing was sent"]
        return some .nothingToDo
      else return none

/-- One leg of a preview, validated by Kraken. -/
def previewLeg (leg : PlannedLeg) : Work LegResult :=
  match leg.note with
  | some note => return skipped leg note
  | none => do
      let clOrdId ← newClOrdId
      let placement ← place leg clOrdId true
      let status := match placement.outcome with
        | .validated => LegStatus.validated
        | .refused => .rejected
        | _ => .unchecked
      return { asset := leg.asset, pair := leg.pair, side := leg.side, amountFiat := leg.amount
               minimumFiat := leg.minimum, status, error := placement.error }

/-- The legs of a preview. -/
def previewLegs : List PlannedLeg → Work (List LegResult)
  | [] => return []
  | leg :: rest => do
      let result ← previewLeg leg
      let others ← previewLegs rest
      return result :: others

/-- The plan of a preview, or the read that failed. -/
def caughtPlan (account : Account) : Work (Except String Planned) :=
  tryCatch' (do return .ok (← plan account)) fun e =>
    match e with
    | .portfolioUnavailable what => return .error what
    | e => throw e

/-- Read, plan and have Kraken validate. Writes nothing, takes no lock, resolves nothing. -/
def previewInvestment (account : Account) : Work EvaluationResult := do
  let unresolved : Bool ← transact .hasUnresolved
  if unresolved then
    return { status := .unresolved, preview := true, messages := [UNRESOLVED_MESSAGE] }
  else
    match ← caughtPlan account with
    | .error what =>
        return { status := .krakenUnavailable, preview := true
                 messages := ["kraken did not return " ++ what] }
    | .ok planned => do
        let legs ← previewLegs planned.legs
        return { status := .preview, preview := true, legs }

/-- Invest the user's free cash now or, with `preview`, say what that would do. -/
def invest (preview : Bool) (trigger : Trigger) : Work EvaluationResult :=
  if preview then do
    let account : Account ← transact (.load false)
    krakenFor account.sealed
    previewInvestment account
  else
    evaluate false .invest (if trigger = .scheduler then stillScheduled else sendIt) .invest trigger

end Coinpilot.Core
