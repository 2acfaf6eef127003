import Coinpilot.Core.Settle
import Coinpilot.Core.Decide
import Coinpilot.Core.Db.Telemetry

/-!
# The transactions of an evaluation

One constructor for each `with sessions()` block of the executor and of the rebalance, and for each
query of the configuration that a request's own session makes, and what it does to the rows of the
user (`Txn.run`). A block commits as a whole, and one that raises changes
nothing. `now` is the database's clock.
-/

set_option autoImplicit false

namespace Coinpilot.Core

open Coinpilot.Lib Coinpilot.Exchange Coinpilot.Engine

inductive Txn where
  | load (allowSells : Bool)
  | readSettings
  | readCredentials
  | listAssets
  | startEvaluation (operation : Operation) (trigger : Trigger) (startedAt : Int)
  | pendingOrders
  | settle (clOrdId : String) (lookup : Option OrderLookup)
  | keepSnapshot (asOf : Int) (fiat : String) (totalValue cash : Rat) (holdings : SnapshotJson)
  | decidePropose (planned : Planned) (trigger : ProposalTrigger)
  | decideApprove (version : Int) (planned : Planned)
  | decideRebalance
  | pinSnapshot (id : Nat)
  | recordAttempt (clOrdId : String) (leg : PlannedLeg) (reason : OrderReason) (attemptedAt : Int)
      (sessionId : Nat)
  | markFailed (clOrdId : String) (error : Option String)
  | markSent (clOrdId txid : String)
  | getByClOrdId (clOrdId : String)
  | finishEvaluation (id : Nat) (status : EvaluationStatus) (finishedAt : Int) (log : Option String)
  | liveProposal
  | setExecuted
  | withdraw (version : Int)
  | hasUnresolved

/-- What a block gives to the code after it. -/
@[reducible]
def Txn.Ans : Txn → Type
  | .load _ => Account
  | .readSettings => Option UserSettings
  | .readCredentials => Option Sealed
  | .listAssets => List Target
  | .startEvaluation .. => Nat
  | .pendingOrders => List Order
  | .settle .. => OrderStatus
  | .keepSnapshot .. => Nat
  | .decidePropose .. => Option EvaluationStatus × List String
  | .decideApprove .. => Option EvaluationStatus × List String
  | .decideRebalance => Option EvaluationStatus × List String
  | .getByClOrdId _ => Option Order
  | .liveProposal => Option Proposal
  | .withdraw _ => Bool
  | .hasUnresolved => Bool
  | _ => Unit

/-- The user's assets in the order of their codes. -/
def configuredAssets (db : Db) : List Target :=
  (db.assets.insertionSort fun a b => a.asset ≤ b.asset).map fun row =>
    ⟨row.asset, row.pair, row.targetPct⟩

/-- `_load`: what an evaluation needs of the configuration. -/
def loadAccount (db : Db) (allowSells : Bool) : Except Exn Account :=
  match db.settings with
  | none => .error (.notReady "choose a fiat with PATCH /api/config first")
  | some settings =>
      match db.credentials with
      | none => .error (.notReady "register a Kraken key with POST /api/credentials first")
      | some sealed => .ok {
          fiat := settings.fiat
          policy := {
            allowSells
            cashPolicy := if settings.cashRebalanceEnabled then .reduceDrift else .prorata
            minDriftPct := settings.minDriftPct.value
            -- The executor applies the user's floor beside Kraken's minimum.
            minOrderFiat := 0 }
          floor := settings.minOrderFiat
          targets := configuredAssets db
          sealed }

/-- An amount of the portfolio as its column keeps it. -/
def ratColumn (q : Rat) : Except Exn PyDecimal := amountColumn (.finite (Decimal.quantize q 12 .halfUp))

/-- A decision's exceptions are the language's. -/
def fromPython {α : Type} : Except PyError α → Except Exn α
  | .ok a => .ok a
  | .error e => .error (.python e)

def Txn.run : (t : Txn) → Int → Db → Except Exn (t.Ans × Db)
  | .load allowSells, _, db => (loadAccount db allowSells).map fun a => (a, db)
  | .readSettings, _, db => .ok (db.settings, db)
  | .readCredentials, _, db => .ok (db.credentials, db)
  | .listAssets, _, db => .ok (configuredAssets db, db)
  | .startEvaluation operation trigger startedAt, _, db =>
      let (sessions, id) := Core.startEvaluation db.sessions operation trigger startedAt
      .ok (id, { db with sessions })
  | .pendingOrders, _, db => .ok (db.ledger.pendingOrders, db)
  | .settle clOrdId lookup, _, db => do
      let (status, ledger) ← Core.settle db.ledger clOrdId lookup
      return (status, { db with ledger })
  | .keepSnapshot asOf fiat totalValue cash holdings, _, db => do
      let fiat ← textColumn 8 fiat
      let totalValue ← ratColumn totalValue
      let cash ← ratColumn cash
      let (snapshots, id) := Core.keepSnapshot db.snapshots ⟨asOf, fiat, totalValue, cash, holdings, false⟩
      return (id, { db with snapshots })
  | .decidePropose planned trigger, _, db => do
      let document := planDocument planned.view.fiat planned.legs
      let (status, proposal, lines) ← fromPython (Core.decidePropose db.proposal document trigger)
      return ((status, lines), { db with proposal })
  | .decideApprove version planned, _, db => do
      let document := planDocument planned.view.fiat planned.legs
      let (status, proposal, lines) ← fromPython (Core.decideApprove db.proposal version document)
      return ((status, lines), { db with proposal })
  | .decideRebalance, _, db =>
      let (status, proposal, lines) := Core.decideRebalance db.settings db.proposal
      .ok ((status, lines), { db with proposal })
  | .pinSnapshot id, _, db => .ok ((), { db with snapshots := Core.pinSnapshot db.snapshots id })
  | .recordAttempt clOrdId leg reason attemptedAt sessionId, now, db => do
      let ledger ← db.ledger.recordAttempt now clOrdId leg.pair leg.asset leg.side reason leg.amount
        attemptedAt sessionId
      return ((), { db with ledger })
  | .markFailed clOrdId error, _, db =>
      .ok ((), { db with ledger := db.ledger.markFailed clOrdId error })
  | .markSent clOrdId txid, _, db => do
      let ledger ← db.ledger.markSent clOrdId txid
      return ((), { db with ledger })
  | .getByClOrdId clOrdId, _, db => .ok (db.ledger.getByClOrdId clOrdId, db)
  | .finishEvaluation id status finishedAt log, _, db =>
      .ok ((), { db with sessions := Core.finishEvaluation db.sessions id status finishedAt log })
  | .liveProposal, _, db => .ok (getLiveProposal db.proposal, db)
  | .setExecuted, _, db => .ok ((), { db with proposal := setStatus db.proposal .executed })
  | .withdraw version, _, db => do
      let (withdrawn, proposal) ← withdrawVersion db.proposal version
      return (withdrawn, { db with proposal })
  | .hasUnresolved, _, db => .ok (db.ledger.hasUnresolved, db)

/-! ## The blocks that write order rows -/

theorem settle_run {c : String} {k : Option OrderLookup} {now : Int} {db db' : Db} {s : OrderStatus}
    (h : (Txn.settle c k).run now db = .ok (s, db')) :
    ∃ l, Settled db.ledger c k s l ∧ db' = { db with ledger := l } := by
  simp only [Txn.run, bind, Except.bind] at h
  split at h
  · cases h
  · rename_i r hr
    cases h
    exact ⟨_, settle_ok hr, rfl⟩

theorem recordAttempt_run {c : String} {leg : PlannedLeg} {reason : OrderReason} {at' : Int} {id : Nat}
    {now : Int} {db db' : Db} {u : Unit}
    (h : (Txn.recordAttempt c leg reason at' id).run now db = .ok (u, db')) :
    ∃ (l : Ledger) (o : Order), db' = { db with ledger := l } ∧ l.rows = db.ledger.rows ++ [o] ∧
      o.clOrdId = c ∧ o.unknown ∧ o.side = leg.side ∧ o.attemptedAt = at' ∧ o.sessionId = some id ∧
      ∀ o' ∈ db.ledger.rows, o'.clOrdId ≠ c := by
  simp only [Txn.run, bind, Except.bind] at h
  split at h
  · cases h
  · rename_i l hl
    cases h
    obtain ⟨o, ho⟩ := Ledger.recordAttempt_ok hl
    exact ⟨l, o, rfl, ho⟩

theorem markSent_run {c t : String} {now : Int} {db db' : Db} {u : Unit}
    (h : (Txn.markSent c t).run now db = .ok (u, db')) :
    ∃ l : Ledger, db' = { db with ledger := l } ∧
      l.rows = (db.ledger.modify c (fun o => { o with txid := some t }) fun _ => rfl).rows := by
  simp only [Txn.run, bind, Except.bind] at h
  split at h
  · cases h
  · rename_i l hl
    cases h
    exact ⟨l, rfl, Ledger.markSent_ok hl⟩

/-! ## The blocks that write the proposal -/

theorem fromPython_ok {α : Type} {x : Except PyError α} {a : α} (h : fromPython x = .ok a) : x = .ok a := by
  cases x with
  | ok b => exact congrArg Except.ok (Except.ok.inj h)
  | error e => cases h

/-- What the transaction of a proposal is. -/
theorem decidePropose_run {planned : Planned} {trigger : ProposalTrigger} {now : Int} {db db' : Db}
    {a : Option EvaluationStatus × List String}
    (h : (Txn.decidePropose planned trigger).run now db = .ok (a, db')) :
    ∃ lines, keep db.proposal (planDocument planned.view.fiat planned.legs) trigger =
      .ok (db'.proposal, lines) := by
  simp only [Txn.run, bind, Except.bind] at h
  split at h
  · cases h
  · rename_i r hr
    have hd := fromPython_ok hr
    unfold decidePropose at hd
    cases hk : keep db.proposal (planDocument planned.view.fiat planned.legs) trigger with
    | error e => rw [hk] at hd; cases hd
    | ok s =>
      rw [hk] at hd
      cases hd
      cases h
      exact ⟨_, rfl⟩

/-- A proposal's decision always ends the evaluation, with one of two statuses. -/
theorem decidePropose_some {planned : Planned} {trigger : ProposalTrigger} {now : Int} {db db' : Db}
    {a : Option EvaluationStatus × List String}
    (h : (Txn.decidePropose planned trigger).run now db = .ok (a, db')) :
    a.1 = some .proposed ∨ a.1 = some .nothingToDo := by
  simp only [Txn.run, bind, Except.bind] at h
  split at h
  · cases h
  · rename_i r hr
    have hd := fromPython_ok hr
    unfold decidePropose at hd
    cases hk : keep db.proposal (planDocument planned.view.fiat planned.legs) trigger with
    | error e => rw [hk] at hd; cases hd
    | ok s =>
      rw [hk] at hd
      cases hd
      cases h
      dsimp only
      split
      · exact Or.inl rfl
      · exact Or.inr rfl

/-- What the transaction of an approval is. -/
theorem decideApprove_run {planned : Planned} {version : Int} {now : Int} {db db' : Db}
    {a : Option EvaluationStatus × List String}
    (h : (Txn.decideApprove version planned).run now db = .ok (a, db')) :
    decideApprove db.proposal version (planDocument planned.view.fiat planned.legs) =
      .ok (a.1, db'.proposal, a.2) := by
  simp only [Txn.run, bind, Except.bind] at h
  split at h
  · cases h
  · rename_i r hr
    cases h
    exact fromPython_ok hr

/-- What the transaction of an automatic rebalance is. -/
theorem decideRebalance_run {now : Int} {db db' : Db} {a : Option EvaluationStatus × List String}
    (h : Txn.decideRebalance.run now db = .ok (a, db')) :
    decideRebalance db.settings db.proposal = (a.1, db'.proposal, a.2) := by
  cases h
  rfl

/-- What the transaction of a withdrawal is. -/
theorem withdraw_run {version : Int} {now : Int} {db db' : Db} {b : Bool}
    (h : (Txn.withdraw version).run now db = .ok (b, db')) :
    withdrawVersion db.proposal version = .ok (b, db'.proposal) := by
  simp only [Txn.run, bind, Except.bind] at h
  split at h
  · cases h
  · rename_i r hr
    cases h
    exact hr

/-! ## What each block leaves alone -/

/-- The blocks that write order rows. -/
def Txn.writesLedger : Txn → Bool
  | .settle .. => true
  | .recordAttempt .. => true
  | .markFailed .. => true
  | .markSent .. => true
  | _ => false

/-- The blocks that write the proposal. -/
def Txn.writesProposal : Txn → Bool
  | .decidePropose .. => true
  | .decideApprove .. => true
  | .decideRebalance => true
  | .setExecuted => true
  | .withdraw _ => true
  | _ => false

section Frames

variable {t : Txn} {now : Int} {db db' : Db} {a : t.Ans}

/-- What a block leaves alone: the rows of a table it does not write, and the records of earlier
evaluations. -/
theorem Txn.frame (h : t.run now db = .ok (a, db')) :
    (t.writesLedger = false → db'.ledger = db.ledger) ∧
      (t.writesProposal = false → db'.proposal = db.proposal) ∧
      db.sessions.length ≤ db'.sessions.length := by
  cases t with
  | load s =>
    cases hl : loadAccount db s with
    | error e => simp [Txn.run, hl, Except.map] at h
    | ok acc =>
      simp only [Txn.run, hl, Except.map] at h
      cases h
      exact ⟨fun _ => rfl, fun _ => rfl, le_rfl⟩
  | keepSnapshot asOf fiat tv cash holdings =>
    simp only [Txn.run, bind, Except.bind] at h
    repeat (split at h; · cases h)
    cases h
    exact ⟨fun _ => rfl, fun _ => rfl, le_rfl⟩
  | decidePropose p trig =>
    simp only [Txn.run, bind, Except.bind] at h
    split at h
    · cases h
    · cases h
      exact ⟨fun _ => rfl, nofun, le_rfl⟩
  | decideApprove v p =>
    simp only [Txn.run, bind, Except.bind] at h
    split at h
    · cases h
    · cases h
      exact ⟨fun _ => rfl, nofun, le_rfl⟩
  | withdraw v =>
    simp only [Txn.run, bind, Except.bind] at h
    split at h
    · cases h
    · cases h
      exact ⟨fun _ => rfl, nofun, le_rfl⟩
  | settle c k =>
    simp only [Txn.run, bind, Except.bind] at h
    split at h
    · cases h
    · cases h
      exact ⟨nofun, fun _ => rfl, le_rfl⟩
  | recordAttempt c leg reason at' id =>
    simp only [Txn.run, bind, Except.bind] at h
    split at h
    · cases h
    · cases h
      exact ⟨nofun, fun _ => rfl, le_rfl⟩
  | markSent c t =>
    simp only [Txn.run, bind, Except.bind] at h
    split at h
    · cases h
    · cases h
      exact ⟨nofun, fun _ => rfl, le_rfl⟩
  | markFailed c e =>
    cases h
    exact ⟨nofun, fun _ => rfl, le_rfl⟩
  | decideRebalance =>
    cases h
    exact ⟨fun _ => rfl, nofun, le_rfl⟩
  | setExecuted =>
    cases h
    exact ⟨fun _ => rfl, nofun, le_rfl⟩
  | startEvaluation op trig at' =>
    cases h
    exact ⟨fun _ => rfl, fun _ => rfl, by simp⟩
  | finishEvaluation id s at' log =>
    cases h
    exact ⟨fun _ => rfl, fun _ => rfl, by simp [Core.finishEvaluation]⟩
  | _ =>
    cases h
    exact ⟨fun _ => rfl, fun _ => rfl, le_rfl⟩

theorem Txn.ledger_of_run (h : t.run now db = .ok (a, db')) (ht : t.writesLedger = false) :
    db'.ledger = db.ledger := (Txn.frame h).1 ht

theorem Txn.proposal_of_run (h : t.run now db = .ok (a, db')) (ht : t.writesProposal = false) :
    db'.proposal = db.proposal := (Txn.frame h).2.1 ht

theorem Txn.sessions_of_run (h : t.run now db = .ok (a, db')) :
    db.sessions.length ≤ db'.sessions.length := (Txn.frame h).2.2

end Frames

end Coinpilot.Core
