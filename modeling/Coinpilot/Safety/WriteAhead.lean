import Coinpilot.Safety.Evaluations
import Coinpilot.Safety.Replay

/-!
# Written ahead, and nothing executed of what failed

What the ledger's rules give for every run. An order's row is committed before the order is sent, at
most one row is unknown, and nothing is planned or sent while an order of an earlier evaluation is
unresolved (`write_ahead`). Where Kraken is honest, the order of a row that is `FAILED` executed nothing
and never will, and a plan is computed only when nothing more comes of any earlier order
(`failed_executed_nothing`).
-/

set_option autoImplicit false

namespace Coinpilot.Safety

open Coinpilot.Lib Coinpilot.Lib.Program Coinpilot.Exchange Coinpilot.Engine Coinpilot.Core

section Runs

variable {honest : Prop} {w₀ : World} {σ τ : State}

theorem fresh_untouched (w₀ : World) (i : Nat) : Untouched i ⟨w₀, []⟩ := rfl

theorem fresh_inv (h₀ : Fresh w₀) : (ledgerRules honest).inv ⟨w₀, []⟩ := h₀.ledgerOk honest

/-- What every state of a run keeps. -/
theorem ledgerOk_of_runs (h₀ : Fresh w₀) (h : Runs honest (startOf w₀) σ) :
    LedgerOk honest σ.world.now :=
  (Contract.sound (ledger_covers honest) (fresh_inv h₀) (fresh_untouched w₀) h).1

/-- Every operation of a run was permitted, in a state that kept the invariant. -/
theorem permitted_of_runs (h₀ : Fresh w₀) (h : Runs honest (startOf w₀) σ) {e : Ev} {es : List Ev}
    (he : (e :: es) <:+ σ.world.past) :
    LedgerOk honest e.before ∧ Permitted honest e.who e.call e.op ⟨e.before, es⟩ := by
  obtain ⟨hi, hp, -⟩ := Contract.guard_of_past (ledger_covers honest) (fresh_inv h₀)
    (fresh_untouched w₀) h he
  exact ⟨hi, hp⟩

end Runs

/-! ## Written ahead -/

/-- What an order that trades finds: its row is written down and pending, and every other row is
settled, or was accepted and named earlier in the same call. -/
def WrittenAhead (e : Ev) (es : List Ev) : Prop :=
  ∀ id, e.op.creates = some id →
    (∃ row ∈ e.before.db.ledger.rows, row.clOrdId = id ∧ row.status = .pending) ∧
    ∀ row ∈ e.before.db.ledger.rows, row.clOrdId ≠ id →
      row.status = .filled ∨ row.status = .failed ∨
        (row.status = .pending ∧ ∃ t, row.txid = some t ∧ Sent (posts e.who es) row.clOrdId t)

/-- A read for a plan that is more than a preview finds no row pending. -/
def PlansSettled (e : Ev) : Prop :=
  e.op.plans = true → (∀ trigger, e.call ≠ .invest true trigger) →
    ∀ row ∈ e.before.db.ledger.rows, row.status ≠ .pending

/-- In every run of any calls of a user, with any answers and deaths: at most one row is unknown, every
order is written ahead, and every plan is computed with nothing pending. -/
theorem write_ahead {honest : Prop} {w₀ : World} (h₀ : Fresh w₀) {σ : State}
    (h : Runs honest (startOf w₀) σ) :
    (∀ a ∈ σ.world.now.db.ledger.rows, ∀ b ∈ σ.world.now.db.ledger.rows,
      a.unknown → b.unknown → a = b) ∧
    ∀ e es, (e :: es) <:+ σ.world.past → WrittenAhead e es ∧ PlansSettled e := by
  refine ⟨(ledgerOk_of_runs h₀ h).oneUnknown, ?_⟩
  intro e es he
  obtain ⟨-, hp⟩ := permitted_of_runs h₀ h he
  refine ⟨?_, hp.plans⟩
  intro id hid
  obtain ⟨⟨row, hrow, hc, hu⟩, hothers, -⟩ := hp.places id hid
  refine ⟨⟨row, hrow, hc, hu.1⟩, ?_⟩
  intro r hr hne
  cases hs : r.status with
  | filled => exact Or.inl rfl
  | failed => exact Or.inr (Or.inl rfl)
  | pending => exact Or.inr (Or.inr ⟨rfl, hothers r hr hne hs⟩)

theorem fresh_newUser (autoRebalance : Bool) : Fresh (newUser autoRebalance) :=
  ⟨rfl, rfl, rfl, rfl⟩

/-- A run in which an order is placed and its answer is lost. -/
theorem write_ahead_lost_answer : ∃ σ, Runs True (startOf (newUser false)) σ ∧
    (∃ e ∈ σ.world.past, e.op.creates = some "order-0") ∧
    (∀ a ∈ σ.world.now.db.ledger.rows, ∀ b ∈ σ.world.now.db.ledger.rows,
      a.unknown → b.unknown → a = b) ∧
    ∀ e es, (e :: es) <:+ σ.world.past → WrittenAhead e es ∧ PlansSettled e := by
  obtain ⟨σ, hσ, hc⟩ := reaches_of_replay program (krakenResponder True (marketOf "1000" "0"))
    (startOf (newUser false)) (.spawn 0 (.invest false .api) :: acts 0 .lose 19)
    (fun σ => σ.world.past.any fun e => e.op.creates = some "order-0") (by decide +kernel)
  obtain ⟨e, he, hid⟩ := List.any_eq_true.mp hc
  exact ⟨σ, hσ, ⟨e, he, by simpa using hid⟩, write_ahead (fresh_newUser false) hσ⟩

/-! ## Nothing executed -/

/-- A row that is settled stays as it is. -/
theorem step_settled {honest : Prop} {i : Nat} {c : Request} {o : Op} {b : Ans o} {w w' : Rec}
    (hp : Permitted honest i c o w) (h : (system honest).recorded.step i c o w b w') {row : Order}
    (hrow : row ∈ w.now.db.ledger.rows) (hs : row.status ≠ .pending) :
    row ∈ w'.now.db.ledger.rows := by
  have hsame : w'.now.db.ledger = w.now.db.ledger → row ∈ w'.now.db.ledger.rows := by
    intro hl
    rw [hl]
    exact hrow
  -- A write changes a row that is pending.
  have hother : ∀ {id : String} {f : Order → Order} {hf : ∀ o, (f o).clOrdId = o.clOrdId} {l : Ledger},
      StillPending w.now.db.ledger id → l.rows = (w.now.db.ledger.modify id f hf).rows →
        row ∈ l.rows := by
    rintro id f hf l ⟨r, hr, hc, hpend⟩ hl
    rw [hl]
    refine Ledger.mem_modify.mpr (Or.inl ⟨hrow, fun hid => ?_⟩)
    obtain rfl : row = r := Ledger.eq_of_clOrdId hrow hr (hid.trans hc.symm)
    exact hs hpend
  cases hu : Op.underLock o with
  | false => exact hsame (step_outside h hu).1
  | true =>
    obtain ⟨ha, -⟩ := h
    cases o with
    | post r =>
      obtain ⟨remote, heq, -⟩ := ha
      exact hsame (by rw [heq])
    | tx t =>
      have hj := hp.writes t rfl
      rcases ha with ⟨e, -, -, heq⟩ | ⟨a, db, hrun, -, heq⟩
      · exact hsame (by rw [heq])
      · rw [heq]
        cases t with
        | settle id k =>
          obtain ⟨l, hset, rfl⟩ := settle_run hrun
          obtain ⟨f, hf, hl, -⟩ := hset.rows
          exact hother hj.1 hl
        | recordAttempt id leg reason at' s =>
          obtain ⟨l, o, rfl, hl, -⟩ := recordAttempt_run hrun
          change row ∈ l.rows
          rw [hl]
          exact List.mem_append_left _ hrow
        | markSent id t =>
          obtain ⟨l, rfl, hl⟩ := markSent_run hrun
          exact hother hj.1 hl
        | markFailed id e =>
          cases hrun
          obtain ⟨f, hf, hl⟩ := Ledger.markFailed_rows w.now.db.ledger id e
          exact hother hj.1 hl
        | _ =>
          have hl := Txn.ledger_of_run hrun rfl
          change row ∈ db.ledger.rows
          rw [hl]
          exact hrow
    | _ => cases hu

/-- The order of this row is over at Kraken, whatever may still be there of it, and executed nothing. -/
def ExecutedNothing (K : List RemoteOrder) (row : Order) : Prop :=
  ∀ o ∈ K, o.clOrdId = row.clOrdId → o.phase.isOver = true ∧ o.phase.executed = 0

/-- What a read for a plan finds at Kraken: every order is over, and its row is settled. -/
def NothingUnderWay (e : Ev) : Prop :=
  e.op.plans = true → (∀ trigger, e.call ≠ .invest true trigger) → ∀ o ∈ e.before.remote,
    o.phase.isOver = true ∧ ∃ row ∈ e.before.db.ledger.rows, row.clOrdId = o.clOrdId ∧
      (row.status = .filled ∨ (row.status = .failed ∧ o.phase.executed = 0))

/-- In every run against an honest Kraken, with any lost answers, failed lookups and deaths: a row that
is `FAILED` stays so, and from then on its order has executed nothing and is over. When a plan
is computed, nothing more comes of any earlier order. -/
theorem failed_executed_nothing {w₀ : World} (h₀ : Fresh w₀) {σ τ : State}
    (hσ : Runs True (startOf w₀) σ) (hτ : Runs True σ τ) :
    (∀ row ∈ σ.world.now.db.ledger.rows, row.status = .failed →
      row ∈ τ.world.now.db.ledger.rows ∧ ExecutedNothing τ.world.now.remote row) ∧
    ∀ e es, (e :: es) <:+ σ.world.past → NothingUnderWay e := by
  constructor
  · intro row hrow hf
    have hstays : row ∈ τ.world.now.db.ledger.rows := by
      refine Contract.keeps (ledger_covers True) (fresh_inv h₀) (fresh_untouched w₀)
        (P := fun w => row ∈ w.now.db.ledger.rows) ?_ (fun h => h) ?_ hσ hτ hrow
      · intro w w' _ hmem henv
        rw [henv.1.ledger]
        exact hmem
      · intro i c o w b w' _ hp hmem hs
        refine step_settled hp hs hmem ?_
        rw [hf]
        decide
    refine ⟨hstays, fun o ho hc => ?_⟩
    have hok := (ledgerOk_of_runs h₀ (hσ.trans hτ)).remote trivial
    obtain ⟨hover, hzero⟩ := hok.settled row hstays (by rw [hf]; decide) o ho hc
    exact ⟨hover, hzero hf⟩
  · intro e es he hplans hcall o ho
    obtain ⟨hi, hp⟩ := permitted_of_runs h₀ hσ he
    obtain ⟨row, hrow, hc, -⟩ := (hi.remote trivial).rows o ho
    have hs : row.status ≠ .pending := hp.plans hplans hcall row hrow
    obtain ⟨hover, hzero⟩ := (hi.remote trivial).settled row hrow hs o ho hc.symm
    refine ⟨hover, row, hrow, hc, ?_⟩
    cases hstatus : row.status with
    | pending => exact absurd hstatus hs
    | filled => exact Or.inl rfl
    | failed => exact Or.inr ⟨rfl, hzero hstatus⟩

/-- A run in which an order is refused. -/
theorem failed_executed_nothing_refused : ∃ σ, Runs True (startOf (newUser false)) σ ∧
    (∃ row ∈ σ.world.now.db.ledger.rows, row.status = .failed) ∧
    (∀ row ∈ σ.world.now.db.ledger.rows, row.status = .failed →
      row ∈ σ.world.now.db.ledger.rows ∧ ExecutedNothing σ.world.now.remote row) ∧
    ∀ e es, (e :: es) <:+ σ.world.past → NothingUnderWay e := by
  obtain ⟨σ, hσ, hc⟩ := reaches_of_replay program (krakenResponder True (marketOf "1000" "0"))
    (startOf (newUser false)) (.spawn 0 (.invest false .api) :: acts 0 .refuse 24)
    (fun σ => σ.world.now.db.ledger.rows.any fun row => row.status = .failed) (by decide +kernel)
  obtain ⟨row, hrow, hf⟩ := List.any_eq_true.mp hc
  exact ⟨σ, hσ, ⟨row, hrow, by simpa using hf⟩, failed_executed_nothing (fresh_newUser false) hσ .refl⟩

end Coinpilot.Safety
