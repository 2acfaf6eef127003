import Coinpilot.Safety.WriteAhead

/-!
# The status and the rows

When the status of an evaluation agrees with the order rows of its session. It does exactly when an
answer was lost, or the fill of every order that Kraken accepted was read right after
(`status_agrees_iff`). An order whose fill was not read stays `PENDING` under a status that says that
every order was filled (`unread_fill_done`).
-/

set_option autoImplicit false

namespace Coinpilot.Safety

open Coinpilot.Lib Coinpilot.Lib.Program Coinpilot.Exchange Coinpilot.Engine Coinpilot.Core

/-- Evaluation `id` closes with `status`. -/
def Closes (e : Ev) (id : Nat) (status : EvaluationStatus) : Prop :=
  ∃ at' log, e.op = .tx (.finishEvaluation id status at' log)

/-- An answer to an order of this call was lost, or each fill was read right after its order was
accepted. -/
def LostOrAllRead (i : Nat) (past : List Ev) : Prop :=
  (∃ x ∈ posts i past, Lost x) ∨ AllRead none (posts i past)

/-- In every run, with any answers and deaths: an evaluation that no exception ends closes with a status
that agrees with its rows exactly when an answer to one of its orders was lost or each fill was read. A
result that a call returns has the status that was recorded so. -/
theorem status_agrees_iff {honest : Prop} {w₀ : World} (h₀ : Fresh w₀) {σ : State}
    (h : Runs honest (startOf w₀) σ) :
    (∀ e es id status, (e :: es) <:+ σ.world.past → Closes e id status → status ≠ .error →
      (Agrees status (e.before.db.ledger.ofSession id) ↔ LostOrAllRead e.who es)) ∧
    ∀ i c outcome result locals, σ.threads i = .live c (.ret (.ok outcome, locals)) →
      (∀ trigger, c ≠ .invest true trigger) → resultOf outcome = some result →
        result.status ≠ .error ∧ ∃ e ∈ σ.world.past, e.who = i ∧ ∃ id, Closes e id result.status := by
  constructor
  · rintro e es id status he ⟨at', log, hop⟩ hstatus
    obtain ⟨-, hp⟩ := permitted_of_runs h₀ h he
    exact hp.writes _ hop hstatus
  · intro i c outcome result locals hl hc hresult
    obtain ⟨-, hthreads⟩ := Contract.sound (ledger_covers honest) (fresh_inv h₀) (fresh_untouched w₀) h
    have hends := hthreads i
    rw [hl] at hends
    obtain ⟨hne, c', id, at', log, before, after, he⟩ := hends hc outcome result rfl hresult
    exact ⟨hne, _, he, rfl, id, at', log, rfl⟩

/-- The last operation of a history closes an evaluation as `DONE` with a row still pending. -/
def closesDoneUnread (σ : State) : Bool :=
  match σ.world.past with
  | ⟨_, _, .tx (.finishEvaluation id .done _ _), _, before, _⟩ :: _ =>
      (before.db.ledger.ofSession id).any fun row => row.status = .pending
  | _ => false

theorem closesDoneUnread_ok {σ : State} (h : closesDoneUnread σ = true) :
    ∃ e es id, σ.world.past = e :: es ∧ Closes e id .done ∧
      ¬Agrees .done (e.before.db.ledger.ofSession id) := by
  unfold closesDoneUnread at h
  split at h
  · rename_i i c id at' log b before after es hpast
    refine ⟨_, es, id, hpast, ⟨at', log, rfl⟩, ?_⟩
    rintro ⟨-, -, hdone, -⟩
    obtain ⟨row, hrow, hp⟩ := List.any_eq_true.mp h
    have hfilled := (hdone.mp rfl).2 row hrow
    simp [hfilled] at hp
  · cases h

/-- The run of an investment whose order is accepted and whose fill cannot be read. -/
def unreadFillRun : List (Turn Request Reply) := .spawn 0 (.invest false .api) :: acts 0 .accept 25

/-- Kraken accepts the order, the read of its fill fails, and the evaluation closes as `DONE` with its
row `PENDING`. -/
theorem unread_fill_done : ∃ σ, Runs True (startOf (newUser false)) σ ∧
    ∃ e es id, σ.world.past = e :: es ∧ Closes e id .done ∧
      ¬Agrees .done (e.before.db.ledger.ofSession id) := by
  obtain ⟨σ, hσ, hc⟩ := reaches_of_replay program (krakenResponder True (marketOf "1000" "0"))
    (startOf (newUser false)) unreadFillRun closesDoneUnread (by decide +kernel)
  exact ⟨σ, hσ, closesDoneUnread_ok hc⟩

/-- The same run, where the status does not agree because the fill was not read. -/
theorem status_agrees_iff_unread : ∃ σ, Runs True (startOf (newUser false)) σ ∧
    ∃ e es id, σ.world.past = e :: es ∧ Closes e id .done ∧
      (Agrees .done (e.before.db.ledger.ofSession id) ↔ LostOrAllRead e.who es) := by
  obtain ⟨σ, hσ, hc⟩ := reaches_of_replay program (krakenResponder True (marketOf "1000" "0"))
    (startOf (newUser false)) unreadFillRun closesDoneUnread (by decide +kernel)
  obtain ⟨e, es, id, hpast, hcloses, -⟩ := closesDoneUnread_ok hc
  have hsuffix : (e :: es) <:+ σ.world.past := hpast ▸ List.suffix_refl _
  refine ⟨σ, hσ, e, es, id, hpast, hcloses, ?_⟩
  exact (status_agrees_iff (fresh_newUser false) hσ).1 e es id .done hsuffix hcloses (by decide)

end Coinpilot.Safety
