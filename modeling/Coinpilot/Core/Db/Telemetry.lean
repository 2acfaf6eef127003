import Coinpilot.Core.Db.Models

/-!
# Snapshots and the record of every evaluation
-/

set_option autoImplicit false

namespace Coinpilot.Core

open Coinpilot.Lib Coinpilot.Exchange

/-- The UTC day of a moment. -/
def dayOf (moment : Int) : Int := moment / 86400000000

/-- The position of the latest snapshot. -/
def latestSnapshot (rows : List PortfolioSnapshot) : Option Nat :=
  (rows.zipIdx.foldl (fun best (s, i) => match best with
    | none => some (s.asOf, i)
    | some (t, j) => if t < s.asOf then some (s.asOf, i) else some (t, j)) none).map Prod.snd

/-- Overwrite the latest snapshot if it is unpinned and of the same day, and add one otherwise.
Returns the rows and the position written. -/
def keepSnapshot (rows : List PortfolioSnapshot) (s : PortfolioSnapshot) :
    List PortfolioSnapshot × Nat :=
  match latestSnapshot rows with
  | none => (rows ++ [s], rows.length)
  | some i =>
      match rows[i]? with
      | none => (rows ++ [s], rows.length)
      | some old =>
          if !old.pinned ∧ dayOf old.asOf = dayOf s.asOf then (rows.set i { s with pinned := old.pinned }, i)
          else (rows ++ [s], rows.length)

/-- Keep a snapshot as it is: orders are about to be sent from the account it shows. -/
def pinSnapshot (rows : List PortfolioSnapshot) (i : Nat) : List PortfolioSnapshot :=
  rows.modify i fun s => { s with pinned := true }

/-- Open the record before the work. Returns the rows and the evaluation's id. -/
def startEvaluation (rows : List EvaluationSession) (operation : Operation) (trigger : Trigger)
    (startedAt : Int) : List EvaluationSession × Nat :=
  (rows ++ [{ operation, trigger, startedAt, status := none, finishedAt := none
              durationMs := none, logMessages := none }], rows.length)

/-- Close the record and compute its duration. -/
def finishEvaluation (rows : List EvaluationSession) (id : Nat) (status : EvaluationStatus)
    (finishedAt : Int) (logMessages : Option String) : List EvaluationSession :=
  rows.modify id fun s => { s with
    status := some status, finishedAt := some finishedAt
    durationMs := some ((finishedAt - s.startedAt).tdiv 1000), logMessages }

end Coinpilot.Core
