import Coinpilot.Core.Cadence
import Coinpilot.Lib.Keyset
import Mathlib.Data.Prod.Lex

/-!
# The record of every evaluation

The table of evaluations of all users, the query that lists those of one user, and the application
that reads them page by page.
-/

set_option autoImplicit false

namespace Coinpilot.Core.Sessions

open Coinpilot.Lib

/-- A uuid. Two are compared by their sixteen bytes. -/
abbrev SessionId : Type := Fin (2 ^ 128)

/-- One row per user evaluation, not per system tick. -/
structure EvaluationSession where
  id : SessionId
  userId : UserId
  startedAt : Int
  finishedAt : Option Int
  durationMs : Option Int
  status : String
  operation : Option String
  trigger : Option String
  logMessages : Option String
  deriving DecidableEq, Repr

/-- The table `sessions`. -/
structure SessionTable where
  rows : List EvaluationSession
  primaryKey : (rows.map EvaluationSession.id).Nodup

def NOTHING_TO_DO : String := "NOTHING_TO_DO"

/-- `(started_at, id)`. -/
def EvaluationSession.key (row : EvaluationSession) : Int ×ₗ SessionId := toLex (row.startedAt, row.id)

/-- `WHERE user_id = …`, and without the runs that found nothing to do unless they are wanted. -/
def filtered (userId : UserId) (idle : Bool) (table : SessionTable) : List EvaluationSession :=
  table.rows.filter fun row => row.userId = userId ∧ (idle || row.status != NOTHING_TO_DO)

/-- `LookupError(before)`. -/
structure LookupError where
  before : SessionId
  deriving DecidableEq, Repr

/-- A user's evaluations, newest first. The rows returned are strictly after the row `before`. -/
def listEvaluations (table : SessionTable) (userId : UserId) (limit : Nat := 50)
    (idle : Bool := true) (before : Option SessionId := none) :
    Except LookupError (List EvaluationSession) :=
  let stmt := filtered userId idle table
  match before with
  | none => .ok ((Keyset.descending EvaluationSession.key stmt).take limit)
  | some id =>
      match table.rows.find? fun row => row.id = id ∧ row.userId = userId with
      | none => .error ⟨id⟩
      | some cursor =>
          let stmt := stmt.filter fun row => row.key < cursor.key
          .ok ((Keyset.descending EvaluationSession.key stmt).take limit)

/-! ## The application -/

/-- `getNextPageParam`: each page continues after the last id of the one before. -/
def getNextPageParam (limit : Nat) (last : List EvaluationSession) : Option SessionId :=
  if last.length < limit then none else last.getLast?.map EvaluationSession.id

/-- How a walk fails: a page is refused, or there are more pages than `fuel`. -/
inductive WalkError where
  | lookup (e : LookupError)
  | unfinished
  deriving DecidableEq, Repr

/-- The pages from the `k`-th one to the last. The table is `tables k` when the `k`-th page is
asked for. -/
def pagesFrom (tables : Nat → SessionTable) (userId : UserId) (limit : Nat) (idle : Bool) :
    Nat → Nat → Option SessionId → Except WalkError (List (List EvaluationSession))
  | 0, _, _ => .error .unfinished
  | fuel + 1, k, pageParam => do
      let last ← (listEvaluations (tables k) userId limit idle pageParam).mapError .lookup
      match getNextPageParam limit last with
      | none => .ok [last]
      | some before => do
          let rest ← pagesFrom tables userId limit idle fuel (k + 1) (some before)
          .ok (last :: rest)

end Coinpilot.Core.Sessions
