import Coinpilot.Core.Transactions
import Coinpilot.Lib.ReadCommitted

/-!
# The snapshots of one user, statement by statement

`keepSnapshot` asks for the latest row, locks it, and overwrites it or adds one. The row is chosen
from what is committed when the query starts. The lock may wait for another transaction, and then
answers the row as that one left it; the choice is not made again. A row that is gone by then is
passed over for the next one.
-/

set_option autoImplicit false

namespace Coinpilot.Core.Snapshots

open Coinpilot.Lib Coinpilot.Lib.Program Coinpilot.Lib.ReadCommitted

abbrev SnapshotId : Type := Nat

/-- The code of a transaction on the snapshots of one user. -/
abbrev SnapshotWork : Type → Type := Proc (Stmt SnapshotId PortfolioSnapshot) Reply Unit Exn

/-- `ORDER BY as_of DESC`. Rows of one instant may stand in any order. -/
structure NewestFirst where
  order : List (SnapshotId × PortfolioSnapshot) → List (SnapshotId × PortfolioSnapshot)
  perm : ∀ rows, (order rows).Perm rows
  sorted : ∀ rows, (order rows).Pairwise fun a b => b.2.asOf ≤ a.2.asOf

/-- What the code does not choose: the order of rows of one instant, and the id of a new row. -/
structure Chosen where
  newest : NewestFirst
  newId : SnapshotId

/-- The arguments of a snapshot. -/
structure Point where
  asOf : Int
  fiat : String
  totalValue : Rat
  cash : Rat
  holdings : SnapshotJson

/-- The row of a point, as its columns keep it. -/
def Point.row (p : Point) : Except Exn PortfolioSnapshot := do
  let fiat ← textColumn 8 p.fiat
  let totalValue ← ratColumn p.totalValue
  let cash ← ratColumn p.cash
  return ⟨p.asOf, fiat, totalValue, cash, p.holdings, false⟩

/-- The row is of the instant of its point, and not pinned. -/
theorem Point.row_ok {p : Point} {row : PortfolioSnapshot} (h : p.row = .ok row) :
    row.asOf = p.asOf ∧ row.pinned = false := by
  simp only [Point.row, bind, Except.bind] at h
  repeat (split at h; · cases h)
  cases h
  exact ⟨rfl, rfl⟩

/-! ## Statements -/

/-- `LIMIT 1 FOR UPDATE` over rows in order. -/
def lockFirst : List (SnapshotId × PortfolioSnapshot) →
    SnapshotWork (Option (SnapshotId × PortfolioSnapshot))
  | [] => return none
  | (id, _) :: rest => do
      match ← lockRow id with
      | some row => return some (id, row)
      | none => lockFirst rest

/-- `latest_snapshot(for_update=True)`. -/
def latestSnapshot (newest : NewestFirst) : SnapshotWork (Option (SnapshotId × PortfolioSnapshot)) := do
  let rows ← selectAll
  lockFirst (newest.order rows)

def recordSnapshot (newId : SnapshotId) (p : Point) : SnapshotWork SnapshotId := do
  let row ← fromExcept p.row
  if ← insertRow newId row then return newId else throw .database

/-- The latest snapshot is the day's point, and may be overwritten. -/
def Overwrites (latest : PortfolioSnapshot) (p : Point) : Prop :=
  latest.pinned = false ∧ dayOf latest.asOf = dayOf p.asOf

instance (latest : PortfolioSnapshot) (p : Point) : Decidable (Overwrites latest p) :=
  inferInstanceAs (Decidable (_ ∧ _))

def keepSnapshot (chosen : Chosen) (p : Point) : SnapshotWork SnapshotId := do
  match ← latestSnapshot chosen.newest with
  | some (id, latest) =>
      if Overwrites latest p then
        let row ← fromExcept p.row
        writeRow id (some row)
        return id
      else recordSnapshot chosen.newId p
  | none => recordSnapshot chosen.newId p

/-- The row of a snapshot, pinned. -/
def pinned (row : PortfolioSnapshot) : PortfolioSnapshot := { row with pinned := true }

/-- The row is read without a lock, and only its `pinned` column is written. -/
def pinSnapshot (id : SnapshotId) : SnapshotWork Unit := do
  let rows ← select
  match rows id with
  | none => return ()
  | some row =>
      if row.pinned then return ()
      else if ← updateRow id pinned then return () else throw .database

end Coinpilot.Core.Snapshots
