import Coinpilot.Core.Schedule
import Coinpilot.Lib.ReadCommitted

/-!
# The settings table

The statements of a session on `user_settings`. A session keeps the row object it loaded: a later
`get` of the same row asks the database nothing, and a flush writes the columns that changed.
-/

set_option autoImplicit false

namespace Coinpilot.Core

open Coinpilot.Lib Coinpilot.Lib.Program Coinpilot.Lib.ReadCommitted

/-- How a request or a transaction ends that does not end well. `staleData` is an `UPDATE` of a row
that is gone. -/
inductive ApiError where
  | http (status : Nat) (detail : String)
  | calendar (e : CalendarError)
  | integrity
  | staleData
  | database
  deriving DecidableEq, Repr

/-- The code of one transaction on `user_settings`. -/
abbrev SettingsWork : Type → Type :=
  Proc (Stmt UserId StoredSettings) Reply Unit ApiError

/-- The calendar arithmetic of a transaction. -/
def calendarWork {α : Type} : Except CalendarError α → SettingsWork α
  | .ok a => pure a
  | .error e => throw (.calendar e)

/-- The row object of a row that may not be there. -/
def loadRow : Option StoredSettings → SettingsWork (Option LoadedSettings)
  | none => pure none
  | some row => do pure (some (← calendarWork row.load))

def getSettings (userId : UserId) : SettingsWork (Option LoadedSettings) := do
  loadRow ((← select) userId)

/-- The settings row, locked until the transaction ends. -/
def lockSettings (userId : UserId) : SettingsWork (Option LoadedSettings) := do
  loadRow (← lockRow userId)

/-- Every default lives in the model. -/
def newSettings (userId : UserId) (fiat : String) : LoadedSettings where
  fiat
  investCashEnabled := false
  cashRebalanceEnabled := false
  autoRebalanceEnabled := false
  minDriftPct := Decimal.zero
  minOrderFiat := Decimal.zero
  paused := false
  userId
  invest := {}
  rebalance := {}
  nextInvestAt := none
  nextRebalanceAt := none
  onboardedAt := none
  failureStreak := 0

def createSettings (userId : UserId) (fiat : String) : SettingsWork LoadedSettings := do
  let settings := newSettings userId fiat
  if ← insertRow userId settings.stored then pure settings else throw .integrity

/-- The flush of a row object whose row is locked: the columns that did not change are as they were
loaded. -/
def flushSettings (settings : LoadedSettings) : SettingsWork Unit := do
  let _ ← updateRow settings.userId fun _ => settings.stored
  pure ()

/-- An update that is called only where something changed. -/
def flushIf (changed : Bool) (settings : LoadedSettings) : SettingsWork LoadedSettings := do
  if changed then flushSettings settings
  pure settings

end Coinpilot.Core
