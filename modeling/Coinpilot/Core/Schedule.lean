import Coinpilot.Core.Cadence
import Coinpilot.Core.Db.Models

/-!
# Next runs

The settings row with its two cadences and their next runs. An anchor is stored as an instant, and
loading a row makes a `datetime` of it, which raises outside the years 1 to 9999.
-/

set_option autoImplicit false

namespace Coinpilot.Core

open Coinpilot.Lib

/-- The two operations the scheduler runs. -/
inductive ScheduledOperation where
  | invest
  | rebalance
  deriving DecidableEq, Repr

def ScheduledOperation.name : ScheduledOperation → String
  | .invest => "invest"
  | .rebalance => "rebalance"

/-- The columns of one cadence. `τ` is what an anchor is: an instant in the table, an aware
`datetime` in a loaded row. -/
structure CadenceColumns (τ : Type) where
  mode : CadenceMode := .min
  intervalDays : Option Int := none
  intervalMonths : Option Int := none
  cadenceAnchor : Option τ := none
  deriving DecidableEq, Repr

structure SettingsRow (τ : Type) extends UserSettings where
  userId : UserId
  invest : CadenceColumns τ
  rebalance : CadenceColumns τ
  nextInvestAt : Option Moment
  nextRebalanceAt : Option Moment
  onboardedAt : Option Moment
  failureStreak : Nat
  deriving DecidableEq, Repr

/-- A row of `user_settings`. -/
abbrev StoredSettings := SettingsRow Int

/-- A loaded row. -/
abbrev LoadedSettings := SettingsRow AwareDatetime

section Rows

variable {τ : Type}

/-- `{op}_cadence_mode` and the other columns of its cadence. -/
def SettingsRow.cadence (settings : SettingsRow τ) : ScheduledOperation → CadenceColumns τ
  | .invest => settings.invest
  | .rebalance => settings.rebalance

/-- `next_{op}_at`. -/
def SettingsRow.nextAt (settings : SettingsRow τ) : ScheduledOperation → Option Moment
  | .invest => settings.nextInvestAt
  | .rebalance => settings.nextRebalanceAt

def SettingsRow.setNextAt (settings : SettingsRow τ) (op : ScheduledOperation)
    (value : Option Moment) : SettingsRow τ :=
  match op with
  | .invest => { settings with nextInvestAt := value }
  | .rebalance => { settings with nextRebalanceAt := value }

@[simp] theorem SettingsRow.cadence_setNextAt (settings : SettingsRow τ)
    (op op' : ScheduledOperation) (value : Option Moment) :
    (settings.setNextAt op value).cadence op' = settings.cadence op' := by
  cases op <;> cases op' <;> rfl

@[simp] theorem SettingsRow.userId_setNextAt (settings : SettingsRow τ) (op : ScheduledOperation)
    (value : Option Moment) : (settings.setNextAt op value).userId = settings.userId := by
  cases op <;> rfl

@[simp] theorem SettingsRow.toUserSettings_setNextAt (settings : SettingsRow τ)
    (op : ScheduledOperation) (value : Option Moment) :
    (settings.setNextAt op value).toUserSettings = settings.toUserSettings := by
  cases op <;> rfl

@[simp] theorem SettingsRow.nextAt_setNextAt (settings : SettingsRow τ)
    (op op' : ScheduledOperation) (value : Option Moment) :
    (settings.setNextAt op value).nextAt op' = if op' = op then value else settings.nextAt op' := by
  cases op <;> cases op' <;> rfl

/-- The same columns, with every anchor seen another way. -/
def CadenceColumns.mapM {σ : Type} (f : τ → Except CalendarError σ) (columns : CadenceColumns τ) :
    Except CalendarError (CadenceColumns σ) := do
  match columns.cadenceAnchor with
  | none => .ok ⟨columns.mode, columns.intervalDays, columns.intervalMonths, none⟩
  | some anchor =>
      .ok ⟨columns.mode, columns.intervalDays, columns.intervalMonths, some (← f anchor)⟩

end Rows

/-- The `datetime` that a stored instant is loaded as, in UTC. -/
def AwareDatetime.ofInstant (t : Int) : Except CalendarError AwareDatetime := do
  .ok ⟨← Moment.ofInstant t, 0, utc_underDay⟩

/-- The row object that a `SELECT` of a row makes. -/
def SettingsRow.load (row : StoredSettings) : Except CalendarError LoadedSettings := do
  let invest ← row.invest.mapM AwareDatetime.ofInstant
  let rebalance ← row.rebalance.mapM AwareDatetime.ofInstant
  .ok { row with invest, rebalance }

def CadenceColumns.stored (columns : CadenceColumns AwareDatetime) : CadenceColumns Int :=
  ⟨columns.mode, columns.intervalDays, columns.intervalMonths,
    columns.cadenceAnchor.map AwareDatetime.instant⟩

/-- The row of the table that a row object is written as. -/
def SettingsRow.stored (settings : LoadedSettings) : StoredSettings :=
  { settings with invest := settings.invest.stored, rebalance := settings.rebalance.stored }

/-- The cadence of one operation. -/
def SettingsRow.cadenceOf (settings : LoadedSettings) (op : ScheduledOperation) : Cadence :=
  let columns := settings.cadence op
  ⟨columns.mode, columns.intervalDays, columns.intervalMonths, columns.cadenceAnchor⟩

/-- When an operation is next due, strictly after `now`. `none` for an investment switched off. -/
def nextRun (settings : LoadedSettings) (op : ScheduledOperation) (now : Moment)
    (config : SchedulerConfig) : Except CalendarError (Option Moment) := do
  if op = .invest ∧ settings.investCashEnabled = false then .ok none
  else .ok (some (← nextSlot (settings.cadenceOf op) settings.userId now config))

/-- The next runs that a change to the settings moves: those of the operations that `touched` names
a source of. -/
def rescheduled (settings : LoadedSettings) (touched : ScheduledOperation → Bool) (now : Moment)
    (config : SchedulerConfig) : Except CalendarError (List (ScheduledOperation × Option Moment)) :=
  ([.invest, .rebalance].filter touched).mapM fun op => do
    .ok (op, ← nextRun settings op now config)

/-- The settings with the next runs that were moved. -/
def SettingsRow.withMoves {τ : Type} (settings : SettingsRow τ)
    (moves : List (ScheduledOperation × Option Moment)) : SettingsRow τ :=
  moves.foldl (fun settings move => settings.setNextAt move.1 move.2) settings

end Coinpilot.Core
