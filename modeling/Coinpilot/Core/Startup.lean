import Coinpilot.Core.Scheduler

/-!
# Start-up

The scheduler fills the next runs that are missing, in one transaction across every user, and then
ticks.
-/

set_option autoImplicit false

namespace Coinpilot.Core

open Coinpilot.Lib Coinpilot.Lib.Program Coinpilot.Lib.ReadCommitted

/-- The operation should have a next run, and has none. -/
def SettingsRow.lacks {τ : Type} (settings : SettingsRow τ) : ScheduledOperation → Bool
  | .rebalance => settings.nextRebalanceAt.isNone
  | .invest => settings.investCashEnabled && settings.nextInvestAt.isNone

/-- Row objects of these rows. -/
def loadRows : List (UserId × StoredSettings) → SettingsWork (List (UserId × LoadedSettings))
  | [] => pure []
  | (userId, row) :: rest => do
      let settings ← calendarWork row.load
      let others ← loadRows rest
      pure ((userId, settings) :: others)

/-- The rows of a table, in the order that the database comes upon them. -/
def rowsOf (scan : List UserId) (rows : Rows UserId StoredSettings) : List (UserId × StoredSettings) :=
  scan.filterMap fun userId => (rows userId).map fun row => (userId, row)

/-- Settings missing a next run they should have. -/
def unscheduledSettings (scan : List UserId) : SettingsWork (List (UserId × LoadedSettings)) := do
  let rows ← select
  loadRows ((rowsOf scan rows).filter fun entry => entry.2.lacks .rebalance || entry.2.lacks .invest)

/-- The next runs that a row is given: that of the rebalance first. -/
def missingRuns (settings : LoadedSettings) (now : Moment) (config : SchedulerConfig) :
    Except CalendarError (List (ScheduledOperation × Option Moment)) :=
  ([.rebalance, .invest].filter settings.lacks).mapM fun op => do
    .ok (op, ← nextRun settings op now config)

/-- The loop of `backfill`. -/
def fillRows (now : Moment) (config : SchedulerConfig) :
    List (UserId × LoadedSettings) → SettingsWork Unit
  | [] => pure ()
  | (userId, settings) :: rest => do
      let moves ← calendarWork (missingRuns settings now config)
      if ← updateRow userId fun row => row.withMoves moves then fillRows now config rest
      else throw .staleData

/-- Give every settings row the next runs it lacks: how many rows changed. -/
def backfill (scan : List UserId) (now : Moment) (config : SchedulerConfig) : SettingsWork Nat := do
  let rows ← unscheduledSettings scan
  fillRows now config rows
  pure rows.length

/-- What a start meets: the order of the rows, and whether the database fails. -/
structure StartInput where
  now : Moment
  scan : List UserId
  nodup : scan.Nodup
  fails : Bool := false

/-- `start`: whether the thread is started. An exception of `backfill` is the application's. -/
def start (config : SchedulerConfig) (t : StartInput) (s : SchedulerState) : Bool × SchedulerState :=
  let run := (inSession t.fails (backfill t.scan t.now config)).run s
  (match run.1 with
    | .ok _ => true
    | .error _ => false,
    run.2)

/-- A start, and the ticks of the thread if there is one. -/
def launch (config : SchedulerConfig) (t : StartInput) (ticks : List TickInput) (s : SchedulerState) :
    Bool × SchedulerState :=
  let started := start config t s
  (started.1, if started.1 then runTicks config started.2 ticks else started.2)

end Coinpilot.Core
