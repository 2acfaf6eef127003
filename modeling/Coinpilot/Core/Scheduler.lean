import Coinpilot.Core.Db.Settings
import Coinpilot.Core.System

/-!
# The scheduler

Every tick evaluates the users whose cadence has come. How each evaluation ends, and whether the
database fails, is given with the tick (`Turn`). The evaluations leave the settings table alone, so
here the transactions of a tick run on it one after another.
-/

set_option autoImplicit false

namespace Coinpilot.Core

open Coinpilot.Lib Coinpilot.Lib.Program Coinpilot.Lib.ReadCommitted

/-! ## The transactions of a tick -/

/-- `_advance`: forward to the first slot after `now`. A flush writes a next run that changed. -/
def advance (config : SchedulerConfig) (userId : UserId) (op : ScheduledOperation) (now : Moment) :
    SettingsWork Unit := do
  match ← getSettings userId with
  | none => pure ()
  | some settings =>
    let next ← calendarWork (nextRun settings op now config)
    if settings.nextAt op = next then pure ()
    else if ← updateRow userId fun row => row.setNextAt op next then pure ()
    else throw .staleData

/-- A line of the log about a streak of failures. -/
inductive StreakLine where
  | warning (userId : UserId) (after : Nat)
  | recovered (userId : UserId) (before : Nat)
  deriving DecidableEq, Repr

/-- The transaction of `_count`: the streak before. -/
def countStreak (userId : UserId) (failed : Bool) : SettingsWork (Option Nat) := do
  match ← getSettings userId with
  | none => pure none
  | some settings =>
    let before := settings.failureStreak
    let after := if failed then before + 1 else 0
    if after = before then pure (some before)
    else if ← updateRow userId fun row => { row with failureStreak := after } then
      pure (some before)
    else throw .staleData

/-- One warning when the streak reaches the threshold, one note when a user past it recovers. -/
def streakLines (config : SchedulerConfig) (userId : UserId) (failed : Bool) :
    Option Nat → List StreakLine
  | none => []
  | some before =>
      (if failed ∧ before + 1 = config.alertStreak then [.warning userId (before + 1)] else []) ++
        if ¬failed ∧ config.alertStreak ≤ before then [.recovered userId before] else []

/-! ## The users due -/

/-- A sort key for a time that is null. -/
def FAR_FUTURE : Int := (3652059 - EPOCH_ORDINAL) * DAY

def isDue (now : Moment) : Option Moment → Bool
  | none => false
  | some next => next.instant ≤ now.instant

/-- A user to evaluate, and which of the two cadences called for it. -/
structure DueUser where
  userId : UserId
  investDue : Bool
  rebalanceDue : Bool
  deriving DecidableEq, Repr

/-- `least(coalesce(next_invest_at, …), coalesce(next_rebalance_at, …))`. -/
def overdueKey (row : StoredSettings) : Int :=
  min ((row.nextInvestAt.map Moment.instant).getD FAR_FUTURE)
    ((row.nextRebalanceAt.map Moment.instant).getD FAR_FUTURE)

/-- The users to evaluate, most overdue first. `scan` is the order that the database comes upon the
rows in. -/
def dueUsers (scan : List UserId) (rows : Rows UserId StoredSettings) (now : Moment) (limit : Nat) :
    List DueUser :=
  let found := (scan.filterMap fun userId => (rows userId).map fun row => (userId, row)).filter
    fun entry => !entry.2.paused &&
      (isDue now entry.2.nextInvestAt || isDue now entry.2.nextRebalanceAt)
  ((found.mergeSort fun a b => overdueKey a.2 ≤ overdueKey b.2).take limit).map fun entry =>
    ⟨entry.1, isDue now entry.2.nextInvestAt, isDue now entry.2.nextRebalanceAt⟩

/-! ## A tick -/

/-- How an evaluation ends. -/
inductive RunOutcome where
  | result (r : EvaluationResult)
  | notReady
  | evaluationBusy
  | raised
  deriving DecidableEq, Repr

/-- What counts towards a failure streak. -/
def FAILURES : List EvaluationStatus := [.error, .krakenUnavailable]

def runFailed (result : EvaluationResult) : Bool :=
  FAILURES.contains result.status || (result.status == .unresolved && result.lookupFailed)

/-- What happens to one operation of one user in a tick: how its evaluation ends, and which of its
transactions the database fails. -/
structure Turn where
  outcome : RunOutcome
  readFails : Bool := false
  advanceFails : Bool := false
  countFails : Bool := false
  deriving DecidableEq, Repr

/-- An operation that a tick took up: its evaluation, if it was wanted, and whether its next run was
moved. -/
structure TakenUp where
  userId : UserId
  op : ScheduledOperation
  now : Moment
  outcome : Option RunOutcome
  advanced : Bool
  deriving DecidableEq, Repr

structure SchedulerState where
  rows : Rows UserId StoredSettings
  taken : List TakenUp := []
  lines : List StreakLine := []

abbrev SchedulerWork : Type → Type := ExceptT ApiError (StateM SchedulerState)

/-- One `with sessions()` block, or the database fails. -/
def inSession {α : Type} (fails : Bool) (m : SettingsWork α) : SchedulerWork α := fun s =>
  if fails then (.error .database, s)
  else
    let run := alone ((transaction m).exec ()) s.rows s.rows
    (run.1.1, { s with rows := run.2.1 })

/-- `_advance` after an operation was taken up, and the note of it. -/
def advanceAfter (config : SchedulerConfig) (userId : UserId) (op : ScheduledOperation)
    (now : Moment) (outcome : Option RunOutcome) (fails : Bool) : SchedulerWork Unit := fun s =>
  let (r, s') := (inSession fails (advance config userId op now)).run s
  let advanced := match r with
    | .ok _ => true
    | .error _ => false
  (r, { s' with taken := s'.taken ++ [⟨userId, op, now, outcome, advanced⟩] })

/-- `_count`. -/
def count (config : SchedulerConfig) (userId : UserId) (failed fails : Bool) : SchedulerWork Unit :=
  do
    let before ← inSession fails (countStreak userId failed)
    modify fun s => { s with lines := s.lines ++ streakLines config userId failed before }

/-- `_operate`. -/
def operate (config : SchedulerConfig) (turn : Turn) (userId : UserId) (op : ScheduledOperation)
    (now : Moment) : SchedulerWork Unit := do
  match ← inSession turn.readFails (getSettings userId) with
  | none => pure ()
  | some settings =>
    if op = .invest ∧ settings.investCashEnabled = false then
      -- switched off since it was scheduled: nothing to run, and no next run
      advanceAfter config userId op now none turn.advanceFails
    else
      match turn.outcome with
      | .evaluationBusy =>
          modify fun s => { s with taken := s.taken ++ [⟨userId, op, now, some .evaluationBusy, false⟩] }
      | .notReady => advanceAfter config userId op now (some .notReady) turn.advanceFails
      | .raised => do
          advanceAfter config userId op now (some .raised) turn.advanceFails
          count config userId true turn.countFails
      | .result r => do
          advanceAfter config userId op now (some (.result r)) turn.advanceFails
          count config userId (runFailed r) turn.countFails

/-- `_guarded`: one user's operations, the investment first. Nothing raised here reaches the
tick. -/
def guarded (config : SchedulerConfig) (turns : UserId → ScheduledOperation → Turn)
    (user : DueUser) (now : Moment) (s : SchedulerState) : SchedulerState :=
  let work : SchedulerWork Unit := do
    if user.investDue then operate config (turns user.userId .invest) user.userId .invest now
    if user.rebalanceDue then
      operate config (turns user.userId .rebalance) user.userId .rebalance now
  (work.run s).2

/-- What a tick meets. `held` is a tick that another process holds, and `priceless` one whose prices
could not be preloaded. -/
structure TickInput where
  now : Moment
  scan : List UserId
  nodup : scan.Nodup
  turns : UserId → ScheduledOperation → Turn
  held : Bool := false
  priceless : Bool := false

/-- One pass: the users due at `now`, a batch at most, most overdue first. -/
def tick (config : SchedulerConfig) (t : TickInput) (s : SchedulerState) : SchedulerState :=
  if t.held || t.priceless then s
  else (dueUsers t.scan s.rows t.now config.batch).foldl
    (fun s user => guarded config t.turns user t.now s) s

/-- Some ticks, in order. -/
def runTicks (config : SchedulerConfig) (s : SchedulerState) (ticks : List TickInput) :
    SchedulerState :=
  ticks.foldl (fun s t => tick config t s) s

end Coinpilot.Core
