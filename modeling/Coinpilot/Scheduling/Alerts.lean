import Coinpilot.Scheduling.Runs
import Coinpilot.Lib.Streak

/-!
# One alert per failure streak

The streak of a user is kept in the table, and the threshold comes with the configuration that the
process was started with. The warning looks for the streak to equal the threshold, and the recovery
for a streak that was at or above it. The two agree while no restart moves the threshold across a streak
that it finds (`one_alert_per_streak`).
-/

set_option autoImplicit false

namespace Coinpilot.Core

open Coinpilot.Lib Coinpilot.Lib.Program Coinpilot.Lib.ReadCommitted Coinpilot.Lib.Streak
  Coinpilot.Api

/-! ## The history of a user -/

/-- A change to a settings row by anyone but the scheduler: the streak is not among its columns. -/
structure Edit where
  change : StoredSettings → StoredSettings
  keepsStreak : ∀ row, (change row).failureStreak = row.failureStreak

/-- What happens to a user: the scheduler takes an operation up, the process starts again with some
configuration, or the settings change. -/
inductive HistoryEvent where
  | operation (turn : Turn) (op : ScheduledOperation) (now : Moment)
  | restart (config : SchedulerConfig)
  | edited (edit : Edit)

/-- Whether an outcome counts, and as what. -/
def RunOutcome.counts : RunOutcome → Option Bool
  | .result r => some (runFailed r)
  | .raised => some true
  | .notReady => none
  | .evaluationBusy => none

/-- What an operation is counted as, where it comes to its end. -/
def countedAs (config : SchedulerConfig) (turn : Turn) (userId : UserId) (op : ScheduledOperation)
    (now : Moment) (s : SchedulerState) : Option Bool :=
  match s.rows userId with
  | none => none
  | some row =>
      if op = .invest ∧ row.investCashEnabled = false then none
      else
        match (operate config turn userId op now s).1 with
        | .ok _ => turn.outcome.counts
        | .error _ => none

/-- The streak of a user. -/
def streakOf (userId : UserId) (s : SchedulerState) : Option Nat :=
  (s.rows userId).map SettingsRow.failureStreak

/-- An operation that was counted, and what it logged. -/
structure Counted extends Trial where
  lines : List StreakLine
  deriving DecidableEq

/-- The process and its table. -/
structure Platform where
  config : SchedulerConfig
  state : SchedulerState

/-- What an event counts, and the platform after it. -/
def HistoryEvent.perform (userId : UserId) (p : Platform) : HistoryEvent → List Counted × Platform
  | .operation turn op now =>
      let after := (operate p.config turn userId op now p.state).2
      let counted := (countedAs p.config turn userId op now p.state).map fun failed =>
        { failed
          before := (streakOf userId p.state).getD 0
          threshold := p.config.alertStreak
          threshold_pos := p.config.alertStreak_pos
          lines := after.lines.drop p.state.lines.length }
      (counted.toList, { p with state := after })
  | .restart config => ([], { p with config })
  | .edited edit =>
      let rows := Function.update p.state.rows userId ((p.state.rows userId).map edit.change)
      ([], { p with state := { p.state with rows } })

/-- The operations that a history counts, and the platform after it. -/
def runHistory (userId : UserId) (p : Platform) : List HistoryEvent → List Counted × Platform
  | [] => ([], p)
  | event :: rest =>
      let step := event.perform userId p
      let others := runHistory userId step.2 rest
      (step.1 ++ others.1, others.2)

/-! ## What one operation does to the streak -/

/-- The streak and the log stay as they are. -/
structure StreakKept (userId : UserId) (s s' : SchedulerState) : Prop where
  streak : streakOf userId s' = streakOf userId s
  lines : s'.lines = s.lines

/-- The outcome is counted: the streak goes on or ends, and the lines about it are logged. -/
structure StreakCounted (config : SchedulerConfig) (userId : UserId) (failed : Bool)
    (s s' : SchedulerState) : Prop where
  counted : ∃ before, streakOf userId s = some before ∧
    streakOf userId s' = some (if failed then before + 1 else 0) ∧
    s'.lines = s.lines ++ streakLines config userId failed (some before)

theorem StreakKept.refl (userId : UserId) (s : SchedulerState) : StreakKept userId s s := ⟨rfl, rfl⟩

theorem StreakKept.then_counted {config : SchedulerConfig} {userId : UserId} {failed : Bool}
    {s s' s'' : SchedulerState} (h : StreakKept userId s s')
    (hcounted : StreakCounted config userId failed s' s'') :
    StreakCounted config userId failed s s'' := by
  obtain ⟨before, hbefore, hafter, hlines⟩ := hcounted.counted
  exact ⟨before, h.streak ▸ hbefore, hafter, h.lines ▸ hlines⟩

theorem StreakKept.trans {userId : UserId} {s s' s'' : SchedulerState} (h : StreakKept userId s s')
    (h' : StreakKept userId s' s'') : StreakKept userId s s'' :=
  ⟨h'.streak.trans h.streak, h'.lines.trans h.lines⟩

theorem streakOf_eq {userId : UserId} {s : SchedulerState} {row : StoredSettings}
    (h : s.rows userId = some row) : streakOf userId s = some row.failureStreak := by
  rw [streakOf, h]
  rfl

/-- `_count` counts the outcome, unless its transaction fails. -/
theorem count_streak (config : SchedulerConfig) (userId : UserId) (failed fails : Bool)
    {s : SchedulerState} {row : StoredSettings} (hrow : s.rows userId = some row) :
    match (count config userId failed fails s).1 with
    | .ok _ => StreakCounted config userId failed s (count config userId failed fails s).2
    | .error _ => StreakKept userId s (count config userId failed fails s).2 := by
  rw [count, work_bind]
  cases fails with
  | true => exact .refl userId s
  | false =>
    have hrun := alone_transaction () s.rows s.rows (countStreak userId failed)
    rw [alone_countStreak, hrow] at hrun
    cases hload : row.load with
    | error e =>
      simp only [hload] at hrun
      have hsession : inSession false (countStreak userId failed) s = (.error (.calendar e), s) := by
        simp only [inSession, Bool.false_eq_true, if_false, hrun]
      rw [hsession]
      exact .refl userId s
    | ok settings =>
      simp only [hload] at hrun
      have hsession : inSession false (countStreak userId failed) s =
          (.ok (some row.failureStreak), { s with
            rows := Function.update s.rows userId
              (some { row with failureStreak := if failed then row.failureStreak + 1 else 0 }) }) := by
        simp only [inSession, Bool.false_eq_true, if_false, hrun]
      rw [hsession]
      refine ⟨row.failureStreak, streakOf_eq hrow, ?_, rfl⟩
      change (Function.update s.rows userId (some _) userId).map SettingsRow.failureStreak = _
      rw [Function.update_self]
      rfl

/-- `_advance` leaves the streak and the log alone. -/
theorem advanceAfter_streak (config : SchedulerConfig) {userId : UserId} (op : ScheduledOperation)
    (now : Moment) (outcome : Option RunOutcome) (fails : Bool) {s : SchedulerState}
    {row : StoredSettings} (hrow : s.rows userId = some row) :
    StreakKept userId s (advanceAfter config userId op now outcome fails s).2 ∧
      ∃ row', (advanceAfter config userId op now outcome fails s).2.rows userId = some row' := by
  cases fails with
  | true => exact ⟨⟨rfl, rfl⟩, row, hrow⟩
  | false =>
    have hrun := alone_transaction () s.rows s.rows (advance config userId op now)
    rw [alone_advance, hrow] at hrun
    cases hnext : nextOf config row op now with
    | error e =>
      simp only [hnext] at hrun
      simp only [advanceAfter, inSession, ExceptT.run, Bool.false_eq_true, if_false, hrun]
      exact ⟨⟨rfl, rfl⟩, row, hrow⟩
    | ok next =>
      simp only [hnext] at hrun
      simp only [advanceAfter, inSession, ExceptT.run, Bool.false_eq_true, if_false, hrun]
      refine ⟨⟨?_, rfl⟩, row.setNextAt op next, Function.update_self ..⟩
      have hstreak : (row.setNextAt op next).failureStreak = row.failureStreak := by cases op <;> rfl
      rw [streakOf_eq hrow, ← hstreak]
      change (Function.update s.rows userId (some _) userId).map SettingsRow.failureStreak = _
      rw [Function.update_self]
      rfl

/-- What is counted after an operation was taken up. -/
theorem advance_then_count (config : SchedulerConfig) (userId : UserId) (op : ScheduledOperation)
    (now : Moment) (outcome : Option RunOutcome) (failed advanceFails countFails : Bool)
    {s : SchedulerState} {row : StoredSettings} (hrow : s.rows userId = some row) :
    let run := (advanceAfter config userId op now outcome advanceFails >>= fun _ =>
      count config userId failed countFails) s
    match run.1 with
    | .ok _ => StreakCounted config userId failed s run.2
    | .error _ => StreakKept userId s run.2 := by
  dsimp only
  rw [work_bind]
  obtain ⟨hkept, row', hrow'⟩ := advanceAfter_streak config op now outcome advanceFails hrow
  generalize advanceAfter config userId op now outcome advanceFails s = run at hkept hrow'
  obtain ⟨r, s'⟩ := run
  cases r with
  | error e => exact hkept
  | ok _ =>
    have hcount := count_streak config userId failed countFails hrow'
    dsimp only at hcount ⊢
    cases hresult : (count config userId failed countFails s').1 with
    | error e =>
      rw [hresult] at hcount
      exact hkept.trans hcount
    | ok _ =>
      rw [hresult] at hcount
      exact hkept.then_counted hcount

/-- `_operate` counts what `countedAs` says, and leaves the streak and the log alone otherwise. -/
theorem operate_streak (config : SchedulerConfig) (turn : Turn) (userId : UserId)
    (op : ScheduledOperation) (now : Moment) (s : SchedulerState) :
    match countedAs config turn userId op now s with
    | none => StreakKept userId s (operate config turn userId op now s).2
    | some failed => StreakCounted config userId failed s (operate config turn userId op now s).2 := by
  rw [countedAs, operate, work_bind]
  rcases inSession_getSettings turn.readFails userId s with ⟨e, hget⟩ | ⟨hrow, hget⟩ |
    ⟨row, settings, hrow, hload, hget⟩
  · rw [hget]
    cases s.rows userId with
    | none => exact .refl userId s
    | some row =>
      dsimp only
      split_ifs <;> exact .refl userId s
  · rw [hget, hrow]
    exact .refl userId s
  · have hwanted : settings.investCashEnabled = row.investCashEnabled :=
      congrArg UserSettings.investCashEnabled (toUserSettings_of_load hload)
    rw [hget, hrow]
    dsimp only
    rw [hwanted]
    by_cases hoff : op = .invest ∧ row.investCashEnabled = false
    · simp only [if_pos hoff]
      exact (advanceAfter_streak config op now none turn.advanceFails hrow).1
    · simp only [if_neg hoff]
      cases turn.outcome with
      | evaluationBusy => exact ⟨rfl, rfl⟩
      | notReady =>
        have hkept := (advanceAfter_streak config op now (some .notReady) turn.advanceFails hrow).1
        dsimp only [RunOutcome.counts]
        cases (advanceAfter config userId op now (some .notReady) turn.advanceFails s).1 <;>
          exact hkept
      | raised =>
        have hcounted := advance_then_count config userId op now (some .raised) true turn.advanceFails
          turn.countFails hrow
        dsimp only [RunOutcome.counts] at hcounted ⊢
        generalize (advanceAfter config userId op now (some .raised) turn.advanceFails >>= fun _ =>
          count config userId true turn.countFails) s = run at hcounted ⊢
        obtain ⟨r, s'⟩ := run
        cases r <;> exact hcounted
      | result r =>
        have hcounted := advance_then_count config userId op now (some (.result r)) (runFailed r)
          turn.advanceFails turn.countFails hrow
        dsimp only [RunOutcome.counts] at hcounted ⊢
        generalize (advanceAfter config userId op now (some (.result r)) turn.advanceFails >>= fun _ =>
          count config userId (runFailed r) turn.countFails) s = run at hcounted ⊢
        obtain ⟨r', s'⟩ := run
        cases r' <;> exact hcounted

/-! ## A history -/

/-- The lines that an outcome calls for. -/
def linesOf (userId : UserId) (e : Trial) : List StreakLine :=
  (if e.Reaches then [.warning userId e.after] else []) ++
    if e.failed = false ∧ e.threshold ≤ e.before then [.recovered userId e.before] else []

theorem streakLines_eq (userId : UserId) (config : SchedulerConfig) (e : Trial)
    (h : e.threshold = config.alertStreak) :
    streakLines config userId e.failed (some e.before) = linesOf userId e := by
  rw [streakLines, linesOf]
  cases hfailed : e.failed <;> simp [Trial.Reaches, Trial.after, hfailed, h]

/-- The operations counted from one platform to another: they count on from the streak before, and log
what they call for and nothing else. -/
structure CountsOn (userId : UserId) (p : Platform) (counted : List Counted) (p' : Platform) :
    Prop where
  follows : (counted.map Counted.toTrial).IsChain Continues
  first : ∀ e ∈ counted.head?, streakOf userId p.state = some e.before
  last : streakOf userId p'.state =
    (counted.getLast?.map fun e => e.after).or (streakOf userId p.state)
  lines : ∀ e ∈ counted, e.lines = linesOf userId e.toTrial
  log : p'.state.lines = p.state.lines ++ counted.flatMap Counted.lines

theorem CountsOn.none {userId : UserId} {p p' : Platform} (h : StreakKept userId p.state p'.state) :
    CountsOn userId p [] p' :=
  ⟨.nil, by simp, by simpa using h.streak, by simp, by simpa using h.lines⟩

/-- One event. -/
theorem perform_countsOn (userId : UserId) (p : Platform) (event : HistoryEvent) :
    CountsOn userId p (event.perform userId p).1 (event.perform userId p).2 := by
  cases event with
  | restart config => exact .none (.refl userId p.state)
  | edited edit =>
    refine .none ⟨?_, rfl⟩
    change (Function.update p.state.rows userId _ userId).map SettingsRow.failureStreak = _
    rw [Function.update_self, streakOf]
    cases p.state.rows userId with
    | none => rfl
    | some row => exact congrArg some (edit.keepsStreak row)
  | operation turn op now =>
    have hstep := operate_streak p.config turn userId op now p.state
    simp only [HistoryEvent.perform]
    cases hcounted : countedAs p.config turn userId op now p.state with
    | none =>
      rw [hcounted] at hstep
      exact .none hstep
    | some failed =>
      rw [hcounted] at hstep
      obtain ⟨before, hbefore, hafter, hlines⟩ := hstep.counted
      constructor
      · exact .singleton _
      · intro e he
        cases he
        rw [hbefore]
        rfl
      · rw [hafter, hbefore]
        rfl
      · intro e he
        cases List.mem_singleton.mp he
        rw [← streakLines_eq userId p.config _ rfl]
        simp only [hlines, hbefore, List.drop_left, Option.getD_some]
      · simp [hlines]

/-- Two stretches of a history, one after the other. -/
theorem CountsOn.append {userId : UserId} {p p' p'' : Platform} {counted others : List Counted}
    (h : CountsOn userId p counted p') (h' : CountsOn userId p' others p'') :
    CountsOn userId p (counted ++ others) p'' where
  follows := by
    rw [List.map_append]
    refine h.follows.append h'.follows ?_
    intro x hx y hy
    rw [List.getLast?_map] at hx
    rw [List.head?_map] at hy
    obtain ⟨e, he, rfl⟩ := Option.map_eq_some_iff.mp hx
    obtain ⟨e', he', rfl⟩ := Option.map_eq_some_iff.mp hy
    have hlast := h.last
    rw [he] at hlast
    exact (Option.some.inj ((h'.first e' he').symm.trans hlast))
  first := by
    intro e he
    cases counted with
    | nil =>
      have hsame : streakOf userId p'.state = streakOf userId p.state := h.last
      rw [← hsame]
      exact h'.first e he
    | cons x rest => exact h.first e he
  last := by
    rw [h'.last, h.last, List.getLast?_append]
    cases others.getLast? <;> rfl
  lines := by
    intro e he
    rcases List.mem_append.mp he with he | he
    · exact h.lines e he
    · exact h'.lines e he
  log := by rw [h'.log, h.log, List.flatMap_append, List.append_assoc]

/-- A whole history. -/
theorem runHistory_countsOn (userId : UserId) (p : Platform) (events : List HistoryEvent) :
    CountsOn userId p (runHistory userId p events).1 (runHistory userId p events).2 := by
  induction events generalizing p with
  | nil => exact .none (.refl userId p.state)
  | cons event rest ih => exact (perform_countsOn userId p event).append (ih _)

/-! ## The law -/

def StreakLine.isWarning : StreakLine → Bool
  | .warning _ _ => true
  | .recovered _ _ => false

/-- The warnings that a run of operations logged. -/
def warnings (run : List Counted) : Nat := (run.flatMap Counted.lines).countP StreakLine.isWarning

/-- The operation logged a recovery. -/
def Counted.Recovered (e : Counted) : Prop := ∃ line ∈ e.lines, line.isWarning = false

/-- In each run of failures that is as long as it gets, one warning is logged if the streak was at or
above the threshold at one of them, and none otherwise; and the success that ends the run logs a
recovery exactly when the run had logged its warning. -/
def OneAlertPerStreak (counted : List Counted) : Prop :=
  ∀ pre run post, counted = pre ++ run ++ post → run ≠ [] → (∀ e ∈ run, e.failed = true) →
    (∀ e ∈ pre.getLast?, e.failed = false) → (∀ e ∈ post.head?, e.failed = false) →
    warnings run = (if ∃ e ∈ run, e.Past then 1 else 0) ∧
      ∀ e ∈ post.head?, e.Recovered ↔ 0 < warnings run

/-- The threshold does not move across the streak from one counted operation to the next. -/
def SteadyThreshold (counted : List Counted) : Prop :=
  (counted.map Counted.toTrial).IsChain Steady

theorem warnings_eq {userId : UserId} {run : List Counted}
    (h : ∀ e ∈ run, e.lines = linesOf userId e.toTrial) :
    warnings run = (run.map Counted.toTrial).countP fun e => decide e.Reaches := by
  induction run with
  | nil => rfl
  | cons e rest ih =>
    have hrest := ih fun x hx => h x (List.mem_cons_of_mem _ hx)
    rw [warnings] at hrest ⊢
    rw [List.flatMap_cons, List.countP_append, hrest, List.map_cons, List.countP_cons, h e List.mem_cons_self,
      linesOf, Nat.add_comm]
    congr 1
    by_cases hreaches : e.Reaches
    · simp [hreaches, hreaches.1, StreakLine.isWarning]
    · by_cases hrecovers : e.failed = false ∧ e.threshold ≤ e.before <;>
        simp [hreaches, hrecovers, StreakLine.isWarning]

theorem recovered_iff {userId : UserId} {e : Counted} (h : e.lines = linesOf userId e.toTrial)
    (hended : e.failed = false) : e.Recovered ↔ e.threshold ≤ e.before := by
  have hreaches : ¬e.Reaches := fun hreaches => Bool.false_ne_true (hended.symm.trans hreaches.1)
  rw [Counted.Recovered, h, linesOf, if_neg hreaches]
  by_cases hpast : e.threshold ≤ e.before <;> simp [hpast, hended, StreakLine.isWarning]

/-- Over any history of a user in which no restart moves the threshold across a streak that it finds,
each streak is alerted once, and nothing else is logged about it. -/
theorem one_alert_per_streak (userId : UserId) (p : Platform) (events : List HistoryEvent)
    (hfresh : streakOf userId p.state = some 0)
    (hsteady : SteadyThreshold (runHistory userId p events).1) :
    OneAlertPerStreak (runHistory userId p events).1 ∧
      (runHistory userId p events).2.state.lines =
        p.state.lines ++ (runHistory userId p events).1.flatMap Counted.lines := by
  have hcounts := runHistory_countsOn userId p events
  refine ⟨?_, hcounts.log⟩
  intro pre run post hsplit hne hfailed hpre hpost
  have hfollows := hcounts.follows
  have hfirst := hcounts.first
  have hlines := hcounts.lines
  rw [SteadyThreshold] at hsteady
  rw [hsplit] at hfollows hsteady hfirst hlines
  rw [List.map_append, List.map_append] at hfollows hsteady
  have hstart : ∀ x ∈ (pre.map Counted.toTrial ++ run.map Counted.toTrial ++
      post.map Counted.toTrial).head?, x.before = 0 := by
    intro x hx
    rw [← List.map_append, ← List.map_append, List.head?_map] at hx
    obtain ⟨e, he, rfl⟩ := Option.map_eq_some_iff.mp hx
    exact (Option.some.inj (hfresh.symm.trans (hfirst e he))).symm
  have hfailed' : ∀ x ∈ run.map Counted.toTrial, x.failed = true := by
    intro x hx
    obtain ⟨e, he, rfl⟩ := List.mem_map.mp hx
    exact hfailed e he
  have hpre' : ∀ x ∈ (pre.map Counted.toTrial).getLast?, x.failed = false := by
    intro x hx
    rw [List.getLast?_map] at hx
    obtain ⟨e, he, rfl⟩ := Option.map_eq_some_iff.mp hx
    exact hpre e he
  obtain ⟨hcount, hended⟩ := maximal_run hfollows hsteady hstart (by simpa using hne) hfailed' hpre'
  have hpast : (∃ x ∈ run.map Counted.toTrial, x.Past) ↔ ∃ e ∈ run, e.Past := by simp
  have hwarnings : warnings run = if ∃ e ∈ run, e.Past then 1 else 0 := by
    rw [warnings_eq fun e he => hlines e (by simp [he]), hcount]
    exact if_congr hpast rfl rfl
  refine ⟨hwarnings, ?_⟩
  intro e he
  have hmem : e ∈ post := List.mem_of_head? he
  rw [recovered_iff (hlines e (by simp [hmem])) (hpost e he),
    hended e.toTrial (by rw [List.head?_map, he]; rfl), hpast, hwarnings]
  split_ifs with hexists <;> simp [hexists]

/-! ## A threshold that moves -/

/-- A process whose alert comes with so many failures. -/
def alertingAt (n : Nat) (h : 0 < n) : SchedulerConfig :=
  { defaultScheduler with alertStreak := n, alertStreak_pos := h }

/-- A scheduled rebalance that raises. -/
def failing : HistoryEvent := .operation { outcome := .raised } .rebalance someNow

/-- A scheduled rebalance that ends well. -/
def succeeding : HistoryEvent :=
  .operation { outcome := .result { status := .done, preview := false } } .rebalance someNow

/-- Three failures with the alert at the third, a restart with the alert at the second, a success. -/
def stillPast : List HistoryEvent :=
  [failing, failing, failing, .restart (alertingAt 2 (by decide)), succeeding]

theorem stillPast_alerts :
    streakOf someUser { rows := quarterHourly } = some 0 ∧
      OneAlertPerStreak (runHistory someUser ⟨defaultScheduler, { rows := quarterHourly }⟩ stillPast).1 := by
  refine ⟨by decide, ?_⟩
  refine (one_alert_per_streak someUser ⟨defaultScheduler, { rows := quarterHourly }⟩ stillPast
    (by decide) ?_).1
  rw [SteadyThreshold]
  decide +kernel

/-- Four failures with the alert at the fifth, a restart with the alert at the third, a fifth failure, and
a success. -/
def movedDown : List HistoryEvent :=
  [failing, failing, failing, failing, .restart defaultScheduler, failing, succeeding]

/-- The streak of five was never warned of, and its recovery is noted. -/
theorem moved_down_never_warned :
    streakOf someUser { rows := quarterHourly } = some 0 ∧
      ¬OneAlertPerStreak (runHistory someUser
        ⟨alertingAt 5 (by decide), { rows := quarterHourly }⟩ movedDown).1 := by
  refine ⟨by decide, fun halert => ?_⟩
  have hcounted : (runHistory someUser ⟨alertingAt 5 (by decide), { rows := quarterHourly }⟩ movedDown).1 =
      [⟨⟨true, 0, 5, by decide⟩, []⟩, ⟨⟨true, 1, 5, by decide⟩, []⟩, ⟨⟨true, 2, 5, by decide⟩, []⟩,
        ⟨⟨true, 3, 5, by decide⟩, []⟩, ⟨⟨true, 4, 3, by decide⟩, []⟩] ++
      [⟨⟨false, 5, 3, by decide⟩, [.recovered someUser 5]⟩] := by
    decide +kernel
  have hrun := (halert [] _ _ hcounted (by simp) (by simp) (by simp) (by simp)).1
  exact absurd hrun (by decide)

end Coinpilot.Core
