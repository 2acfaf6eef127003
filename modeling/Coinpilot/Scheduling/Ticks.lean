import Coinpilot.Core.Scheduler
import Coinpilot.Lib.Recurrence
import Coinpilot.Scheduling.Slots

/-!
# A tick and one operation of one user

A tick either leaves an operation alone or takes it up once, where it is due (`tick_step`): the
operation is a recurrence whose next time is computed from the settings, which a tick leaves as they
are.
-/

set_option autoImplicit false

namespace Coinpilot.Core

open Coinpilot.Lib Coinpilot.Lib.Program Coinpilot.Lib.ReadCommitted

/-! ## What the scheduler leaves alone -/

/-- A row without the columns that the scheduler owns. -/
def SettingsRow.fixed {τ : Type} (row : SettingsRow τ) : SettingsRow τ :=
  { row with nextInvestAt := none, nextRebalanceAt := none, failureStreak := 0 }

@[simp] theorem fixed_setNextAt {τ : Type} (row : SettingsRow τ) (op : ScheduledOperation)
    (next : Option Moment) : (row.setNextAt op next).fixed = row.fixed := by
  cases op <;> rfl

/-- The next run of a stored row. -/
def nextOf (config : SchedulerConfig) (row : StoredSettings) (op : ScheduledOperation)
    (now : Moment) : Except CalendarError (Option Moment) :=
  match row.load with
  | .ok settings => nextRun settings op now config
  | .error e => .error e

theorem nextOf_fixed (config : SchedulerConfig) (row : StoredSettings) (op : ScheduledOperation)
    (now : Moment) : nextOf config row.fixed op now = nextOf config row op now := by
  simp only [nextOf, SettingsRow.load, SettingsRow.fixed, bind, Except.bind]
  cases row.invest.mapM AwareDatetime.ofInstant with
  | error e => rfl
  | ok invest =>
    cases row.rebalance.mapM AwareDatetime.ofInstant with
    | error e => rfl
    | ok rebalance => cases op <;> rfl

theorem nextOf_congr {config : SchedulerConfig} {row row' : StoredSettings}
    (h : row.fixed = row'.fixed) (op : ScheduledOperation) (now : Moment) :
    nextOf config row op now = nextOf config row' op now := by
  rw [← nextOf_fixed config row, ← nextOf_fixed config row', h]

/-- The next run that the settings of a row give after `now`. -/
def After (config : SchedulerConfig) (row : StoredSettings) (op : ScheduledOperation)
    (now : Moment) (next : Option Moment) : Prop := nextOf config row op now = .ok next

/-! ## The transactions of an operation -/

theorem nextAt_of_load {row : StoredSettings} {settings : LoadedSettings}
    (h : row.load = .ok settings) (op : ScheduledOperation) : settings.nextAt op = row.nextAt op := by
  simp only [SettingsRow.load, bind, Except.bind] at h
  split at h
  · cases h
  · split at h
    · cases h
    · cases h
      cases op <;> rfl

theorem failureStreak_of_load {row : StoredSettings} {settings : LoadedSettings}
    (h : row.load = .ok settings) : settings.failureStreak = row.failureStreak := by
  simp only [SettingsRow.load, bind, Except.bind] at h
  split at h
  · cases h
  · split at h
    · cases h
    · cases h
      rfl

/-- Loading a row keeps the settings that are not of a cadence. -/
theorem toUserSettings_of_load {row : StoredSettings} {settings : LoadedSettings}
    (h : row.load = .ok settings) : settings.toUserSettings = row.toUserSettings := by
  simp only [SettingsRow.load, bind, Except.bind] at h
  split at h
  · cases h
  · split at h
    · cases h
    · cases h
      rfl

theorem setNextAt_self {τ : Type} (row : SettingsRow τ) (op : ScheduledOperation) :
    row.setNextAt op (row.nextAt op) = row := by
  cases op <;> rfl

section Evaluation

variable (rows view : Rows UserId StoredSettings) (l : Unit)

theorem alone_getSettings (userId : UserId) :
    alone ((getSettings userId).exec l) rows view =
      ((match view userId with
        | none => .ok none
        | some row => (row.load.map some).mapError ApiError.calendar, l), rows, view) := by
  simp only [getSettings, alone_bind, alone_select]
  cases view userId with
  | none => rfl
  | some row =>
    simp only [loadRow, alone_bind]
    cases row.load with
    | ok settings => rfl
    | error e => rfl

/-- What `_advance` does: the next run of the row, or nothing. -/
theorem alone_advance (config : SchedulerConfig) (userId : UserId) (op : ScheduledOperation)
    (now : Moment) :
    alone ((advance config userId op now).exec l) rows view =
      match view userId with
      | none => ((.ok (), l), rows, view)
      | some row =>
          match nextOf config row op now with
          | .error e => ((.error (.calendar e), l), rows, view)
          | .ok next =>
              ((.ok (), l), rows, Function.update view userId (some (row.setNextAt op next))) := by
  simp only [advance, alone_bind, alone_getSettings]
  cases hrow : view userId with
  | none => rfl
  | some row =>
    simp only [nextOf]
    cases hload : row.load with
    | error e => rfl
    | ok settings =>
      simp only [Except.map, Except.mapError]
      rw [alone_bind]
      cases hnext : nextRun settings op now config with
      | error e => rfl
      | ok next =>
        simp only [calendarWork, alone_pure]
        by_cases hsame : settings.nextAt op = next
        · rw [if_pos hsame, alone_pure, ← hsame, nextAt_of_load hload, setNextAt_self, ← hrow,
            Function.update_eq_self]
        · rw [if_neg hsame, alone_bind, alone_updateRow, hrow]
          rfl

/-- What `_count` does: the streak of the row, or nothing. -/
theorem alone_countStreak (userId : UserId) (failed : Bool) :
    alone ((countStreak userId failed).exec l) rows view =
      match view userId with
      | none => ((.ok none, l), rows, view)
      | some row =>
          match row.load with
          | .error e => ((.error (.calendar e), l), rows, view)
          | .ok _ =>
              ((.ok (some row.failureStreak), l), rows, Function.update view userId
                (some { row with failureStreak := if failed then row.failureStreak + 1 else 0 })) := by
  simp only [countStreak, alone_bind, alone_getSettings]
  cases hrow : view userId with
  | none => rfl
  | some row =>
    cases hload : row.load with
    | error e => simp only [hload, Except.map, Except.mapError]
    | ok settings =>
      simp only [hload, Except.map, Except.mapError, failureStreak_of_load hload]
      generalize (if failed then row.failureStreak + 1 else 0) = after
      by_cases hsame : after = row.failureStreak
      · have hself : Function.update view userId (some { row with failureStreak := after }) =
            view := by
          rw [hsame, ← Function.update_eq_self userId view, hrow]
          simp
        rw [if_pos hsame, alone_pure, hself]
      · rw [if_neg hsame, alone_bind, alone_updateRow, hrow]
        rfl

end Evaluation

/-! ## One operation -/

/-- What one operation of one user does: at `now` it is taken up once, or it is left alone. -/
structure Operated (config : SchedulerConfig) (userId : UserId) (op : ScheduledOperation)
    (now : Moment) (s s' : SchedulerState) : Prop where
  others : ∀ other, other ≠ userId → s'.rows other = s.rows other
  fixed : (s'.rows userId).map SettingsRow.fixed = (s.rows userId).map SettingsRow.fixed
  otherOp : ∀ op', op' ≠ op →
    (s'.rows userId).bind (·.nextAt op') = (s.rows userId).bind (·.nextAt op')
  taken : (s'.taken = s.taken ∧ (s'.rows userId).bind (·.nextAt op) =
      (s.rows userId).bind (·.nextAt op)) ∨
    ∃ row outcome advanced, s.rows userId = some row ∧
      s'.taken = s.taken ++ [⟨userId, op, now, outcome, advanced⟩] ∧
      (outcome = some .evaluationBusy →
        (s'.rows userId).bind (·.nextAt op) = row.nextAt op) ∧
      (outcome ≠ some .evaluationBusy → advanced = true →
        After config row op now ((s'.rows userId).bind (·.nextAt op)))

/-- What leaves an operation and the settings alone. -/
structure Quiet (userId : UserId) (s s' : SchedulerState) : Prop where
  others : ∀ other, other ≠ userId → s'.rows other = s.rows other
  fixed : (s'.rows userId).map SettingsRow.fixed = (s.rows userId).map SettingsRow.fixed
  next : ∀ op, (s'.rows userId).bind (·.nextAt op) = (s.rows userId).bind (·.nextAt op)
  taken : s'.taken = s.taken

theorem Quiet.refl (userId : UserId) (s : SchedulerState) : Quiet userId s s :=
  ⟨fun _ _ => rfl, rfl, fun _ => rfl, rfl⟩

theorem Quiet.operated {config : SchedulerConfig} {userId : UserId} {s s' : SchedulerState}
    (h : Quiet userId s s') (op : ScheduledOperation) (now : Moment) :
    Operated config userId op now s s' :=
  ⟨h.others, h.fixed, fun op' _ => h.next op', .inl ⟨h.taken, h.next op⟩⟩

theorem Operated.quiet {config : SchedulerConfig} {userId : UserId} {op : ScheduledOperation}
    {now : Moment} {s s' s'' : SchedulerState} (h : Operated config userId op now s s')
    (hq : Quiet userId s' s'') : Operated config userId op now s s'' := by
  constructor
  · intro other hother
    rw [hq.others other hother, h.others other hother]
  · rw [hq.fixed, h.fixed]
  · intro op' hop
    rw [hq.next, h.otherOp op' hop]
  · rw [hq.taken, hq.next]
    exact h.taken

/-- A session whose transaction writes at most one row of the user. -/
theorem inSession_rows {α : Type} (fails : Bool) (m : SettingsWork α) (s : SchedulerState) :
    (inSession fails m s).2.taken = s.taken ∧
      ((inSession fails m s).2.rows = s.rows ∨
        fails = false ∧ (inSession fails m s).2.rows =
          (alone ((transaction m).exec ()) s.rows s.rows).2.1) := by
  cases fails with
  | true => exact ⟨rfl, .inl rfl⟩
  | false => exact ⟨rfl, .inr ⟨rfl, rfl⟩⟩

theorem count_quiet (config : SchedulerConfig) (userId : UserId) (failed fails : Bool)
    (s : SchedulerState) : Quiet userId s (count config userId failed fails s).2 := by
  have hsession : Quiet userId s (inSession fails (countStreak userId failed) s).2 := by
    obtain ⟨htaken, hrows | ⟨-, hrows⟩⟩ := inSession_rows fails (countStreak userId failed) s
    · exact ⟨fun _ _ => by rw [hrows], by rw [hrows], fun _ => by rw [hrows], htaken⟩
    · rw [alone_transaction, alone_countStreak] at hrows
      cases hrow : s.rows userId with
      | none =>
        simp only [hrow] at hrows
        exact ⟨fun _ _ => by rw [hrows], by rw [hrows], fun _ => by rw [hrows], htaken⟩
      | some row =>
        cases hload : row.load with
        | error e =>
          simp only [hrow, hload] at hrows
          exact ⟨fun _ _ => by rw [hrows], by rw [hrows], fun _ => by rw [hrows], htaken⟩
        | ok settings =>
          simp only [hrow, hload] at hrows
          refine ⟨fun other hother => ?_, ?_, fun op => ?_, htaken⟩
          · rw [hrows, Function.update_of_ne hother]
          · rw [hrows, Function.update_self, hrow]
            rfl
          · rw [hrows, Function.update_self, hrow]
            cases op <;> rfl
  have hcount : (count config userId failed fails s).2.rows =
        (inSession fails (countStreak userId failed) s).2.rows ∧
      (count config userId failed fails s).2.taken =
        (inSession fails (countStreak userId failed) s).2.taken := by
    simp only [count, bind, ExceptT.bind, ExceptT.mk, StateT.bind, ExceptT.bindCont]
    rcases inSession fails (countStreak userId failed) s with ⟨r | before, s'⟩
    · exact ⟨rfl, rfl⟩
    · exact ⟨rfl, rfl⟩
  obtain ⟨hrows, htaken⟩ := hcount
  exact ⟨fun other hother => by rw [hrows, hsession.others other hother],
    by rw [hrows, hsession.fixed], fun op => by rw [hrows, hsession.next], htaken.trans hsession.taken⟩

/-- The note of an operation that was taken up, and its next run where that was moved. -/
theorem advanceAfter_operated (config : SchedulerConfig) {userId : UserId} (op : ScheduledOperation)
    (now : Moment) {outcome : Option RunOutcome} (hbusy : outcome ≠ some .evaluationBusy)
    (fails : Bool) {s : SchedulerState} {row : StoredSettings} (hrow : s.rows userId = some row) :
    Operated config userId op now s (advanceAfter config userId op now outcome fails s).2 := by
  have hsame : ∀ advanced, advanced = false → Operated config userId op now s
      { s with taken := s.taken ++ [⟨userId, op, now, outcome, advanced⟩] } := by
    rintro advanced rfl
    exact ⟨fun _ _ => rfl, rfl, fun _ _ => rfl,
      .inr ⟨row, outcome, false, hrow, rfl, fun h => absurd h hbusy, fun _ h => by cases h⟩⟩
  cases fails with
  | true => exact hsame false rfl
  | false =>
    have hrun := alone_transaction () s.rows s.rows (advance config userId op now)
    rw [alone_advance, hrow] at hrun
    cases hnext : nextOf config row op now with
    | error e =>
      simp only [hnext] at hrun
      have hafter : advanceAfter config userId op now outcome false s =
          (.error (.calendar e),
            { s with taken := s.taken ++ [⟨userId, op, now, outcome, false⟩] }) := by
        simp only [advanceAfter, inSession, ExceptT.run, Bool.false_eq_true, if_false, hrun]
      rw [hafter]
      exact hsame false rfl
    | ok next =>
      simp only [hnext] at hrun
      have hafter : advanceAfter config userId op now outcome false s =
          (.ok (), { s with
            rows := Function.update s.rows userId (some (row.setNextAt op next))
            taken := s.taken ++ [⟨userId, op, now, outcome, true⟩] }) := by
        simp only [advanceAfter, inSession, ExceptT.run, Bool.false_eq_true, if_false, hrun]
      rw [hafter]
      constructor
      · intro other hother
        exact Function.update_of_ne hother _ _
      · simp [hrow]
      · intro op' hop
        simp [hrow, hop]
      · refine .inr ⟨row, outcome, true, hrow, rfl, fun h => absurd h hbusy, fun _ _ => ?_⟩
        simpa [After] using hnext

theorem work_bind {α β : Type} (m : SchedulerWork α) (f : α → SchedulerWork β) (s : SchedulerState) :
    (m >>= f) s = match m s with
      | (.ok a, s') => f a s'
      | (.error e, s') => (.error e, s') := by
  change ExceptT.bindCont f (m s).1 (m s).2 = _
  rcases m s with ⟨r | a, s'⟩
  · rfl
  · rfl

/-- A failed step and a step of the streak after it. -/
theorem Operated.then_count {config : SchedulerConfig} {userId : UserId} {op : ScheduledOperation}
    {now : Moment} {s : SchedulerState} {m : SchedulerWork Unit}
    (h : Operated config userId op now s (m s).2) (failed fails : Bool) :
    Operated config userId op now s
      ((m >>= fun _ => count config userId failed fails) s).2 := by
  rw [work_bind]
  generalize m s = run at h ⊢
  obtain ⟨r, s'⟩ := run
  cases r with
  | error e => exact h
  | ok a => exact h.quiet (count_quiet config userId failed fails s')

/-- What `_operate` reads of the settings. -/
theorem inSession_getSettings (fails : Bool) (userId : UserId) (s : SchedulerState) :
    (∃ e, inSession fails (getSettings userId) s = (.error e, s)) ∨
      (s.rows userId = none ∧ inSession fails (getSettings userId) s = (.ok none, s)) ∨
      ∃ row settings, s.rows userId = some row ∧ row.load = .ok settings ∧
        inSession fails (getSettings userId) s = (.ok (some settings), s) := by
  cases fails with
  | true => exact .inl ⟨_, rfl⟩
  | false =>
    have hrun := alone_transaction () s.rows s.rows (getSettings userId)
    rw [alone_getSettings] at hrun
    simp only [inSession, Bool.false_eq_true, if_false, hrun]
    cases hrow : s.rows userId with
    | none => exact .inr (.inl ⟨rfl, rfl⟩)
    | some row =>
      cases hload : row.load with
      | error e =>
        simp only [hload, Except.map, Except.mapError]
        exact .inl ⟨_, rfl⟩
      | ok settings =>
        simp only [hload, Except.map, Except.mapError]
        exact .inr (.inr ⟨row, settings, rfl, hload, rfl⟩)

/-- `_operate` takes its operation up once, or leaves it alone. -/
theorem operate_operated (config : SchedulerConfig) (t : Turn) (userId : UserId)
    (op : ScheduledOperation) (now : Moment) (s : SchedulerState) :
    Operated config userId op now s (operate config t userId op now s).2 := by
  rw [operate, work_bind]
  rcases inSession_getSettings t.readFails userId s with ⟨e, hget⟩ | ⟨hrow, hget⟩ |
    ⟨row, settings, hrow, hload, hget⟩
  · rw [hget]
    exact (Quiet.refl userId s).operated op now
  · rw [hget]
    exact (Quiet.refl userId s).operated op now
  · rw [hget]
    dsimp only
    split
    · exact advanceAfter_operated config op now (by simp) t.advanceFails hrow
    · cases t.outcome with
      | evaluationBusy =>
        refine ⟨fun _ _ => rfl, rfl, fun _ _ => rfl, .inr ⟨row, _, false, hrow, rfl, fun _ => ?_,
          fun h => absurd rfl h⟩⟩
        change (s.rows userId).bind _ = _
        rw [hrow]
        rfl
      | notReady => exact advanceAfter_operated config op now (by simp) t.advanceFails hrow
      | raised =>
        exact (advanceAfter_operated config op now (by simp) t.advanceFails hrow).then_count _ _
      | result r =>
        exact (advanceAfter_operated config op now (by simp) t.advanceFails hrow).then_count _ _

/-! ## An operation as a recurrence -/

/-- The operation was found busy: a request was evaluating the user. -/
def TakenUp.Busy (e : TakenUp) : Prop := e.outcome = some .evaluationBusy

instance (e : TakenUp) : Decidable e.Busy := inferInstanceAs (Decidable (_ = _))

/-- The times that an operation of a user was taken up. -/
def visitsOf (userId : UserId) (op : ScheduledOperation) (taken : List TakenUp) : List TakenUp :=
  taken.filter fun e => e.userId = userId ∧ e.op = op

def TakenUp.visit (e : TakenUp) : Visit Moment := ⟨e.now, !decide e.Busy⟩

/-- One operation of one user: its next run, and the times it was taken up. -/
def recurrenceOf (userId : UserId) (op : ScheduledOperation) (s : SchedulerState) :
    Recurrence Moment :=
  ⟨(s.rows userId).bind (·.nextAt op), (visitsOf userId op s.taken).map TakenUp.visit⟩

/-- Every `_advance` committed. -/
def AllAdvanced (taken : List TakenUp) : Prop := ∀ e ∈ taken, ¬e.Busy → e.advanced = true

theorem AllAdvanced.of_grown {taken taken' : List TakenUp} (h : AllAdvanced taken')
    (hp : taken <+: taken') : AllAdvanced taken :=
  fun e he => h e (hp.subset he)

theorem Operated.taken_grows {config : SchedulerConfig} {userId : UserId} {op : ScheduledOperation}
    {now : Moment} {s s' : SchedulerState} (h : Operated config userId op now s s') :
    s.taken <+: s'.taken := by
  rcases h.taken with ⟨ht, -⟩ | ⟨_, _, _, -, ht, -, -⟩
  · rw [ht]
  · rw [ht]
    exact List.prefix_append _ _

/-- Another operation of the user, and the operations of the others, are left as they are. -/
theorem Operated.recurrence_ne {config : SchedulerConfig} {userId user : UserId}
    {op op' : ScheduledOperation} {now : Moment} {s s' : SchedulerState}
    (h : Operated config user op' now s s') (hne : userId ≠ user ∨ op ≠ op') :
    recurrenceOf userId op s' = recurrenceOf userId op s := by
  have hvisits : visitsOf userId op s'.taken = visitsOf userId op s.taken := by
    rcases h.taken with ⟨ht, -⟩ | ⟨_, _, _, -, ht, -, -⟩
    · rw [ht]
    · have hnot : ¬(user = userId ∧ op' = op) := by
        rintro ⟨rfl, rfl⟩
        rcases hne with hne | hne <;> exact hne rfl
      simp [visitsOf, ht, hnot]
  have hnext : (s'.rows userId).bind (·.nextAt op) = (s.rows userId).bind (·.nextAt op) := by
    by_cases huser : userId = user
    · subst huser
      exact h.otherOp op (hne.resolve_left fun hn => hn rfl)
    · rw [h.others userId huser]
  simp only [recurrenceOf, hvisits, hnext]

/-- The operation itself takes a step of its recurrence, where it is due. -/
theorem Operated.step {config : SchedulerConfig} {userId : UserId} {op : ScheduledOperation}
    {now : Moment} {s s' : SchedulerState} (h : Operated config userId op now s s')
    (hadvances : AllAdvanced s'.taken) {row₀ : StoredSettings}
    (hfixed : (s.rows userId).map SettingsRow.fixed = some row₀.fixed) {n : Moment}
    (hnext : (s.rows userId).bind (·.nextAt op) = some n) (hdue : n ≤ now) :
    Recurrence.Step (After config row₀ op) now (recurrenceOf userId op s)
      (recurrenceOf userId op s') := by
  rcases h.taken with ⟨ht, hsame⟩ | ⟨row, outcome, advanced, hrow, ht, hbusy, hmoved⟩
  · have heq : recurrenceOf userId op s' = recurrenceOf userId op s := by
      simp only [recurrenceOf, ht, hsame]
    rw [heq]
    exact .stay _
  · have hvisits : (visitsOf userId op s'.taken).map TakenUp.visit =
        (visitsOf userId op s.taken).map TakenUp.visit ++
          [⟨now, !decide (outcome = some .evaluationBusy)⟩] := by
      simp [visitsOf, ht, TakenUp.visit, TakenUp.Busy]
      rfl
    have hsettings : row.fixed = row₀.fixed := by simpa [hrow] using hfixed
    by_cases hb : outcome = some .evaluationBusy
    · have heq : recurrenceOf userId op s' = ⟨(recurrenceOf userId op s).next,
          (recurrenceOf userId op s).visits ++ [⟨now, false⟩]⟩ := by
        simp only [recurrenceOf, hvisits, hbusy hb, hrow, Option.bind_some, hb, decide_true,
          Bool.not_true]
      rw [heq]
      exact .refused hnext hdue
    · have hadv : advanced = true := by
        apply hadvances ⟨userId, op, now, outcome, advanced⟩
        · rw [ht]
          simp
        · exact hb
      have heq : recurrenceOf userId op s' = ⟨(s'.rows userId).bind (·.nextAt op),
          (recurrenceOf userId op s).visits ++ [⟨now, true⟩]⟩ := by
        simp only [recurrenceOf, hvisits, hb, decide_false, Bool.not_false]
      have hafter : After config row₀ op now ((s'.rows userId).bind (·.nextAt op)) :=
        (nextOf_congr hsettings op now).symm.trans (hmoved hb hadv)
      rw [heq]
      exact .moved hnext hdue hafter

/-! ## A tick -/

/-- Which cadence called for a user. -/
def DueUser.due (user : DueUser) : ScheduledOperation → Bool
  | .invest => user.investDue
  | .rebalance => user.rebalanceDue

/-- The two operations of a user, each where it is due, and none after one that raised. -/
theorem guarded_operated (config : SchedulerConfig) (turns : UserId → ScheduledOperation → Turn)
    (user : DueUser) (now : Moment) (s : SchedulerState) :
    ∃ s₁, (s₁ = s ∨ user.investDue = true ∧ Operated config user.userId .invest now s s₁) ∧
      (guarded config turns user now s = s₁ ∨
        user.rebalanceDue = true ∧
          Operated config user.userId .rebalance now s₁ (guarded config turns user now s)) := by
  have hinvest := operate_operated config (turns user.userId .invest) user.userId .invest now s
  cases hi : user.investDue with
  | false =>
    cases hr : user.rebalanceDue with
    | false =>
      refine ⟨s, .inl rfl, .inl ?_⟩
      simp only [guarded, hi, hr]
      rfl
    | true =>
      have hrun : guarded config turns user now s =
          (operate config (turns user.userId .rebalance) user.userId .rebalance now s).2 := by
        simp only [guarded, hi, hr]
        rfl
      rw [hrun]
      exact ⟨s, .inl rfl, .inr ⟨rfl, operate_operated _ _ _ _ _ _⟩⟩
  | true =>
    cases hr : user.rebalanceDue with
    | false =>
      refine ⟨_, .inr ⟨rfl, hinvest⟩, .inl ?_⟩
      simp only [guarded, hi, hr, if_true, ExceptT.run]
      rw [work_bind]
      generalize operate config (turns user.userId .invest) user.userId .invest now s = run
      obtain ⟨r | a, s₁⟩ := run
      · rfl
      · rfl
    | true =>
      refine ⟨_, .inr ⟨rfl, hinvest⟩, ?_⟩
      simp only [guarded, hi, hr, if_true, ExceptT.run]
      rw [work_bind]
      generalize operate config (turns user.userId .invest) user.userId .invest now s = run
      obtain ⟨r | a, s₁⟩ := run
      · exact .inl rfl
      · exact .inr ⟨trivial, operate_operated _ _ _ _ _ _⟩

/-- An operation of a user that was not called for, or was taken up or left alone. -/
def Attended (config : SchedulerConfig) (userId : UserId) (op : ScheduledOperation) (now : Moment)
    (called : Bool) (s s' : SchedulerState) : Prop :=
  s' = s ∨ called = true ∧ Operated config userId op now s s'

section Attended

variable {config : SchedulerConfig} {userId user : UserId} {op op' : ScheduledOperation}
  {now : Moment} {called : Bool} {s s' : SchedulerState}

theorem Attended.taken_grows (h : Attended config user op' now called s s') :
    s.taken <+: s'.taken := by
  rcases h with rfl | ⟨-, h⟩
  · exact List.prefix_refl _
  · exact h.taken_grows

theorem Attended.fixed (h : Attended config user op' now called s s') :
    (s'.rows userId).map SettingsRow.fixed = (s.rows userId).map SettingsRow.fixed := by
  rcases h with rfl | ⟨-, h⟩
  · rfl
  · by_cases huser : userId = user
    · rw [huser]
      exact h.fixed
    · rw [h.others userId huser]

theorem Attended.rows_ne (h : Attended config user op' now called s s') (hne : userId ≠ user) :
    s'.rows userId = s.rows userId := by
  rcases h with rfl | ⟨-, h⟩
  · rfl
  · exact h.others userId hne

theorem Attended.recurrence_ne (h : Attended config user op' now called s s')
    (hne : userId ≠ user ∨ op ≠ op') : recurrenceOf userId op s' = recurrenceOf userId op s := by
  rcases h with rfl | ⟨-, h⟩
  · rfl
  · exact h.recurrence_ne hne

theorem Attended.step (h : Attended config userId op now called s s')
    (hadvances : AllAdvanced s'.taken) {row₀ : StoredSettings}
    (hfixed : (s.rows userId).map SettingsRow.fixed = some row₀.fixed)
    (hdue : called = true → ∃ n, (recurrenceOf userId op s).next = some n ∧ n ≤ now) :
    Recurrence.Step (After config row₀ op) now (recurrenceOf userId op s)
      (recurrenceOf userId op s') := by
  rcases h with rfl | ⟨hcalled, h⟩
  · exact .stay _
  · obtain ⟨n, hn, hle⟩ := hdue hcalled
    exact h.step hadvances hfixed hn hle

end Attended

section Guarded

variable {config : SchedulerConfig} {turns : UserId → ScheduledOperation → Turn} {user : DueUser}
  {now : Moment} {s : SchedulerState} {userId : UserId} {op : ScheduledOperation}

theorem guarded_attended (config : SchedulerConfig) (turns : UserId → ScheduledOperation → Turn)
    (user : DueUser) (now : Moment) (s : SchedulerState) :
    ∃ s₁, Attended config user.userId .invest now user.investDue s s₁ ∧
      Attended config user.userId .rebalance now user.rebalanceDue s₁
        (guarded config turns user now s) :=
  guarded_operated config turns user now s

theorem guarded_taken_grows : s.taken <+: (guarded config turns user now s).taken := by
  obtain ⟨s₁, hinvest, hrebalance⟩ := guarded_attended config turns user now s
  exact hinvest.taken_grows.trans hrebalance.taken_grows

theorem guarded_fixed : ((guarded config turns user now s).rows userId).map SettingsRow.fixed =
    (s.rows userId).map SettingsRow.fixed := by
  obtain ⟨s₁, hinvest, hrebalance⟩ := guarded_attended config turns user now s
  exact hrebalance.fixed.trans hinvest.fixed

theorem guarded_recurrence_ne (hne : userId ≠ user.userId) :
    recurrenceOf userId op (guarded config turns user now s) = recurrenceOf userId op s := by
  obtain ⟨s₁, hinvest, hrebalance⟩ := guarded_attended config turns user now s
  rw [hrebalance.recurrence_ne (.inl hne), hinvest.recurrence_ne (.inl hne)]

/-- A user's turn in a tick is one step of each operation, where it is due. -/
theorem guarded_step (hadvances : AllAdvanced (guarded config turns user now s).taken)
    {row₀ : StoredSettings} (hfixed : (s.rows user.userId).map SettingsRow.fixed = some row₀.fixed)
    (hdue : user.due op = true →
      ∃ n, (recurrenceOf user.userId op s).next = some n ∧ n ≤ now) :
    Recurrence.Step (After config row₀ op) now (recurrenceOf user.userId op s)
      (recurrenceOf user.userId op (guarded config turns user now s)) := by
  obtain ⟨s₁, hinvest, hrebalance⟩ := guarded_attended config turns user now s
  cases op with
  | invest =>
    rw [hrebalance.recurrence_ne (.inr (by simp))]
    exact hinvest.step (hadvances.of_grown hrebalance.taken_grows) hfixed hdue
  | rebalance =>
    have hsame := @Attended.recurrence_ne _ user.userId _ .rebalance _ _ _ _ _ hinvest (.inr (by simp))
    rw [← hsame]
    refine hrebalance.step hadvances (hinvest.fixed.trans hfixed) fun hcalled => ?_
    rw [hsame]
    exact hdue hcalled

end Guarded

section Users

variable {config : SchedulerConfig} {turns : UserId → ScheduledOperation → Turn} {now : Moment}
  {userId : UserId} {op : ScheduledOperation}

/-- The users of a tick, one after another. -/
def serve (config : SchedulerConfig) (turns : UserId → ScheduledOperation → Turn) (now : Moment)
    (due : List DueUser) (s : SchedulerState) : SchedulerState :=
  due.foldl (fun s user => guarded config turns user now s) s

theorem serve_taken_grows (due : List DueUser) (s : SchedulerState) :
    s.taken <+: (serve config turns now due s).taken := by
  induction due generalizing s with
  | nil => exact List.prefix_refl _
  | cons user due ih => exact guarded_taken_grows.trans (ih _)

theorem serve_fixed (due : List DueUser) (s : SchedulerState) :
    ((serve config turns now due s).rows userId).map SettingsRow.fixed =
      (s.rows userId).map SettingsRow.fixed := by
  induction due generalizing s with
  | nil => rfl
  | cons user due ih => exact (ih _).trans guarded_fixed

theorem serve_recurrence_ne {due : List DueUser} (hne : userId ∉ due.map DueUser.userId)
    (s : SchedulerState) :
    recurrenceOf userId op (serve config turns now due s) = recurrenceOf userId op s := by
  induction due generalizing s with
  | nil => rfl
  | cons user due ih =>
    simp only [List.map_cons, List.mem_cons, not_or] at hne
    exact (ih hne.2 _).trans (guarded_recurrence_ne hne.1)

/-- The users of a tick are distinct, so a tick is one step of each operation, where it is due. -/
theorem serve_step {row₀ : StoredSettings} {due : List DueUser}
    (hnodup : (due.map DueUser.userId).Nodup) {s : SchedulerState}
    (hadvances : AllAdvanced (serve config turns now due s).taken)
    (hfixed : (s.rows userId).map SettingsRow.fixed = some row₀.fixed)
    (hdue : ∀ user ∈ due, user.userId = userId → user.due op = true →
      ∃ n, (recurrenceOf userId op s).next = some n ∧ n ≤ now) :
    Recurrence.Step (After config row₀ op) now (recurrenceOf userId op s)
      (recurrenceOf userId op (serve config turns now due s)) := by
  induction due generalizing s with
  | nil => exact .stay _
  | cons user due ih =>
    rw [List.map_cons, List.nodup_cons] at hnodup
    obtain ⟨hnotin, hnodup⟩ := hnodup
    have hadvances₁ : AllAdvanced (guarded config turns user now s).taken :=
      hadvances.of_grown (serve_taken_grows due _)
    change Recurrence.Step _ _ _ (recurrenceOf userId op
      (serve config turns now due (guarded config turns user now s)))
    by_cases huser : user.userId = userId
    · subst huser
      rw [serve_recurrence_ne hnotin]
      exact guarded_step hadvances₁ hfixed fun hcalled =>
        hdue user List.mem_cons_self rfl hcalled
    · have hsame : recurrenceOf userId op (guarded config turns user now s) = recurrenceOf userId op s :=
        guarded_recurrence_ne fun h => huser h.symm
      rw [← hsame]
      refine ih hnodup hadvances (guarded_fixed.trans hfixed) fun other hother heq hcalled => ?_
      rw [hsame]
      exact hdue other (List.mem_cons_of_mem _ hother) heq hcalled

end Users

/-! ## The users due -/

theorem scan_nodup {scan : List UserId} (hscan : scan.Nodup) (rows : Rows UserId StoredSettings) :
    ((scan.filterMap fun userId => (rows userId).map fun row => (userId, row)).map Prod.fst).Nodup := by
  have hsub : ((scan.filterMap fun userId => (rows userId).map fun row => (userId, row)).map
      Prod.fst).Sublist scan := by
    clear hscan
    induction scan with
    | nil => exact List.Sublist.refl _
    | cons userId scan ih =>
      cases hrow : rows userId with
      | none =>
        simp only [List.filterMap_cons, hrow, Option.map_none]
        exact ih.cons _
      | some row =>
        simp only [List.filterMap_cons, hrow, Option.map_some, List.map_cons]
        exact ih.cons_cons _
  exact hsub.nodup hscan

/-- The users of a tick are distinct rows of the table, unpaused, and due as their flags say. -/
theorem dueUsers_spec {scan : List UserId} (hscan : scan.Nodup) (rows : Rows UserId StoredSettings)
    (now : Moment) (limit : Nat) :
    ((dueUsers scan rows now limit).map DueUser.userId).Nodup ∧
      ∀ user ∈ dueUsers scan rows now limit, ∃ row, rows user.userId = some row ∧
        row.paused = false ∧ ∀ op, user.due op = isDue now (row.nextAt op) := by
  have hnodup := scan_nodup hscan rows
  simp only [dueUsers]
  generalize hfound : (scan.filterMap fun userId => (rows userId).map fun row => (userId, row)) =
    found at *
  have hmem : ∀ entry ∈ found, rows entry.1 = some entry.2 := by
    intro entry hentry
    rw [← hfound] at hentry
    obtain ⟨userId, -, hmap⟩ := List.mem_filterMap.mp hentry
    obtain ⟨row, hrow, hpair⟩ := Option.map_eq_some_iff.mp hmap
    rw [← hpair]
    exact hrow
  constructor
  · rw [List.map_map]
    change (List.map Prod.fst _).Nodup
    have hfilter := hnodup.sublist ((List.filter_sublist (p := fun entry : UserId × StoredSettings =>
      !entry.2.paused && (isDue now entry.2.nextInvestAt || isDue now entry.2.nextRebalanceAt))).map
        Prod.fst)
    refine List.Nodup.sublist ((List.take_sublist _ _).map Prod.fst) ?_
    exact ((List.mergeSort_perm _ _).map Prod.fst).nodup_iff.mpr hfilter
  · intro user huser
    obtain ⟨entry, hentry, rfl⟩ := List.mem_map.mp huser
    have hentry := (List.mergeSort_perm _ _).mem_iff.mp (List.mem_of_mem_take hentry)
    obtain ⟨hentry, hpass⟩ := List.mem_filter.mp hentry
    refine ⟨entry.2, hmem entry hentry, by simp_all, fun op => ?_⟩
    cases op <;> rfl

/-- A tick is one step of each operation. -/
theorem tick_step {config : SchedulerConfig} (t : TickInput) {s : SchedulerState}
    {userId : UserId} {op : ScheduledOperation} {row₀ : StoredSettings}
    (hadvances : AllAdvanced (tick config t s).taken)
    (hfixed : (s.rows userId).map SettingsRow.fixed = some row₀.fixed) :
    Recurrence.Step (After config row₀ op) t.now (recurrenceOf userId op s)
      (recurrenceOf userId op (tick config t s)) := by
  obtain ⟨hnodup, hspec⟩ := dueUsers_spec t.nodup s.rows t.now config.batch
  by_cases hskip : (t.held || t.priceless) = true
  · simp only [tick, hskip, if_true]
    exact .stay _
  · simp only [tick, hskip] at hadvances ⊢
    refine serve_step hnodup hadvances hfixed fun user huser heq hcalled => ?_
    obtain ⟨row, hrow, -, hflags⟩ := hspec user huser
    rw [hflags op] at hcalled
    rw [heq] at hrow
    simp only [recurrenceOf, hrow, Option.bind_some]
    unfold isDue at hcalled
    split at hcalled
    · cases hcalled
    · rename_i next hnext
      exact ⟨next, hnext, of_decide_eq_true hcalled⟩

theorem tick_fixed (config : SchedulerConfig) (t : TickInput) (s : SchedulerState)
    (userId : UserId) : ((tick config t s).rows userId).map SettingsRow.fixed =
      (s.rows userId).map SettingsRow.fixed := by
  unfold tick
  split
  · rfl
  · exact serve_fixed _ _

theorem tick_taken_grows (config : SchedulerConfig) (t : TickInput) (s : SchedulerState) :
    s.taken <+: (tick config t s).taken := by
  unfold tick
  split
  · exact List.prefix_refl _
  · exact serve_taken_grows _ _

end Coinpilot.Core
