import Coinpilot.Scheduling.Isolation

/-!
# Nobody waits for ever

A tick evaluates a batch of the users that are due, most overdue first. Those that are served are due later
again, so whoever is left out moves forward by a batch, less the users whose evaluations cannot be finished.
-/

set_option autoImplicit false

namespace Coinpilot.Core

open Coinpilot.Lib Coinpilot.Lib.Program Coinpilot.Lib.ReadCommitted Coinpilot.Lib.Batch Coinpilot.Api

/-! ## An operation that is finished -/

/-- The user is not busy, and the database does not fail. -/
structure Turn.Completes (turn : Turn) : Prop where
  reads : turn.readFails = false
  advances : turn.advanceFails = false
  counts : turn.countFails = false
  free : turn.outcome ≠ .evaluationBusy

section Operation

variable {config : SchedulerConfig} {userId : UserId} {op : ScheduledOperation} {now : Moment}
  {s : SchedulerState} {row : StoredSettings}

theorem load_of_nextOf {next : Option Moment} (h : nextOf config row op now = .ok next) :
    ∃ settings, row.load = .ok settings := by
  rw [nextOf] at h
  split at h
  · rename_i settings hload
    exact ⟨settings, hload⟩
  · cases h

theorem advanceAfter_ok (hrow : s.rows userId = some row) {next : Option Moment}
    (hnext : nextOf config row op now = .ok next) (outcome : Option RunOutcome) :
    advanceAfter config userId op now outcome false s =
      (.ok (), { s with
        rows := Function.update s.rows userId (some (row.setNextAt op next))
        taken := s.taken ++ [⟨userId, op, now, outcome, true⟩] }) := by
  have hrun := alone_transaction () s.rows s.rows (advance config userId op now)
  rw [alone_advance, hrow] at hrun
  simp only [hnext] at hrun
  simp only [advanceAfter, inSession, ExceptT.run, Bool.false_eq_true, if_false, hrun]

/-- The row as an operation leaves it: its next run, and perhaps another streak. -/
def Moved (op : ScheduledOperation) (next : Option Moment) (row row' : StoredSettings) : Prop :=
  row'.fixed = row.fixed ∧ row'.nextAt op = next ∧ ∀ op', op' ≠ op → row'.nextAt op' = row.nextAt op'

theorem moved_setNextAt (op : ScheduledOperation) (next : Option Moment) (row : StoredSettings) :
    Moved op next row (row.setNextAt op next) :=
  ⟨by simp, by simp, fun op' hop => by simp [hop]⟩

theorem count_ok (config : SchedulerConfig) (hrow : s.rows userId = some row) {settings : LoadedSettings} (hload : row.load = .ok settings)
    (failed : Bool) : ∃ s', count config userId failed false s = (.ok (), s') ∧
      s'.rows userId = some { row with failureStreak := if failed then row.failureStreak + 1 else 0 } := by
  have hrun := alone_transaction () s.rows s.rows (countStreak userId failed)
  rw [alone_countStreak, hrow] at hrun
  simp only [hload] at hrun
  have hcount : count config userId failed false s = (.ok (), { s with
      rows := Function.update s.rows userId
        (some { row with failureStreak := if failed then row.failureStreak + 1 else 0 })
      lines := s.lines ++ streakLines config userId failed (some row.failureStreak) }) := by
    rw [count, work_bind, inSession]
    simp only [Bool.false_eq_true, if_false, hrun]
    rfl
  exact ⟨_, hcount, Function.update_self _ _ _⟩

/-- The count after an operation leaves its next run as it is. -/
theorem then_count_ok {m : SchedulerWork Unit} {s₁ : SchedulerState} (hm : m s = (.ok (), s₁))
    {next : Option Moment} {row₁ : StoredSettings} (hrow : s₁.rows userId = some row₁)
    (hmoved : Moved op next row row₁) {settings : LoadedSettings} (hload : row₁.load = .ok settings)
    (failed : Bool) : ∃ s' row', (m >>= fun _ => count config userId failed false) s = (.ok (), s') ∧
      s'.rows userId = some row' ∧ Moved op next row row' := by
  obtain ⟨s', hcount, hrow'⟩ := count_ok config hrow hload failed
  refine ⟨s', _, ?_, hrow', ?_⟩
  · rw [work_bind, hm]
    exact hcount
  · obtain ⟨hfixed, hnext, hother⟩ := hmoved
    refine ⟨hfixed, ?_, fun op' hop => ?_⟩
    · rw [← hnext]
      cases op <;> rfl
    · rw [← hother op' hop]
      cases op' <;> rfl

theorem load_setNextAt {settings : LoadedSettings} (hload : row.load = .ok settings)
    (op : ScheduledOperation) (next : Option Moment) :
    ∃ settings', (row.setNextAt op next).load = .ok settings' := by
  have hfixed : (row.setNextAt op next).load.map SettingsRow.fixed = row.load.map SettingsRow.fixed := by
    rw [← load_fixed, ← load_fixed, fixed_setNextAt]
  rw [hload] at hfixed
  cases hmoved : (row.setNextAt op next).load with
  | ok settings' => exact ⟨settings', rfl⟩
  | error e =>
    rw [hmoved] at hfixed
    cases hfixed

/-- An operation that is finished has its next run moved. -/
theorem operate_ok {turn : Turn} (hturn : turn.Completes) (hrow : s.rows userId = some row)
    {next : Option Moment} (hnext : nextOf config row op now = .ok next) :
    ∃ s' row', operate config turn userId op now s = (.ok (), s') ∧ s'.rows userId = some row' ∧
      Moved op next row row' := by
  obtain ⟨settings, hload⟩ := load_of_nextOf hnext
  obtain ⟨settings', hload'⟩ := load_setNextAt hload op next
  have hget : inSession turn.readFails (getSettings userId) s = (.ok (some settings), s) := by
    rcases inSession_getSettings turn.readFails userId s with ⟨e, hget⟩ | ⟨hnone, -⟩ |
      ⟨row', settings', hrow', hload', hget⟩
    · rw [hturn.reads] at hget
      have hrun := alone_transaction () s.rows s.rows (getSettings userId)
      rw [alone_getSettings, hrow] at hrun
      simp only [inSession, Bool.false_eq_true, if_false, hrun, hload, Except.map, Except.mapError] at hget
      cases hget
    · rw [hrow] at hnone
      cases hnone
    · obtain rfl := Option.some.inj (hrow.symm.trans hrow')
      obtain rfl := Except.ok.inj (hload.symm.trans hload')
      exact hget
  have hmoved := moved_setNextAt op next row
  rw [operate, work_bind, hget]
  dsimp only
  split
  · rw [hturn.advances, advanceAfter_ok hrow hnext]
    exact ⟨_, _, rfl, Function.update_self _ _ _, hmoved⟩
  · cases houtcome : turn.outcome with
    | evaluationBusy => exact absurd houtcome hturn.free
    | notReady =>
      dsimp only
      rw [hturn.advances, advanceAfter_ok hrow hnext]
      exact ⟨_, _, rfl, Function.update_self _ _ _, hmoved⟩
    | raised =>
      dsimp only
      rw [hturn.advances, hturn.counts]
      exact then_count_ok (advanceAfter_ok hrow hnext _) (Function.update_self _ _ _) hmoved hload' true
    | result r =>
      dsimp only
      rw [hturn.advances, hturn.counts]
      exact then_count_ok (advanceAfter_ok hrow hnext _) (Function.update_self _ _ _) hmoved hload' _

end Operation


/-! ## A user's turn -/

/-- The user is due for an operation. -/
def dueAt (now : Moment) (row : StoredSettings) : Bool :=
  isDue now row.nextInvestAt || isDue now row.nextRebalanceAt

/-- The settings of a user give a next run of both operations. -/
def Computes (config : SchedulerConfig) (row : StoredSettings) (now : Moment) : Prop :=
  ∀ op, ∃ next, nextOf config row op now = .ok next

/-- The row after the user was served: neither operation is due. -/
def Served (now : Moment) (row row' : StoredSettings) : Prop :=
  row'.fixed = row.fixed ∧ ∀ op n, row'.nextAt op = some n → now < n

section Turns

variable {config : SchedulerConfig} {turns : UserId → ScheduledOperation → Turn} {now : Moment}
  {s : SchedulerState} {row : StoredSettings}

theorem Computes.congr {row' : StoredSettings} (h : Computes config row now) (hfixed : row'.fixed = row.fixed) :
    Computes config row' now := by
  intro op
  rw [nextOf_congr hfixed op now]
  exact h op

theorem lt_of_not_due {next : Option Moment} (h : isDue now next = false) {n : Moment} (hn : next = some n) :
    now < n := by
  subst hn
  have hlt : now.instant < n.instant := by simpa [isDue] using h
  exact hlt

theorem Moved.later {op : ScheduledOperation} {next : Option Moment} {row' : StoredSettings}
    (hmoved : Moved op next row row') (hnext : nextOf config row op now = .ok next) {n : Moment}
    (hn : row'.nextAt op = some n) : now < n := by
  have hafter : After config row op now next := hnext
  rw [hmoved.2.1] at hn
  rcases hafter.spec with ⟨-, hnone⟩ | ⟨-, m, hm, -, hlt, -⟩
  · rw [hnone] at hn
    cases hn
  · rw [hm] at hn
    exact Option.some.inj hn ▸ hlt

theorem guarded_ok (hcomputes : Computes config row now) {user : DueUser}
    (hturns : ∀ op, (turns user.userId op).Completes) (hrow : s.rows user.userId = some row)
    (hflags : ∀ op, user.due op = isDue now (row.nextAt op)) :
    ∃ row', (guarded config turns user now s).rows user.userId = some row' ∧ Served now row row' := by
  have hinvest := hflags .invest
  have hrebalance := hflags .rebalance
  simp only [DueUser.due] at hinvest hrebalance
  cases hi : user.investDue with
  | false =>
    cases hr : user.rebalanceDue with
    | false =>
      refine ⟨row, ?_, rfl, fun op n hn => ?_⟩
      · simp only [guarded, hi, hr]
        exact hrow
      · cases op with
        | invest => exact lt_of_not_due (hinvest.symm.trans hi) hn
        | rebalance => exact lt_of_not_due (hrebalance.symm.trans hr) hn
    | true =>
      obtain ⟨next, hnext⟩ := hcomputes .rebalance
      obtain ⟨s', row', hrun, hrow', hmoved⟩ := operate_ok (hturns .rebalance) hrow hnext
      refine ⟨row', ?_, hmoved.1, fun op n hn => ?_⟩
      · have hguarded : guarded config turns user now s =
            (operate config (turns user.userId .rebalance) user.userId .rebalance now s).2 := by
          simp only [guarded, hi, hr]
          rfl
        rw [hguarded, hrun]
        exact hrow'
      · cases op with
        | invest =>
          rw [hmoved.2.2 .invest (by simp)] at hn
          exact lt_of_not_due (hinvest.symm.trans hi) hn
        | rebalance => exact hmoved.later hnext hn
  | true =>
    obtain ⟨next, hnext⟩ := hcomputes .invest
    obtain ⟨s₁, row₁, hrun, hrow₁, hmoved⟩ := operate_ok (hturns .invest) hrow hnext
    cases hr : user.rebalanceDue with
    | false =>
      refine ⟨row₁, ?_, hmoved.1, fun op n hn => ?_⟩
      · simp only [guarded, hi, hr, ExceptT.run, if_true]
        rw [work_bind, hrun]
        exact hrow₁
      · cases op with
        | invest => exact hmoved.later hnext hn
        | rebalance =>
          rw [hmoved.2.2 .rebalance (by simp)] at hn
          exact lt_of_not_due (hrebalance.symm.trans hr) hn
    | true =>
      obtain ⟨next', hnext'⟩ := (hcomputes.congr hmoved.1) .rebalance
      obtain ⟨s', row', hrun', hrow', hmoved'⟩ := operate_ok (hturns .rebalance) hrow₁ hnext'
      refine ⟨row', ?_, hmoved'.1.trans hmoved.1, fun op n hn => ?_⟩
      · simp only [guarded, hi, hr, ExceptT.run, if_true]
        rw [work_bind, hrun]
        dsimp only
        rw [hrun']
        exact hrow'
      · cases op with
        | invest =>
          rw [hmoved'.2.2 .invest (by simp)] at hn
          exact hmoved.later hnext hn
        | rebalance => exact hmoved'.later hnext' hn

theorem guarded_rows_ne {user : DueUser} {userId : UserId} (hne : userId ≠ user.userId) :
    (guarded config turns user now s).rows userId = s.rows userId := by
  obtain ⟨s₁, hinvest, hrebalance⟩ := guarded_attended config turns user now s
  rw [hrebalance.rows_ne hne, hinvest.rows_ne hne]

theorem serve_rows_ne {due : List DueUser} {userId : UserId} (hne : userId ∉ due.map DueUser.userId) :
    (serve config turns now due s).rows userId = s.rows userId := by
  induction due generalizing s with
  | nil => rfl
  | cons user due ih =>
    rw [List.map_cons, List.mem_cons, not_or] at hne
    exact (ih hne.2).trans (guarded_rows_ne hne.1)

/-- A user of the batch whose evaluations are finished has been served. -/
theorem serve_ok {due : List DueUser} (hnodup : (due.map DueUser.userId).Nodup) {user : DueUser}
    (huser : user ∈ due) (hcomputes : Computes config row now)
    (hturns : ∀ op, (turns user.userId op).Completes) (hrow : s.rows user.userId = some row)
    (hflags : ∀ op, user.due op = isDue now (row.nextAt op)) :
    ∃ row', (serve config turns now due s).rows user.userId = some row' ∧ Served now row row' := by
  induction due generalizing s with
  | nil => cases huser
  | cons other due ih =>
    rw [List.map_cons, List.nodup_cons] at hnodup
    rcases List.mem_cons.mp huser with rfl | huser
    · obtain ⟨row', hrow', hserved⟩ := guarded_ok hcomputes hturns hrow hflags
      exact ⟨row', (serve_rows_ne hnodup.1).trans hrow', hserved⟩
    · have hne : user.userId ≠ other.userId := by
        intro heq
        exact hnodup.1 (heq ▸ List.mem_map_of_mem huser)
      exact ih hnodup.2 huser ((guarded_rows_ne hne).trans hrow)

end Turns

/-! ## A tick -/

/-- The users of a tick. -/
def batchOf (config : SchedulerConfig) (t : TickInput) (s : SchedulerState) : List UserId :=
  (dueUsers t.scan s.rows t.now config.batch).map DueUser.userId

/-- Another user is as long overdue as `u`, whose row is `row`. -/
def isAhead (u : UserId) (row : StoredSettings) (rows : Rows UserId StoredSettings) (userId : UserId) : Bool :=
  match rows userId with
  | none => false
  | some other => userId ≠ u && !other.paused && overdueKey other ≤ overdueKey row

/-- A tick that runs over these users, and finishes the evaluations of all but the `stuck`. -/
structure Serves (config : SchedulerConfig) (users : List UserId) (stuck : UserId → Bool)
    (rows : Rows UserId StoredSettings) (t : TickInput) : Prop where
  runs : (t.held || t.priceless) = false
  scan : ∀ userId, userId ∈ t.scan ↔ userId ∈ users
  clock : t.now.instant < FAR_FUTURE
  completes : ∀ userId, stuck userId = false → ∀ op, (t.turns userId op).Completes
  computes : ∀ userId ∈ users, stuck userId = false → ∀ row, rows userId = some row →
    Computes config row t.now

section Ticks

variable {config : SchedulerConfig} {users : List UserId} {stuck : UserId → Bool} {t : TickInput}
  {s : SchedulerState}

theorem tick_eq (h : (t.held || t.priceless) = false) :
    tick config t s = serve config t.turns t.now (dueUsers t.scan s.rows t.now config.batch) s := by
  rw [tick, if_neg (by simp [h])]
  rfl

theorem Serves.congr {rows rows' : Rows UserId StoredSettings} (h : Serves config users stuck rows t)
    (hfixed : ∀ userId, (rows' userId).map SettingsRow.fixed = (rows userId).map SettingsRow.fixed) :
    Serves config users stuck rows' t where
  runs := h.runs
  scan := h.scan
  clock := h.clock
  completes := h.completes
  computes userId huser hgood row' hrow' := by
    have hsame := hfixed userId
    rw [hrow'] at hsame
    obtain ⟨row, hrow, hrowfixed⟩ := Option.map_eq_some_iff.mp hsame.symm
    exact (h.computes userId huser hgood row hrow).congr hrowfixed.symm

theorem overdueKey_le {row : StoredSettings} {now : Moment} (h : dueAt now row = true) :
    overdueKey row ≤ now.instant := by
  rw [dueAt, Bool.or_eq_true] at h
  rw [overdueKey]
  rcases h with h | h
  · cases hnext : row.nextInvestAt with
    | none => simp [hnext, isDue] at h
    | some n =>
      have hle : n.instant ≤ now.instant := by simpa [hnext, isDue] using h
      exact (min_le_left _ _).trans hle
  · cases hnext : row.nextRebalanceAt with
    | none => simp [hnext, isDue] at h
    | some n =>
      have hle : n.instant ≤ now.instant := by simpa [hnext, isDue] using h
      exact (min_le_right _ _).trans hle

theorem Served.key_lt {row row' : StoredSettings} {now : Moment} (h : Served now row row')
    (hclock : now.instant < FAR_FUTURE) : now.instant < overdueKey row' := by
  rw [overdueKey, lt_min_iff]
  constructor
  · cases hnext : row'.nextInvestAt with
    | none => exact hclock
    | some n => exact h.2 .invest n hnext
  · cases hnext : row'.nextRebalanceAt with
    | none => exact hclock
    | some n => exact h.2 .rebalance n hnext

/-- Whoever is due and left out has a full batch ahead. -/
theorem left_out {u : UserId} {row : StoredSettings} (hscan : u ∈ t.scan) (hrow : s.rows u = some row)
    (hpaused : row.paused = false) (hdue : dueAt t.now row = true) (hout : u ∉ batchOf config t s) :
    (batchOf config t s).length = config.batch ∧
      ∀ v ∈ batchOf config t s, isAhead u row s.rows v = true := by
  have hsorted : ((dueRows t.scan s.rows t.now).mergeSort mostOverdue).Pairwise
      fun a b => mostOverdue a b = true :=
    List.pairwise_mergeSort (fun a b c hab hbc => by simp only [mostOverdue, decide_eq_true_eq] at *; omega)
      (fun a b => by simp only [mostOverdue, Bool.or_eq_true, decide_eq_true_eq]; omega) _
  have hmem : (u, row) ∈ (dueRows t.scan s.rows t.now).mergeSort mostOverdue := by
    refine (List.mergeSort_perm _ _).mem_iff.mpr (List.mem_filter.mpr ⟨?_, ?_⟩)
    · exact List.mem_filterMap.mpr ⟨u, hscan, by simp [hrow]⟩
    · simpa [hpaused, dueAt] using hdue
  rw [batchOf, dueUsers_eq, List.map_map] at hout ⊢
  rcases mem_take_or_before hsorted config.batch hmem with htaken | ⟨hlength, hbefore⟩
  · exact absurd (List.mem_map.mpr ⟨_, htaken, rfl⟩) hout
  · refine ⟨by rw [List.length_map, hlength], fun v hv => ?_⟩
    obtain ⟨entry, hentry, rfl⟩ := List.mem_map.mp hv
    have hkey := hbefore entry hentry
    obtain ⟨hfound, hpass⟩ := List.mem_filter.mp
      ((List.mergeSort_perm _ _).mem_iff.mp (List.mem_of_mem_take hentry))
    obtain ⟨v, -, hpair⟩ := List.mem_filterMap.mp hfound
    obtain ⟨row', hrow', rfl⟩ := Option.map_eq_some_iff.mp hpair
    have hpaused' : row'.paused = false := by simp_all
    have hother : v ≠ u := by
      rintro rfl
      exact hout hv
    have hle : overdueKey row' ≤ overdueKey row := by simpa [mostOverdue] using hkey
    simp [dueUserOf, isAhead, hrow', hpaused', hother, hle]

/-- A tick that leaves a due user out brings the user forward by a batch, less the stuck. -/
theorem tick_ahead (hserves : Serves config users stuck s.rows t) {u : UserId} {row : StoredSettings}
    (hu : u ∈ users) (hrow : s.rows u = some row) (hpaused : row.paused = false)
    (hdue : dueAt t.now row = true) (hout : u ∉ batchOf config t s) :
    users.countP (fun v => !stuck v && isAhead u row (tick config t s).rows v) +
        (config.batch - (users.filter stuck).length) ≤
      users.countP fun v => !stuck v && isAhead u row s.rows v := by
  obtain ⟨hfull, hahead⟩ := left_out ((hserves.scan u).mpr hu) hrow hpaused hdue hout
  obtain ⟨hnodup, hspec⟩ := dueUsers_spec t.nodup s.rows t.now config.batch
  have hin : ∀ v ∈ batchOf config t s, v ∈ users := by
    intro v hv
    obtain ⟨user, huser, rfl⟩ := List.mem_map.mp hv
    rw [dueUsers_eq] at huser
    obtain ⟨entry, hentry, rfl⟩ := List.mem_map.mp huser
    have hfound := (List.mem_filter.mp
      ((List.mergeSort_perm _ _).mem_iff.mp (List.mem_of_mem_take hentry))).1
    obtain ⟨v, hscanned, hpair⟩ := List.mem_filterMap.mp hfound
    obtain ⟨row', -, rfl⟩ := Option.map_eq_some_iff.mp hpair
    exact (hserves.scan v).mp hscanned
  -- the stuck that are in the batch are among the stuck of all
  have hfew : ((batchOf config t s).filter stuck).length ≤ (users.filter stuck).length := by
    have hsub : (batchOf config t s).filter stuck ⊆ users.filter stuck := by
      intro v hv
      obtain ⟨hv, hstuck⟩ := List.mem_filter.mp hv
      exact List.mem_filter.mpr ⟨hin v hv, hstuck⟩
    exact ((hnodup.filter stuck).subperm hsub).length_le
  have hmany : config.batch - (users.filter stuck).length ≤
      ((batchOf config t s).filter fun v => !stuck v).length := by
    have hsplit := List.length_eq_length_filter_add (l := batchOf config t s) stuck
    omega
  have hafter : ∀ v ∈ batchOf config t s, stuck v = false →
      isAhead u row (tick config t s).rows v = false := by
    intro v hv hgood
    obtain ⟨user, huser, rfl⟩ := List.mem_map.mp hv
    obtain ⟨row', hrow', -, hflags⟩ := hspec user huser
    obtain ⟨row'', hrow'', hserved⟩ := serve_ok hnodup huser
      (hserves.computes _ (hin _ hv) hgood row' hrow') (hserves.completes _ hgood) hrow' hflags
    rw [tick_eq hserves.runs, isAhead, hrow'']
    have hlater := hserved.key_lt hserves.clock
    have hkey := overdueKey_le hdue
    simp only [Bool.and_eq_false_imp, decide_eq_false_iff_not]
    omega
  have hkept : ∀ v ∈ users, (!stuck v && isAhead u row (tick config t s).rows v) = true →
      (!stuck v && isAhead u row s.rows v) = true := by
    intro v _ hv
    rw [Bool.and_eq_true] at hv ⊢
    refine ⟨hv.1, ?_⟩
    by_cases hbatch : v ∈ batchOf config t s
    · rw [hafter v hbatch (by simpa using hv.1)] at hv
      cases hv.2
    · have hsame : (tick config t s).rows v = s.rows v := by
        rw [tick_eq hserves.runs]
        exact serve_rows_ne hbatch
      simpa [isAhead, hsame] using hv.2
  refine (Nat.add_le_add_left hmany _).trans (countP_add_served (hnodup.filter _) ?_ hkept)
  intro v hv
  obtain ⟨hv, hgood⟩ := List.mem_filter.mp hv
  have hgood : stuck v = false := by simpa using hgood
  exact ⟨hin v hv, by simp [hgood, hahead v hv], by simp [hafter v hv hgood]⟩

end Ticks

/-! ## Every run of ticks -/

/-- Whoever is due and unpaused is evaluated, as long as fewer users are stuck than a batch takes: the ticks
before that are at most the users ahead, by what a batch takes of them. -/
theorem nobody_starves (config : SchedulerConfig) (users : List UserId) (stuck : UserId → Bool)
    (ticks : List TickInput) (s : SchedulerState) {u : UserId} {row : StoredSettings} (hu : u ∈ users)
    (hrow : s.rows u = some row) (hpaused : row.paused = false)
    (hserves : ∀ t ∈ ticks, Serves config users stuck s.rows t) (hdue : ∀ t ∈ ticks, dueAt t.now row = true)
    (hlong : users.countP (fun v => !stuck v && isAhead u row s.rows v) <
      ticks.length * (config.batch - (users.filter stuck).length)) :
    ∃ before t after, ticks = before ++ t :: after ∧ u ∈ batchOf config t (runTicks config s before) ∧
      before.length * (config.batch - (users.filter stuck).length) ≤
        users.countP fun v => !stuck v && isAhead u row s.rows v := by
  induction ticks generalizing s with
  | nil => simp at hlong
  | cons t ticks ih =>
    have hfirst := hserves t List.mem_cons_self
    by_cases hin : u ∈ batchOf config t s
    · exact ⟨[], t, ticks, rfl, hin, by simp⟩
    · have hfewer := tick_ahead hfirst hu hrow hpaused (hdue t List.mem_cons_self) hin
      have hsame : (tick config t s).rows u = some row := by
        rw [tick_eq hfirst.runs, serve_rows_ne hin, hrow]
      rw [List.length_cons, Nat.succ_mul] at hlong
      obtain ⟨before, t', after, heq, hin', hbound⟩ := ih (tick config t s) hsame
        (fun t' ht' => (hserves t' (List.mem_cons_of_mem _ ht')).congr (tick_fixed config t s))
        (fun t' ht' => hdue t' (List.mem_cons_of_mem _ ht')) (by omega)
      refine ⟨t :: before, t', after, by rw [heq]; rfl, hin', ?_⟩
      rw [List.length_cons, Nat.succ_mul]
      omega

/-! ## Three users, two at a time -/

/-- Batches of two. -/
def twoByTwo : SchedulerConfig := { defaultScheduler with batch := 2, batch_pos := Nat.two_pos }

def punctual : UserId := ⟨List.replicate 16 8, List.length_replicate⟩

/-- One row has no anchor and is never moved; of the two others, one is due for a second longer. -/
def threeDue : Rows UserId StoredSettings := fun userId =>
  if userId = punctual then
    some { (newSettings punctual "EUR").stored with
      nextRebalanceAt := some ⟨1791287999 * MICROSECONDS, by decide⟩ }
  else overdueFirst userId

def tickOfThree : TickInput where
  now := someNow
  scan := [someUser, punctual, anchorless]
  nodup := by decide
  turns _ _ := { outcome := .notReady }

theorem tickOfThree_serves :
    Serves twoByTwo [someUser, punctual, anchorless] isAnchorless threeDue tickOfThree where
  runs := rfl
  scan _ := Iff.rfl
  clock := by decide +kernel
  completes _ _ _ := ⟨rfl, rfl, rfl, by simp [tickOfThree]⟩
  computes userId huser hgood row hrow op := by
    have hcomputed : ∀ v ∈ [someUser, punctual], ∀ op' ∈ [ScheduledOperation.invest, .rebalance],
        ((threeDue v).map fun r => (nextOf twoByTwo r op' someNow).isOk) = some true := by decide +kernel
    have hv : userId ∈ [someUser, punctual] := by
      rcases List.mem_cons.mp huser with rfl | hrest
      · exact List.mem_cons_self
      · rcases List.mem_cons.mp hrest with rfl | hlast
        · simp
        · rw [List.mem_singleton.mp hlast] at hgood
          simp [isAnchorless] at hgood
    have hop : op ∈ [ScheduledOperation.invest, .rebalance] := by cases op <;> simp
    have hok := hcomputed userId hv op hop
    rw [hrow, Option.map_some, Option.some.injEq] at hok
    cases hnext : nextOf twoByTwo row op someNow with
    | ok next => exact ⟨next, hnext⟩
    | error e =>
      rw [hnext] at hok
      cases hok

/-- The last of the three is evaluated at the second tick, though one of them keeps its place. -/
theorem nobody_starves_three :
    ∃ row, threeDue someUser = some row ∧
      ∃ before t after, [tickOfThree, tickOfThree] = before ++ t :: after ∧
        someUser ∈ batchOf twoByTwo t (runTicks twoByTwo { rows := threeDue } before) ∧
        before.length * (twoByTwo.batch - ([someUser, punctual, anchorless].filter isAnchorless).length) ≤
          [someUser, punctual, anchorless].countP
            fun v => !isAnchorless v && isAhead someUser row threeDue v := by
  refine ⟨_, rfl, nobody_starves twoByTwo [someUser, punctual, anchorless] isAnchorless
    [tickOfThree, tickOfThree] { rows := threeDue } List.mem_cons_self rfl (by decide +kernel) ?_ ?_ ?_⟩
  · intro t ht
    obtain rfl : t = tickOfThree := by simpa using ht
    exact tickOfThree_serves
  · intro t ht
    obtain rfl : t = tickOfThree := by simpa using ht
    decide +kernel
  · decide +kernel

end Coinpilot.Core
