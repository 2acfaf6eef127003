import Coinpilot.Core.Startup
import Coinpilot.Scheduling.Runs
import Coinpilot.Lib.Batch

/-!
# One bad row fails one user

Two runs are compared, one over a table and one over the table without some of its rows. What the
scheduler does for one user reads and writes that user's row only (`Local`), so the two agree on every
other user (`Agree`), as long as no row left out stops the start, and none stands in the batch of a tick
that cuts another user off.
-/

set_option autoImplicit false

namespace Coinpilot.Core

open Coinpilot.Lib Coinpilot.Lib.Program Coinpilot.Lib.ReadCommitted Coinpilot.Lib.Batch Coinpilot.Api

/-! ## What concerns one user only -/

/-- What a piece of work comes to for one user: its result, their row, and what it takes up. -/
structure Effect (α : Type) where
  result : Except ApiError α
  row : Option StoredSettings
  taken : List TakenUp

/-- The effect of one piece of work and then, unless it raised, of another on the row it left. -/
def Effect.andThen {α β : Type} (e : Effect α) (next : α → Option StoredSettings → Effect β) :
    Effect β :=
  match e.result with
  | .error x => ⟨.error x, e.row, e.taken⟩
  | .ok a => ⟨(next a e.row).result, (next a e.row).row, e.taken ++ (next a e.row).taken⟩

/-- From one state to another there is this effect, and no other. -/
structure Comes {α : Type} (userId : UserId) (e : Effect α) (s : SchedulerState)
    (run : Except ApiError α × SchedulerState) : Prop where
  result : run.1 = e.result
  rows : run.2.rows = Function.update s.rows userId e.row
  taken : run.2.taken = s.taken ++ e.taken
  owner : ∀ x ∈ e.taken, x.userId = userId

/-- The work reads and writes the row of one user, and notes only what it takes up for them. -/
def Local {α : Type} (userId : UserId) (m : SchedulerWork α) : Prop :=
  ∃ f : Option StoredSettings → Effect α, ∀ s, Comes userId (f (s.rows userId)) s (m s)

section Local

variable {α β : Type} {userId : UserId}

/-- Work that leaves the table and the notes as they are. -/
theorem Local.of_kept {m : SchedulerWork α} (f : Option StoredSettings → Except ApiError α)
    (h : ∀ s, (m s).1 = f (s.rows userId) ∧ (m s).2.rows = s.rows ∧ (m s).2.taken = s.taken) :
    Local userId m := by
  refine ⟨fun row => ⟨f row, row, []⟩, fun s => ?_⟩
  obtain ⟨hresult, hrows, htaken⟩ := h s
  exact ⟨hresult, by rw [hrows, Function.update_eq_self], by rw [htaken, List.append_nil], by simp⟩

theorem Local.pure (a : α) : Local userId (pure a : SchedulerWork α) :=
  .of_kept (fun _ => .ok a) fun _ => ⟨rfl, rfl, rfl⟩

theorem Local.bind {m : SchedulerWork α} {k : α → SchedulerWork β} (hm : Local userId m)
    (hk : ∀ a, Local userId (k a)) : Local userId (m >>= k) := by
  obtain ⟨f, hf⟩ := hm
  choose g hg using hk
  refine ⟨fun row => (f row).andThen g, fun s => ?_⟩
  have hfirst := hf s
  change Comes userId ((f (s.rows userId)).andThen g) s ((m >>= k) s)
  rw [work_bind]
  generalize f (s.rows userId) = e at hfirst
  generalize m s = run at hfirst
  obtain ⟨r, s'⟩ := run
  obtain ⟨result, row, taken⟩ := e
  obtain ⟨rfl, hrows, htaken, howner⟩ := hfirst
  cases r with
  | error x => exact ⟨rfl, hrows, htaken, howner⟩
  | ok a =>
    have hsecond := hg a s'
    dsimp only at hrows htaken howner
    rw [hrows, Function.update_self] at hsecond
    refine ⟨hsecond.result, ?_, ?_, ?_⟩
    · exact hsecond.rows.trans (by rw [hrows, Function.update_idem]; rfl)
    · exact hsecond.taken.trans (by rw [htaken, List.append_assoc]; rfl)
    · exact List.forall_mem_append.mpr ⟨howner, hsecond.owner⟩

theorem Local.ite {c : Prop} [Decidable c] {m m' : SchedulerWork α} (h : Local userId m)
    (h' : Local userId m') : Local userId (if c then m else m') := by
  split_ifs
  · exact h
  · exact h'

/-- A note of something taken up for the user. -/
theorem local_note (e : TakenUp) (h : e.userId = userId) :
    Local userId (modify fun s => { s with taken := s.taken ++ [e] } : SchedulerWork Unit) := by
  refine ⟨fun row => ⟨.ok (), row, [e]⟩, fun s => ⟨rfl, ?_, rfl, ?_⟩⟩
  · exact (Function.update_eq_self userId s.rows).symm
  · intro x hx
    rw [List.mem_singleton.mp hx]
    exact h

/-- A session whose transaction comes to something for the row of one user. -/
theorem local_inSession {m : SettingsWork α} (fails : Bool)
    (f : Option StoredSettings → Except ApiError α × Option StoredSettings)
    (h : ∀ rows, (alone ((transaction m).exec ()) rows rows).1.1 = (f (rows userId)).1 ∧
      (alone ((transaction m).exec ()) rows rows).2.1 = Function.update rows userId (f (rows userId)).2) :
    Local userId (inSession fails m) := by
  cases fails with
  | true => exact .of_kept (fun _ => .error .database) fun _ => ⟨rfl, rfl, rfl⟩
  | false =>
    refine ⟨fun row => ⟨(f row).1, (f row).2, []⟩, fun s => ⟨(h s.rows).1, (h s.rows).2, ?_, by simp⟩⟩
    exact (List.append_nil _).symm

theorem update_same {rows : Rows UserId StoredSettings} {row : Option StoredSettings}
    (h : rows userId = row) : Function.update rows userId row = rows := by
  rw [← h, Function.update_eq_self]

/-- What `get_settings` gives. -/
def readRow (row : Option StoredSettings) : Except ApiError (Option LoadedSettings) :=
  match row with
  | none => .ok none
  | some row => (row.load.map some).mapError ApiError.calendar

/-- What `_advance` does to a row. -/
def advanceRow (config : SchedulerConfig) (op : ScheduledOperation) (now : Moment)
    (row : Option StoredSettings) : Except ApiError Unit × Option StoredSettings :=
  match row with
  | none => (.ok (), none)
  | some row =>
      match nextOf config row op now with
      | .error e => (.error (.calendar e), some row)
      | .ok next => (.ok (), some (row.setNextAt op next))

/-- What `_count` does to a row. -/
def countRow (failed : Bool) (row : Option StoredSettings) :
    Except ApiError (Option Nat) × Option StoredSettings :=
  match row with
  | none => (.ok none, none)
  | some row =>
      match row.load with
      | .error e => (.error (.calendar e), some row)
      | .ok _ => (.ok (some row.failureStreak),
          some { row with failureStreak := if failed then row.failureStreak + 1 else 0 })

theorem local_getSettings (fails : Bool) : Local userId (inSession fails (getSettings userId)) := by
  refine local_inSession fails (fun row => (readRow row, row)) fun rows => ?_
  rw [alone_transaction, alone_getSettings, update_same rfl]
  cases rows userId with
  | none => exact ⟨rfl, rfl⟩
  | some row =>
    dsimp only [readRow]
    cases row.load with
    | error e => exact ⟨rfl, rfl⟩
    | ok settings => exact ⟨rfl, rfl⟩

theorem local_advance (config : SchedulerConfig) (op : ScheduledOperation) (now : Moment)
    (fails : Bool) : Local userId (inSession fails (advance config userId op now)) := by
  refine local_inSession fails (advanceRow config op now) fun rows => ?_
  rw [alone_transaction, alone_advance]
  cases hrow : rows userId with
  | none => exact ⟨rfl, (update_same hrow).symm⟩
  | some row =>
    dsimp only [advanceRow]
    cases nextOf config row op now with
    | error e => exact ⟨rfl, (update_same hrow).symm⟩
    | ok next => exact ⟨rfl, rfl⟩

theorem local_countStreak (failed fails : Bool) :
    Local userId (inSession fails (countStreak userId failed)) := by
  refine local_inSession fails (countRow failed) fun rows => ?_
  rw [alone_transaction, alone_countStreak]
  cases hrow : rows userId with
  | none => exact ⟨rfl, (update_same hrow).symm⟩
  | some row =>
    dsimp only [countRow]
    cases row.load with
    | error e => exact ⟨rfl, (update_same hrow).symm⟩
    | ok settings => exact ⟨rfl, rfl⟩

theorem local_count (config : SchedulerConfig) (failed fails : Bool) :
    Local userId (count config userId failed fails) :=
  (local_countStreak failed fails).bind fun _ => .of_kept (fun _ => .ok ()) fun _ => ⟨rfl, rfl, rfl⟩

/-- The note of an operation says whether its next run was moved. -/
theorem local_advanceAfter (config : SchedulerConfig) (op : ScheduledOperation) (now : Moment)
    (outcome : Option RunOutcome) (fails : Bool) :
    Local userId (advanceAfter config userId op now outcome fails) := by
  obtain ⟨f, hf⟩ := @local_advance userId config op now fails
  refine ⟨fun row => ⟨(f row).result, (f row).row,
    (f row).taken ++ [⟨userId, op, now, outcome, (f row).result.isOk⟩]⟩, fun s => ?_⟩
  have hsession := hf s
  change Comes userId _ s (advanceAfter config userId op now outcome fails s)
  simp only [advanceAfter, ExceptT.run]
  generalize f (s.rows userId) = e at hsession
  generalize inSession fails (advance config userId op now) s = run at hsession
  obtain ⟨r, s'⟩ := run
  obtain ⟨result, row, taken⟩ := e
  obtain ⟨rfl, hrows, htaken, howner⟩ := hsession
  refine ⟨rfl, hrows, ?_, ?_⟩
  · dsimp only at htaken ⊢
    rw [htaken, List.append_assoc]
    cases r <;> rfl
  · refine List.forall_mem_append.mpr ⟨howner, fun x hx => ?_⟩
    rw [List.mem_singleton.mp hx]

/-- `_operate` concerns one user only. -/
theorem local_operate (config : SchedulerConfig) (turn : Turn) (op : ScheduledOperation)
    (now : Moment) : Local userId (operate config turn userId op now) := by
  refine (local_getSettings turn.readFails).bind fun settings => ?_
  cases settings with
  | none => exact .pure ()
  | some settings =>
    refine .ite (local_advanceAfter ..) ?_
    cases turn.outcome with
    | evaluationBusy => exact local_note _ rfl
    | notReady => exact local_advanceAfter ..
    | raised => exact (local_advanceAfter ..).bind fun _ => local_count ..
    | result r => exact (local_advanceAfter ..).bind fun _ => local_count ..

end Local

/-- So does `_guarded`. -/
theorem guarded_comes (config : SchedulerConfig) (turns : UserId → ScheduledOperation → Turn)
    (user : DueUser) (now : Moment) :
    ∃ f : Option StoredSettings → Effect Unit, ∀ s, ∃ r,
      Comes user.userId (f (s.rows user.userId)) s (r, guarded config turns user now s) := by
  have hwork : Local user.userId (do
      if user.investDue then operate config (turns user.userId .invest) user.userId .invest now
      if user.rebalanceDue then
        operate config (turns user.userId .rebalance) user.userId .rebalance now) :=
    .ite ((local_operate ..).bind fun _ => .ite (local_operate ..) (.pure ()))
      (.ite (local_operate ..) (.pure ()))
  obtain ⟨f, hf⟩ := hwork
  exact ⟨f, fun s => ⟨_, hf s⟩⟩

/-! ## Two runs -/

/-- A user whose row is not left out. -/
def others (bad : UserId → Bool) (userId : UserId) : Bool := !bad userId

/-- The table without the rows of some users. -/
def without (bad : UserId → Bool) (rows : Rows UserId StoredSettings) : Rows UserId StoredSettings :=
  fun userId => if bad userId then none else rows userId

/-- Two states agree on every user whose row is not left out of the second. -/
structure Agree (bad : UserId → Bool) (s s' : SchedulerState) : Prop where
  rows : s'.rows = without bad s.rows
  taken : s.taken.filter (fun e => others bad e.userId) = s'.taken.filter fun e => others bad e.userId

section Agree

variable {bad : UserId → Bool} {s s' : SchedulerState} {config : SchedulerConfig}
  {turns : UserId → ScheduledOperation → Turn} {now : Moment}

theorem without_good {rows : Rows UserId StoredSettings} {userId : UserId} (h : bad userId = false) :
    without bad rows userId = rows userId := by
  rw [without, if_neg (by simp [h])]

/-- A row that is left out may be written. -/
theorem without_update_bad {rows : Rows UserId StoredSettings} {userId : UserId} (h : bad userId = true)
    (row : Option StoredSettings) : without bad (Function.update rows userId row) = without bad rows := by
  funext other
  by_cases hother : other = userId
  · subst hother
    rw [without, without, if_pos h, if_pos h]
  · rw [without, without, Function.update_of_ne hother]

theorem without_update_good {rows : Rows UserId StoredSettings} {userId : UserId}
    (h : bad userId = false) (row : Option StoredSettings) :
    without bad (Function.update rows userId row) = Function.update (without bad rows) userId row := by
  funext other
  by_cases hother : other = userId
  · subst hother
    rw [without_good h, Function.update_self, Function.update_self]
  · rw [Function.update_of_ne hother, without, without, Function.update_of_ne hother]

/-- A user whose row is left out. -/
theorem Agree.guarded_bad (h : Agree bad s s') {user : DueUser} (hbad : bad user.userId = true) :
    Agree bad (guarded config turns user now s) s' := by
  obtain ⟨f, hf⟩ := guarded_comes config turns user now
  obtain ⟨r, hcomes⟩ := hf s
  have hnone : (f (s.rows user.userId)).taken.filter (fun e => others bad e.userId) = [] := by
    rw [List.filter_eq_nil_iff]
    intro e he
    simp [others, hcomes.owner e he, hbad]
  constructor
  · rw [hcomes.rows, without_update_bad hbad, h.rows]
  · rw [hcomes.taken, List.filter_append, hnone, List.append_nil, h.taken]

/-- Any other user. -/
theorem Agree.guarded_good (h : Agree bad s s') {user : DueUser} (hgood : bad user.userId = false) :
    Agree bad (guarded config turns user now s) (guarded config turns user now s') := by
  obtain ⟨f, hf⟩ := guarded_comes config turns user now
  obtain ⟨r, hcomes⟩ := hf s
  obtain ⟨r', hcomes'⟩ := hf s'
  rw [h.rows, without_good hgood] at hcomes'
  constructor
  · rw [hcomes'.rows, hcomes.rows, without_update_good hgood, h.rows]
  · rw [hcomes'.taken, hcomes.taken, List.filter_append, List.filter_append, h.taken]

/-- The users of a tick, with and without those left out. -/
theorem Agree.serve (h : Agree bad s s') (due : List DueUser) :
    Agree bad (serve config turns now due s)
      (serve config turns now (due.filter fun user => others bad user.userId) s') := by
  induction due generalizing s s' with
  | nil => exact h
  | cons user due ih =>
    cases hbad : bad user.userId with
    | true =>
      rw [List.filter_cons_of_neg (by simp [others, hbad])]
      exact ih (h.guarded_bad hbad)
    | false =>
      rw [List.filter_cons_of_pos (by simp [others, hbad])]
      exact ih (h.guarded_good hbad)

theorem rowsOf_without (scan : List UserId) (rows : Rows UserId StoredSettings) :
    rowsOf scan (without bad rows) = (rowsOf scan rows).filter fun entry => others bad entry.1 := by
  induction scan with
  | nil => rfl
  | cons userId scan ih =>
    rw [rowsOf] at ih ⊢
    rw [rowsOf, List.filterMap_cons, List.filterMap_cons]
    cases hbad : bad userId with
    | true =>
      rw [without, if_pos hbad]
      cases rows userId with
      | none => exact ih
      | some row =>
        dsimp only [Option.map]
        rw [List.filter_cons_of_neg (by simp [others, hbad])]
        exact ih
    | false =>
      rw [without_good hbad]
      cases rows userId with
      | none => exact ih
      | some row =>
        dsimp only [Option.map]
        rw [List.filter_cons_of_pos (by simp [others, hbad])]
        exact congrArg _ ih

/-! ## The users due -/

/-- Every user due, however many, most overdue first. -/
def allDue (scan : List UserId) (rows : Rows UserId StoredSettings) (now : Moment) : List DueUser :=
  dueUsers scan rows now scan.length

/-- The rows that a tick finds due. -/
def dueRows (scan : List UserId) (rows : Rows UserId StoredSettings) (now : Moment) :
    List (UserId × StoredSettings) :=
  (rowsOf scan rows).filter fun entry => !entry.2.paused &&
    (isDue now entry.2.nextInvestAt || isDue now entry.2.nextRebalanceAt)

/-- Most overdue first. -/
def mostOverdue (a b : UserId × StoredSettings) : Bool := overdueKey a.2 ≤ overdueKey b.2

/-- A row as a tick knows it. -/
def dueUserOf (now : Moment) (entry : UserId × StoredSettings) : DueUser :=
  ⟨entry.1, isDue now entry.2.nextInvestAt, isDue now entry.2.nextRebalanceAt⟩

theorem dueUsers_eq (scan : List UserId) (rows : Rows UserId StoredSettings) (now : Moment)
    (limit : Nat) : dueUsers scan rows now limit =
      (((dueRows scan rows now).mergeSort mostOverdue).take limit).map (dueUserOf now) := rfl

theorem length_dueRows_le (scan : List UserId) (rows : Rows UserId StoredSettings) (now : Moment) :
    ((dueRows scan rows now).mergeSort mostOverdue).length ≤ scan.length := by
  rw [List.length_mergeSort]
  exact (List.length_filter_le _ _).trans (List.length_filterMap_le _ _)

theorem dueUsers_eq_take (scan : List UserId) (rows : Rows UserId StoredSettings) (now : Moment)
    (limit : Nat) : dueUsers scan rows now limit = (allDue scan rows now).take limit := by
  rw [allDue, dueUsers_eq, dueUsers_eq, List.take_of_length_le (length_dueRows_le scan rows now),
    List.map_take]

theorem allDue_without (scan : List UserId) (rows : Rows UserId StoredSettings) (now : Moment) :
    allDue scan (without bad rows) now =
      (allDue scan rows now).filter fun user => others bad user.userId := by
  have hrows : dueRows scan (without bad rows) now =
      (dueRows scan rows now).filter fun entry => others bad entry.1 := by
    rw [dueRows, dueRows, rowsOf_without, List.filter_filter, List.filter_filter]
    exact List.filter_congr fun entry _ => Bool.and_comm _ _
  have htrans : ∀ a b c, mostOverdue a b → mostOverdue b c → mostOverdue a c := by
    intro a b c hab hbc
    exact decide_eq_true ((of_decide_eq_true hab).trans (of_decide_eq_true hbc))
  have htotal : ∀ a b, mostOverdue a b || mostOverdue b a := by
    intro a b
    rcases Int.le_total (overdueKey a.2) (overdueKey b.2) with hab | hba
    · rw [mostOverdue, decide_eq_true hab, Bool.true_or]
    · rw [mostOverdue, mostOverdue, decide_eq_true hba, Bool.or_true]
  rw [allDue, allDue, dueUsers_eq, dueUsers_eq,
    List.take_of_length_le (length_dueRows_le scan rows now),
    List.take_of_length_le (length_dueRows_le scan (without bad rows) now), hrows,
    ← filter_mergeSort htrans htotal, List.filter_map]
  rfl

/-! ## A tick -/

/-- No user left out stands in the batch of the tick, or nobody else is cut off by it. -/
def NotDisplaced (config : SchedulerConfig) (bad : UserId → Bool) (t : TickInput)
    (s : SchedulerState) : Prop :=
  (t.held || t.priceless) = true ∨
    Undisplaced (fun user => others bad user.userId) config.batch (allDue t.scan s.rows t.now)

/-- A batch as long as the table cuts nobody off. -/
theorem notDisplaced_of_short {t : TickInput} (h : t.scan.length ≤ config.batch) :
    NotDisplaced config bad t s := by
  refine .inr (.inr ?_)
  have hlength : (allDue t.scan s.rows t.now).length ≤ config.batch := by
    rw [allDue, dueUsers_eq, List.length_map]
    exact ((List.length_take_le _ _).trans (le_refl _)).trans h
  rw [List.drop_of_length_le hlength]
  exact fun x hx => absurd hx List.not_mem_nil

theorem Agree.tick (h : Agree bad s s') (t : TickInput) (hplaced : NotDisplaced config bad t s) :
    Agree bad (tick config t s) (tick config t s') := by
  rw [Core.tick, Core.tick]
  rcases hplaced with hskip | hplaced
  · rw [if_pos hskip, if_pos hskip]
    exact h
  · split_ifs with hskip
    · exact h
    · have hdue : dueUsers t.scan s'.rows t.now config.batch =
          (dueUsers t.scan s.rows t.now config.batch).filter fun user => others bad user.userId := by
        rw [dueUsers_eq_take, dueUsers_eq_take, h.rows, allDue_without, filter_take hplaced]
      rw [hdue]
      exact h.serve _

/-- Each tick of a run meets the condition on the state that it finds. -/
def NeverDisplaced (config : SchedulerConfig) (bad : UserId → Bool) :
    SchedulerState → List TickInput → Prop
  | _, [] => True
  | s, t :: rest => NotDisplaced config bad t s ∧ NeverDisplaced config bad (tick config t s) rest

theorem Agree.runTicks {ticks : List TickInput} (h : Agree bad s s')
    (hplaced : NeverDisplaced config bad s ticks) :
    Agree bad (runTicks config s ticks) (runTicks config s' ticks) := by
  induction ticks generalizing s s' with
  | nil => exact h
  | cons t rest ih => exact ih (h.tick t hplaced.1) hplaced.2

end Agree

/-! ## Start-up -/

/-- The row objects of these rows. -/
def loadAll :
    List (UserId × StoredSettings) → Except CalendarError (List (UserId × LoadedSettings))
  | [] => .ok []
  | (userId, row) :: rest =>
      match row.load, loadAll rest with
      | .error e, _ => .error e
      | .ok _, .error e => .error e
      | .ok settings, .ok others => .ok ((userId, settings) :: others)

/-- What the loop of `backfill` makes of a table. -/
def fillAll (now : Moment) (config : SchedulerConfig) :
    List (UserId × LoadedSettings) → Rows UserId StoredSettings →
      Except ApiError Unit × Rows UserId StoredSettings
  | [], view => (.ok (), view)
  | (userId, settings) :: rest, view =>
      match missingRuns settings now config, view userId with
      | .error e, _ => (.error (.calendar e), view)
      | .ok _, none => (.error .staleData, view)
      | .ok moves, some row =>
          fillAll now config rest (Function.update view userId (some (row.withMoves moves)))

section Start

variable {bad : UserId → Bool} {config : SchedulerConfig} {now : Moment}

theorem alone_loadRows (entries : List (UserId × StoredSettings)) (l : Unit)
    (rows view : Rows UserId StoredSettings) :
    alone ((loadRows entries).exec l) rows view =
      (((loadAll entries).mapError ApiError.calendar, l), rows, view) := by
  induction entries with
  | nil => rfl
  | cons entry rest ih =>
    obtain ⟨userId, row⟩ := entry
    rw [loadRows, alone_bind, loadAll]
    cases row.load with
    | error e => rfl
    | ok settings =>
      simp only [calendarWork, alone_pure, alone_bind, ih]
      cases loadAll rest with
      | error e => rfl
      | ok others => rfl

theorem alone_fillRows (list : List (UserId × LoadedSettings)) (l : Unit)
    (rows view : Rows UserId StoredSettings) :
    alone ((fillRows now config list).exec l) rows view =
      (((fillAll now config list view).1, l), rows, (fillAll now config list view).2) := by
  induction list generalizing view with
  | nil => rfl
  | cons entry rest ih =>
    obtain ⟨userId, settings⟩ := entry
    rw [fillRows, alone_bind, fillAll]
    cases missingRuns settings now config with
    | error e => rfl
    | ok moves =>
      simp only [calendarWork, alone_pure, alone_bind, alone_updateRow]
      cases view userId with
      | none => rfl
      | some row => exact ih _

/-- The rows of `unscheduled_settings`. -/
def unscheduledRows (scan : List UserId) (rows : Rows UserId StoredSettings) :
    List (UserId × StoredSettings) :=
  (rowsOf scan rows).filter fun entry => entry.2.lacks .rebalance || entry.2.lacks .invest

/-- What `backfill` makes of a table: whether it ends well, and the rows it would write. -/
def backfilled (scan : List UserId) (now : Moment) (config : SchedulerConfig)
    (rows : Rows UserId StoredSettings) : Except ApiError Unit × Rows UserId StoredSettings :=
  match loadAll (unscheduledRows scan rows) with
  | .error e => (.error (.calendar e), rows)
  | .ok list => fillAll now config list rows

theorem alone_backfill (scan : List UserId) (l : Unit) (rows : Rows UserId StoredSettings) :
    ∃ n, alone ((backfill scan now config).exec l) rows rows =
      (((backfilled scan now config rows).1.map fun _ => n, l), rows,
        (backfilled scan now config rows).2) := by
  simp only [backfill, unscheduledSettings, alone_bind, alone_select, alone_loadRows, backfilled,
    unscheduledRows]
  cases loadAll ((rowsOf scan rows).filter fun entry =>
      entry.2.lacks .rebalance || entry.2.lacks .invest) with
  | error e => exact ⟨0, rfl⟩
  | ok list =>
    refine ⟨list.length, ?_⟩
    simp only [Except.mapError, alone_fillRows]
    cases (fillAll now config list rows).1 with
    | error e => rfl
    | ok _ => rfl

/-- A start fills the rows, or it leaves the table and does not start the thread. -/
theorem start_eq (config : SchedulerConfig) (t : StartInput) (s : SchedulerState) :
    start config t s =
      if t.fails = false ∧ (backfilled t.scan t.now config s.rows).1.isOk = true then
        (true, { s with rows := (backfilled t.scan t.now config s.rows).2 })
      else (false, s) := by
  cases hfails : t.fails with
  | true => simp only [start, inSession, hfails, if_true, ExceptT.run, Bool.true_eq_false, false_and, if_false]
  | false =>
    obtain ⟨n, hrun⟩ := @alone_backfill config t.now t.scan () s.rows
    simp only [start, inSession, hfails, Bool.false_eq_true, if_false, ExceptT.run, alone_transaction, hrun,
      true_and]
    cases (backfilled t.scan t.now config s.rows).1 with
    | error e => rfl
    | ok _ => rfl

/-! ## Start-up without some of the rows -/

/-- No row left out lacks a next run that `next_run` refuses. -/
def StartsWell (config : SchedulerConfig) (bad : UserId → Bool) (now : Moment)
    (rows : Rows UserId StoredSettings) : Prop :=
  ∀ userId, bad userId = true → ∀ row, rows userId = some row → ∀ op, row.lacks op = true →
    ∃ next, nextOf config row op now = .ok next

theorem loadAll_filter (entries : List (UserId × StoredSettings))
    (hloads : ∀ entry ∈ entries, bad entry.1 = true → ∃ settings, SettingsRow.load entry.2 = .ok settings) :
    loadAll (entries.filter fun entry => others bad entry.1) =
      (loadAll entries).map fun list => list.filter fun entry => others bad entry.1 := by
  induction entries with
  | nil => rfl
  | cons entry rest ih =>
    obtain ⟨userId, row⟩ := entry
    have hrest := ih fun entry hentry => hloads entry (List.mem_cons_of_mem _ hentry)
    cases hbad : bad userId with
    | true =>
      obtain ⟨settings, hload⟩ := hloads _ List.mem_cons_self hbad
      rw [List.filter_cons_of_neg (by simp [others, hbad]), hrest, loadAll, hload]
      cases loadAll rest with
      | error e => rfl
      | ok list =>
        dsimp only [Except.map]
        rw [List.filter_cons_of_neg (by simp [others, hbad])]
    | false =>
      rw [List.filter_cons_of_pos (by simp [others, hbad]), loadAll, loadAll, hrest]
      cases row.load with
      | error e => rfl
      | ok settings =>
        cases loadAll rest with
        | error e => rfl
        | ok list =>
          dsimp only [Except.map]
          rw [List.filter_cons_of_pos (by simp [others, hbad])]

theorem fillAll_filter (list : List (UserId × LoadedSettings)) (view : Rows UserId StoredSettings)
    (hmoves : ∀ entry ∈ list, bad entry.1 = true → ∃ moves, missingRuns entry.2 now config = .ok moves)
    (hrows : ∀ entry ∈ list, (view entry.1).isSome = true) :
    fillAll now config (list.filter fun entry => others bad entry.1) (without bad view) =
      ((fillAll now config list view).1, without bad (fillAll now config list view).2) := by
  induction list generalizing view with
  | nil => rfl
  | cons entry rest ih =>
    obtain ⟨userId, settings⟩ := entry
    obtain ⟨row, hrow⟩ := Option.isSome_iff_exists.mp (hrows _ List.mem_cons_self)
    have hkept : ∀ row' : StoredSettings, ∀ entry ∈ rest,
        (Function.update view userId (some row') entry.1).isSome = true := by
      intro row' entry hentry
      by_cases hsame : entry.1 = userId
      · rw [hsame, Function.update_self]
        rfl
      · rw [Function.update_of_ne hsame]
        exact hrows entry (List.mem_cons_of_mem _ hentry)
    have hrest := fun row' => ih (Function.update view userId (some row'))
      (fun entry hentry => hmoves entry (List.mem_cons_of_mem _ hentry)) (hkept row')
    cases hbad : bad userId with
    | true =>
      obtain ⟨moves, hmove⟩ := hmoves _ List.mem_cons_self hbad
      have hnext := hrest (row.withMoves moves)
      rw [without_update_bad hbad] at hnext
      rw [List.filter_cons_of_neg (by simp [others, hbad]), hnext]
      simp only [fillAll, hmove, hrow]
    | false =>
      rw [List.filter_cons_of_pos (by simp [others, hbad]), fillAll, fillAll, without_good hbad, hrow]
      cases missingRuns settings now config with
      | error e => rfl
      | ok moves =>
        have hnext := hrest (row.withMoves moves)
        rw [without_update_good hbad] at hnext
        exact hnext

/-- A loaded row lacks what the row lacks. -/
theorem lacks_of_load {row : StoredSettings} {settings : LoadedSettings} (h : row.load = .ok settings)
    (op : ScheduledOperation) : settings.lacks op = row.lacks op := by
  have hwanted := congrArg UserSettings.investCashEnabled (toUserSettings_of_load h)
  have hnext := nextAt_of_load h op
  cases op with
  | rebalance => exact congrArg Option.isNone hnext
  | invest => exact congrArg₂ and hwanted (congrArg Option.isNone hnext)

theorem mem_loadAll {entries : List (UserId × StoredSettings)} {list : List (UserId × LoadedSettings)}
    (h : loadAll entries = .ok list) {entry : UserId × LoadedSettings} (hentry : entry ∈ list) :
    ∃ row, (entry.1, row) ∈ entries ∧ row.load = .ok entry.2 := by
  induction entries generalizing list with
  | nil =>
    cases h
    exact absurd hentry List.not_mem_nil
  | cons first rest ih =>
    obtain ⟨userId, row⟩ := first
    rw [loadAll] at h
    cases hload : row.load with
    | error e => simp only [hload] at h; cases h
    | ok settings =>
      cases hrest : loadAll rest with
      | error e => simp only [hload, hrest] at h; cases h
      | ok others =>
        simp only [hload, hrest] at h
        cases h
        rcases List.mem_cons.mp hentry with rfl | hin
        · exact ⟨row, List.mem_cons_self, hload⟩
        · obtain ⟨row', hrow', hload'⟩ := ih hrest hin
          exact ⟨row', List.mem_cons_of_mem _ hrow', hload'⟩

theorem mem_unscheduledRows {scan : List UserId} {rows : Rows UserId StoredSettings}
    {entry : UserId × StoredSettings} (h : entry ∈ unscheduledRows scan rows) :
    rows entry.1 = some entry.2 ∧ ∃ op, entry.2.lacks op = true := by
  obtain ⟨hin, hlacks⟩ := List.mem_filter.mp h
  obtain ⟨userId, -, hmap⟩ := List.mem_filterMap.mp hin
  obtain ⟨row, hrow, rfl⟩ := Option.map_eq_some_iff.mp hmap
  refine ⟨hrow, ?_⟩
  rcases Bool.or_eq_true_iff.mp hlacks with hrebalance | hinvest
  · exact ⟨.rebalance, hrebalance⟩
  · exact ⟨.invest, hinvest⟩

theorem nextOf_of_load {row : StoredSettings} {settings : LoadedSettings} (h : row.load = .ok settings)
    (op : ScheduledOperation) : nextOf config row op now = nextRun settings op now config := by
  rw [nextOf, h]

/-- A row of which nothing that it lacks is refused is filled. -/
theorem missingRuns_ok {settings : LoadedSettings}
    (h : ∀ op, settings.lacks op = true → ∃ next, nextRun settings op now config = .ok next) :
    ∃ moves, missingRuns settings now config = .ok moves := by
  have hall : ∀ ops : List ScheduledOperation, (∀ op ∈ ops, settings.lacks op = true) →
      ∃ moves, (ops.mapM fun op => do
        .ok (op, ← nextRun settings op now config) : Except CalendarError _) = .ok moves := by
    intro ops
    induction ops with
    | nil => exact fun _ => ⟨[], rfl⟩
    | cons op ops ih =>
      intro hlacks
      obtain ⟨next, hnext⟩ := h op (hlacks op List.mem_cons_self)
      obtain ⟨moves, hmoves⟩ := ih fun op hop => hlacks op (List.mem_cons_of_mem _ hop)
      refine ⟨(op, next) :: moves, ?_⟩
      rw [List.mapM_cons, hmoves, hnext]
      rfl
  exact hall _ fun op hop => (List.mem_filter.mp hop).2

theorem backfilled_without {scan : List UserId} {rows : Rows UserId StoredSettings}
    (h : StartsWell config bad now rows) :
    backfilled scan now config (without bad rows) =
      ((backfilled scan now config rows).1, without bad (backfilled scan now config rows).2) := by
  have hentries : unscheduledRows scan (without bad rows) =
      (unscheduledRows scan rows).filter fun entry => others bad entry.1 := by
    rw [unscheduledRows, unscheduledRows, rowsOf_without, List.filter_filter, List.filter_filter]
    exact List.filter_congr fun entry _ => Bool.and_comm _ _
  have hloads : ∀ entry ∈ unscheduledRows scan rows, bad entry.1 = true →
      ∃ settings, SettingsRow.load entry.2 = .ok settings := by
    intro entry hentry hbad
    obtain ⟨hrow, op, hlacks⟩ := mem_unscheduledRows hentry
    obtain ⟨next, hnext⟩ := h entry.1 hbad entry.2 hrow op hlacks
    cases hload : SettingsRow.load entry.2 with
    | ok settings => exact ⟨settings, rfl⟩
    | error e =>
      rw [nextOf, hload] at hnext
      cases hnext
  rw [backfilled, backfilled, hentries, loadAll_filter _ hloads]
  cases hlist : loadAll (unscheduledRows scan rows) with
  | error e => rfl
  | ok list =>
    refine fillAll_filter list rows ?_ ?_
    · intro entry hentry hbad
      obtain ⟨row, hrow, hload⟩ := mem_loadAll hlist hentry
      refine missingRuns_ok fun op hlacks => ?_
      rw [lacks_of_load hload] at hlacks
      rw [← nextOf_of_load hload]
      exact h entry.1 hbad row (mem_unscheduledRows hrow).1 op hlacks
    · intro entry hentry
      obtain ⟨row, hrow, -⟩ := mem_loadAll hlist hentry
      rw [(mem_unscheduledRows hrow).1]
      rfl

/-- A start fills the rows of the other users as it would without those left out. -/
theorem start_agree {s s' : SchedulerState} (t : StartInput) (h : Agree bad s s')
    (hwell : StartsWell config bad t.now s.rows) :
    (start config t s).1 = (start config t s').1 ∧
      Agree bad (start config t s).2 (start config t s').2 := by
  rw [start_eq, start_eq, h.rows, backfilled_without hwell]
  split_ifs with hstarts
  · exact ⟨rfl, rfl, h.taken⟩
  · exact ⟨rfl, h⟩

/-! ## The law -/

/-- The other users' schedule is what it would be without the rows left out: the thread is started or
not, the same operations of theirs are taken up in the same order, and their rows come out the same. -/
def Isolated (config : SchedulerConfig) (bad : UserId → Bool) (t : StartInput) (ticks : List TickInput)
    (rows : Rows UserId StoredSettings) : Prop :=
  let whole := launch config t ticks { rows }
  let rest := launch config t ticks { rows := without bad rows }
  whole.1 = rest.1 ∧ (∀ userId, bad userId = false → whole.2.rows userId = rest.2.rows userId) ∧
    whole.2.taken.filter (fun e => others bad e.userId) = rest.2.taken.filter fun e => others bad e.userId

/-- The rows left out are ones that `next_run` refuses for some operation. -/
def Refused (config : SchedulerConfig) (bad : UserId → Bool) (rows : Rows UserId StoredSettings) : Prop :=
  ∀ userId, bad userId = true → ∃ row op now e, rows userId = some row ∧
    nextOf config row op now = .error e

/-- Whatever the table, a run isolates the other users from some rows if none of these lacks a next run
that is refused when the scheduler starts, and none stands in the batch of a tick that cuts another user
off. -/
theorem one_bad_row_fails_one_user (config : SchedulerConfig) (bad : UserId → Bool) (t : StartInput)
    (ticks : List TickInput) (rows : Rows UserId StoredSettings)
    (hwell : StartsWell config bad t.now rows)
    (hplaced : NeverDisplaced config bad (start config t { rows }).2 ticks) :
    Isolated config bad t ticks rows := by
  have hagree : Agree bad { rows } { rows := without bad rows } := ⟨rfl, rfl⟩
  obtain ⟨hsame, hstart⟩ := start_agree t hagree hwell
  have hlaunch : Agree bad (launch config t ticks { rows }).2
      (launch config t ticks { rows := without bad rows }).2 := by
    simp only [launch, ← hsame]
    split_ifs
    · exact hstart.runTicks hplaced
    · exact hstart
  refine ⟨hsame, fun userId hgood => ?_, hlaunch.taken⟩
  rw [hlaunch.rows, without_good hgood]

end Start

/-! ## A row without an anchor -/

/-- The sixteen bytes of another user. -/
def anchorless : UserId := ⟨List.replicate 16 9, List.length_replicate⟩

/-- A rebalance by the day that has no anchor, and when the two users are next due, if they are. -/
def anchorlessTable (badNext goodNext : Option Moment) : Rows UserId StoredSettings := fun userId =>
  if userId = anchorless then
    some { (newSettings anchorless "EUR").stored with
      rebalance := { mode := .interval, intervalDays := some 1 }
      nextRebalanceAt := badNext }
  else if userId = someUser then
    some { (newSettings someUser "EUR").stored with nextRebalanceAt := goodNext }
  else none

def isAnchorless (userId : UserId) : Bool := userId = anchorless

theorem scan_both : [anchorless, someUser].Nodup := by decide

/-- A start on the two rows. -/
def startBoth : StartInput where
  now := someNow
  scan := [anchorless, someUser]
  nodup := scan_both

/-- A tick on the two rows, two hours later, in which nothing is ready. -/
def tickBoth : TickInput where
  now := ⟨(1791288000 + 7200) * MICROSECONDS, by decide⟩
  scan := [anchorless, someUser]
  nodup := scan_both
  turns _ _ := { outcome := .notReady }

/-- One user a tick. -/
def oneByOne : SchedulerConfig := { defaultScheduler with batch := 1, batch_pos := Nat.one_pos }

theorem anchorless_refused (badNext goodNext : Option Moment) :
    Refused defaultScheduler isAnchorless (anchorlessTable badNext goodNext) := by
  intro userId hbad
  have huser : userId = anchorless := of_decide_eq_true hbad
  refine ⟨_, .rebalance, someNow, .valueError "an INTERVAL cadence needs a length and an anchor",
    by rw [huser, anchorlessTable, if_pos rfl], ?_⟩
  rfl

theorem isolated_within_batch :
    Refused defaultScheduler isAnchorless (anchorlessTable (some someNow) (some someNow)) ∧
      Isolated defaultScheduler isAnchorless startBoth [tickBoth]
        (anchorlessTable (some someNow) (some someNow)) := by
  refine ⟨anchorless_refused _ _, one_bad_row_fails_one_user _ _ _ _ _ ?_ ?_⟩
  · intro userId hbad row hrow op hlacks
    have huser : userId = anchorless := of_decide_eq_true hbad
    rw [huser, anchorlessTable, if_pos rfl] at hrow
    cases hrow
    cases op <;> exact absurd hlacks (by decide)
  · exact ⟨notDisplaced_of_short (by decide), trivial⟩

/-- Both users are due, the one without an anchor before the other. -/
def overdueFirst : Rows UserId StoredSettings :=
  anchorlessTable (some ⟨MINIMUM, by decide⟩) (some someNow)

/-- A tick of one user takes up the one without an anchor, and cannot move their next run. -/
theorem overdueFirst_taken : (launch oneByOne startBoth [tickBoth] { rows := overdueFirst }).2.taken =
    [⟨anchorless, .rebalance, tickBoth.now, some .notReady, false⟩] := by
  have hstart : start oneByOne startBoth { rows := overdueFirst } = (true, { rows := overdueFirst }) := rfl
  have hdue : dueUsers tickBoth.scan overdueFirst tickBoth.now oneByOne.batch =
      [⟨anchorless, false, true⟩] := by
    rw [dueUsers_eq, List.mergeSort_of_pairwise (by decide +kernel)]
    decide +kernel
  have htick : tick oneByOne tickBoth { rows := overdueFirst } =
      guarded oneByOne tickBoth.turns ⟨anchorless, false, true⟩ tickBoth.now { rows := overdueFirst } := by
    rw [tick, if_neg (by decide), hdue]
    rfl
  simp only [launch, hstart, if_true, runTicks, List.foldl_cons, List.foldl_nil, htick]
  decide +kernel

/-- Where its next run is missing, the row stops the start for everyone; where it is due, a batch of one
is taken up with it on every tick. -/
theorem anchorless_fails_others :
    (Refused defaultScheduler isAnchorless (anchorlessTable none none) ∧
      ¬Isolated defaultScheduler isAnchorless startBoth [] (anchorlessTable none none)) ∧
    ¬Isolated oneByOne isAnchorless startBoth [tickBoth] overdueFirst := by
  refine ⟨⟨anchorless_refused _ _, fun h => ?_⟩, fun h => ?_⟩
  · exact absurd h.1 (by decide +kernel)
  · have htaken := h.2.2
    rw [overdueFirst_taken] at htaken
    exact absurd htaken (by decide +kernel)

end Coinpilot.Core
