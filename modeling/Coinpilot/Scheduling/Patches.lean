import Coinpilot.Api.Config
import Coinpilot.Scheduling.Slots

/-!
# Settings that the scheduler can follow

What `PATCH /config` does to the settings table with nothing beside it (`patchOutcome`,
`alone_patch`), and which settings have a next run at every later moment (`Followable`,
`followable_iff`).
-/

set_option autoImplicit false

namespace Coinpilot.Api

open Coinpilot.Lib Coinpilot.Lib.Program Coinpilot.Lib.ReadCommitted Coinpilot.Core

/-! ## Rows and row objects -/

theorem AwareDatetime.instant_ofInstant {t : Int} {moment : AwareDatetime}
    (h : AwareDatetime.ofInstant t = .ok moment) : moment.instant = t := by
  simp only [AwareDatetime.ofInstant, bind, Except.bind] at h
  split at h
  · cases h
  · rename_i shown hshown
    cases h
    simp [AwareDatetime.instant, Moment.ofInstant_ok hshown]

theorem stored_of_mapM {columns : CadenceColumns Int} {loaded : CadenceColumns AwareDatetime}
    (h : columns.mapM AwareDatetime.ofInstant = .ok loaded) : loaded.stored = columns := by
  obtain ⟨mode, days, months, anchor⟩ := columns
  cases anchor with
  | none =>
    cases h
    rfl
  | some t =>
    simp only [CadenceColumns.mapM, bind, Except.bind] at h
    split at h
    · cases h
    · rename_i moment hmoment
      cases h
      simp [CadenceColumns.stored, AwareDatetime.instant_ofInstant hmoment]

/-- A loaded row, flushed, is the row. -/
theorem stored_of_load {row : StoredSettings} {settings : LoadedSettings}
    (h : row.load = .ok settings) : settings.stored = row := by
  simp only [SettingsRow.load, bind, Except.bind] at h
  split at h
  · cases h
  · rename_i invest hinvest
    split at h
    · cases h
    · rename_i rebalance hrebalance
      cases h
      simp only [SettingsRow.stored, stored_of_mapM hinvest, stored_of_mapM hrebalance]

/-! ## A request on its own -/

section Evaluation

variable (rows view : Rows UserId StoredSettings) (l : Unit)

@[simp] theorem alone_calendarWork {α : Type} (x : Except CalendarError α) :
    alone ((calendarWork x).exec l) rows view = ((x.mapError ApiError.calendar, l), rows, view) := by
  cases x with
  | ok a => rfl
  | error e => rfl

@[simp] theorem alone_loadRow (row : Option StoredSettings) :
    alone ((loadRow row).exec l) rows view =
      ((match row with
        | none => .ok none
        | some row => (row.load.map some).mapError ApiError.calendar, l), rows, view) := by
  cases row with
  | none => rfl
  | some row =>
    simp only [loadRow, alone_bind, alone_calendarWork]
    cases row.load with
    | ok settings => rfl
    | error e => rfl

@[simp] theorem alone_flushSettings (settings : LoadedSettings) :
    alone ((flushSettings settings).exec l) rows view =
      ((.ok (), l), rows, match view settings.userId with
        | none => view
        | some _ => Function.update view settings.userId (some settings.stored)) := by
  simp only [flushSettings, alone_bind, alone_updateRow]
  cases view settings.userId with
  | none => rfl
  | some row => rfl

end Evaluation

/-! ## What a request does -/

/-- The settings that a body changes, with new ones for the first body. -/
def chosenOutcome (userId : UserId) (fiat : Option String) :
    Option LoadedSettings → Except ApiError LoadedSettings
  | none =>
      match fiat with
      | none => .error (.http 409 "the first PATCH /api/config must choose a fiat")
      | some fiat =>
          if fiat ∈ SUPPORTED_FIATS then .ok (newSettings userId fiat)
          else .error (.http 422 ("supported fiats are " ++ ", ".intercalate SUPPORTED_FIATS))
  | some settings =>
      if ∃ chosen ∈ fiat, chosen ≠ settings.fiat then
        .error (.http 422 "the fiat cannot be changed")
      else .ok settings

/-- The settings that a body leaves, of those it changes. -/
def changedOutcome (config : SchedulerConfig) (now later : Moment) (body : ConfigPatch)
    (created : Bool) (settings : LoadedSettings) : Except ApiError LoadedSettings :=
  match patchProblem body settings with
  | some problem => .error (.http 422 problem)
  | none =>
    match rescheduled (body.apply settings) (if created then fun _ => true else body.touches) now
        config with
    | .error e => .error (.calendar e)
    | .ok moves =>
      let settings := (body.apply settings).withMoves moves
      .ok (if body.onboards settings then { settings with onboardedAt := some later }
        else settings)

/-- The settings that a body leaves in the table. -/
def patchOutcome (config : SchedulerConfig) (userId : UserId) (now later : Moment)
    (body : ConfigPatch) (row : Option StoredSettings) : Except ApiError LoadedSettings :=
  match row.map SettingsRow.load with
  | some (.error e) => .error (.calendar e)
  | some (.ok settings) =>
      match chosenOutcome userId (body.fiat.map fun fiat => upper (strip fiat)) (some settings) with
      | .error e => .error e
      | .ok settings => changedOutcome config now later body false settings
  | none =>
      match chosenOutcome userId (body.fiat.map fun fiat => upper (strip fiat)) none with
      | .error e => .error e
      | .ok settings => changedOutcome config now later body true settings

theorem userId_withMoves {τ : Type} (settings : SettingsRow τ)
    (moves : List (ScheduledOperation × Option Moment)) :
    (settings.withMoves moves).userId = settings.userId := by
  induction moves generalizing settings with
  | nil => rfl
  | cons move moves ih =>
    change ((settings.setNextAt move.1 move.2).withMoves moves).userId = _
    rw [ih, SettingsRow.userId_setNextAt]

theorem over_of_not_set {body : CadencePatch} (h : body.isSet = false)
    (columns : CadenceColumns AwareDatetime) : body.over columns = columns := by
  simp only [CadencePatch.isSet, Bool.or_eq_false_iff, Option.isSome_eq_false_iff,
    Option.isNone_iff_eq_none] at h
  obtain ⟨⟨⟨hmode, hdays⟩, hmonths⟩, hanchor⟩ := h
  simp [CadencePatch.over, hmode, hdays, hmonths, hanchor]

/-- A body without changes leaves the settings as they are. -/
theorem apply_of_no_changes {body : ConfigPatch} (h : body.hasChanges = false)
    (settings : LoadedSettings) : body.apply settings = settings := by
  simp only [ConfigPatch.hasChanges, Bool.or_eq_false_iff, Option.isSome_eq_false_iff,
    Option.isNone_iff_eq_none] at h
  obtain ⟨⟨⟨⟨⟨⟨⟨h₁, h₂⟩, h₃⟩, h₄⟩, h₅⟩, h₆⟩, h₇⟩, h₈⟩ := h
  simp [ConfigPatch.apply, h₁, h₂, h₃, h₄, h₅, h₆, over_of_not_set h₇, over_of_not_set h₈]

/-- A flush that is called where something changed leaves the row of the row object. -/
theorem alone_flushIf {changed : Bool} {settings settings' : LoadedSettings}
    {rows view : Rows UserId StoredSettings}
    (hview : view settings.userId = some settings.stored) (huser : settings'.userId = settings.userId)
    (hsame : changed = false → settings' = settings) (l : Unit) :
    alone ((flushIf changed settings').exec l) rows view =
      ((.ok settings', l), rows,
        Function.update view settings.userId (some settings'.stored)) := by
  cases changed with
  | true =>
    simp only [flushIf, if_true, alone_bind, alone_flushSettings, huser, hview]
    rfl
  | false =>
    rw [hsame rfl, ← hview, Function.update_eq_self]
    rfl

/-- The changes of a request, on a row that the transaction sees as the settings it changes. -/
theorem alone_changeSettings (config : SchedulerConfig) (now later : Moment) (body : ConfigPatch)
    (created : Bool) {settings : LoadedSettings} {rows view : Rows UserId StoredSettings}
    (hview : view settings.userId = some settings.stored) (l : Unit) :
    ∃ view', alone ((changeSettings config now later body created settings).exec l) rows view =
        ((changedOutcome config now later body created settings, l), rows, view') ∧
      ∀ changed, changedOutcome config now later body created settings = .ok changed →
        view' = Function.update view settings.userId (some changed.stored) := by
  unfold changeSettings changedOutcome
  cases patchProblem body settings with
  | some problem => exact ⟨view, rfl, fun changed h => by cases h⟩
  | none =>
    dsimp only
    have hflush := fun l => @alone_flushIf body.hasChanges settings (body.apply settings) rows view
      hview rfl (fun h => apply_of_no_changes h settings) l
    simp only [alone_bind, hflush, alone_calendarWork]
    cases hmoves : rescheduled (body.apply settings)
        (if created then fun _ => true else body.touches) now config with
    | error e => exact ⟨_, rfl, fun changed h => by cases h⟩
    | ok moves =>
      have hmoved := fun l => @alone_flushIf (!moves.isEmpty) (body.apply settings)
        ((body.apply settings).withMoves moves) rows
        (Function.update view settings.userId (some (body.apply settings).stored)) (by simp [ConfigPatch.apply]) (userId_withMoves _ _)
        (fun h => by
          have hnil : moves = [] := by simpa using h
          rw [hnil]
          rfl) l
      simp only [Except.mapError, hmoved]
      have huser : (body.apply settings).userId = settings.userId := rfl
      have huser' := userId_withMoves (body.apply settings) moves
      generalize (body.apply settings).withMoves moves = moved at *
      rw [huser, Function.update_idem] at *
      cases body.onboards moved with
      | false =>
        exact ⟨_, rfl, fun changed h => by
          cases h
          rfl⟩
      | true =>
        have honboard := @alone_flushIf true moved { moved with onboardedAt := some later } rows
          (Function.update view settings.userId (some moved.stored)) (by simp [huser']) rfl (by simp) l
        refine ⟨_, honboard, fun changed h => ?_⟩
        cases h
        rw [huser', Function.update_idem]
        rfl

/-- With nothing beside it, a request leaves the settings it answers in the table, or nothing
changed. -/
theorem alone_patchConfig (config : SchedulerConfig) (userId : UserId) (now later : Moment)
    (body : ConfigPatch) {rows : Rows UserId StoredSettings}
    (hkey : ∀ row, rows userId = some row → row.userId = userId) (l : Unit) :
    alone ((transaction (patchConfig config userId now later body)).exec l) rows rows =
      match patchOutcome config userId now later body (rows userId) with
      | .ok settings =>
          ((.ok settings, l), Function.update rows userId (some settings.stored),
            Function.update rows userId (some settings.stored))
      | .error e => ((.error e, l), rows, rows) := by
  simp only [alone_transaction, patchConfig, alone_bind, lockSettings, alone_lockRow, alone_loadRow]
  cases hrow : rows userId with
  | none =>
    simp only [patchOutcome, Option.map_none, chosenSettings, chosenOutcome]
    cases body.fiat.map fun fiat => upper (strip fiat) with
    | none => rfl
    | some fiat =>
      dsimp only
      by_cases hfiat : fiat ∈ SUPPORTED_FIATS
      · simp only [if_pos hfiat]
        have hinsert : alone ((createSettings userId fiat).exec l) rows rows =
            ((.ok (newSettings userId fiat), l), rows,
              Function.update rows userId (some (newSettings userId fiat).stored)) := by
          simp only [createSettings, alone_bind, alone_insertRow, hrow]
          rfl
        obtain ⟨view', hview', hchanged⟩ := @alone_changeSettings config now later body true
          (newSettings userId fiat) rows
          (Function.update rows userId (some (newSettings userId fiat).stored)) (by simp [newSettings]) l
        simp only [hinsert, Option.isNone_none, hview']
        cases hout : changedOutcome config now later body true (newSettings userId fiat) with
        | error e => rfl
        | ok changed =>
          have hlast := hchanged changed hout
          change _ = Function.update _ userId _ at hlast
          rw [hlast, Function.update_idem]
      · simp only [if_neg hfiat]
        rfl
  | some row =>
    simp only [patchOutcome, Option.map_some]
    cases hload : row.load with
    | error e => rfl
    | ok settings =>
      have hstored := stored_of_load hload
      have huser : settings.userId = userId := by
        rw [← hkey row hrow, ← hstored]
        rfl
      simp only [Except.map, Except.mapError, chosenSettings, chosenOutcome]
      by_cases hfiat : ∃ chosen ∈ body.fiat.map fun fiat => upper (strip fiat), chosen ≠ settings.fiat
      · simp only [if_pos hfiat]
        rfl
      · simp only [if_neg hfiat, alone_pure]
        obtain ⟨view', hview', hchanged⟩ := @alone_changeSettings config now later body false
          settings rows rows (by rw [huser, hrow, hstored]) l
        simp only [Option.isNone_some, hview']
        cases hout : changedOutcome config now later body false settings with
        | error e => rfl
        | ok changed =>
          have hlast := hchanged changed hout
          rw [hlast, huser]

/-! ## Settings with a next run at every moment -/

section Rows

variable {τ : Type}

/-- Whether the operation has a next run at all. -/
def SwitchedOn (settings : SettingsRow τ) (op : ScheduledOperation) : Prop :=
  ¬(op = .invest ∧ settings.investCashEnabled = false)

/-- The lengths of both cadences are those a request may give. -/
def Bounded (settings : SettingsRow τ) : Prop :=
  ∀ op, (0 ≤ (settings.cadence op).intervalDays.getD 0 ∧
      (settings.cadence op).intervalDays.getD 0 ≤ 3650) ∧
    0 ≤ (settings.cadence op).intervalMonths.getD 0 ∧
      (settings.cadence op).intervalMonths.getD 0 ≤ 120

end Rows

/-- The first slot of an anchored cadence that the scheduler follows is a moment of the years 1 to
9999. -/
def FirstSlotInRange (config : SchedulerConfig) (row : StoredSettings) (op : ScheduledOperation) :
    Prop :=
  SwitchedOn row op → (row.cadence op).mode = .interval →
    ∀ anchor ∈ (row.cadence op).cadenceAnchor,
      MINIMUM ≤ anchor ∧ anchor + shiftOf row.userId config.window < LIMIT

/-- So are the anchors, followed or not. -/
def WithinCalendar (config : SchedulerConfig) (row : StoredSettings) : Prop :=
  ∀ op, (∀ anchor ∈ (row.cadence op).cadenceAnchor, MINIMUM ≤ anchor ∧ anchor < LIMIT) ∧
    FirstSlotInRange config row op

/-- Every operation has a next run after every moment from `now` to year 9900, but an investment
that is switched off. -/
def Followable (config : SchedulerConfig) (settings : LoadedSettings) (now : Moment) : Prop :=
  ∀ op (later : Moment), now.instant ≤ later.instant → later.instant < HORIZON →
    ∃ next, nextRun settings op later config = .ok next ∧
      (next = none → ¬SwitchedOn settings op) ∧ ∀ t ∈ next, later.instant < t.instant

theorem cadence_complete {settings : LoadedSettings} {op : ScheduledOperation}
    (h : cadenceProblem op (settings.cadence op) = none)
    (hmode : (settings.cadence op).mode = .interval) :
    (settings.cadence op).intervalDays.getD 0 + (settings.cadence op).intervalMonths.getD 0 ≠ 0 ∧
      ∃ anchor, (settings.cadence op).cadenceAnchor = some anchor := by
  unfold cadenceProblem at h
  rw [if_neg (by simp [hmode])] at h
  split at h
  · cases h
  · rename_i hlength
    split at h
    · cases h
    · rename_i hanchor
      exact ⟨hlength, Option.ne_none_iff_exists'.mp hanchor⟩

/-- The arithmetic of one operation's next run, before year 9900. -/
theorem nextRun_ok_iff {config : SchedulerConfig} (hconfig : config.WithinYear)
    {settings : LoadedSettings} (hbound : Bounded settings) {op : ScheduledOperation}
    (hcomplete : cadenceProblem op (settings.cadence op) = none) {now : Moment}
    (hnow : now.instant < HORIZON) :
    (∃ next, nextRun settings op now config = .ok next) ↔
      FirstSlotInRange config settings.stored op := by
  have hstored : settings.stored.cadence op = (settings.cadence op).stored := by cases op <;> rfl
  have hswitch : SwitchedOn settings.stored op ↔ SwitchedOn settings op := Iff.rfl
  simp only [FirstSlotInRange, hstored, hswitch, CadenceColumns.stored, Option.mem_map,
    forall_exists_index, and_imp, forall_apply_eq_imp_iff₂]
  by_cases hoff : op = .invest ∧ settings.investCashEnabled = false
  · simp [nextRun, hoff, SwitchedOn]
  · have hon : SwitchedOn settings op := hoff
    have hrun : (∃ next, nextRun settings op now config = .ok next) ↔
        ∃ s, nextSlot (settings.cadenceOf op) settings.userId now config = .ok s := by
      simp only [nextRun, if_neg hoff, bind, Except.bind]
      cases nextSlot (settings.cadenceOf op) settings.userId now config with
      | error e => simp
      | ok s => simp
    rw [hrun]
    cases hmode : (settings.cadence op).mode with
    | min =>
      simp only [nextSlot, SettingsRow.cadenceOf, hmode, reduceCtorEq, false_imp_iff, imp_true_iff,
        iff_true]
      exact every_ok config.minCadence_pos hconfig.1 hnow
    | interval =>
      obtain ⟨hlength, anchor, hanchor⟩ := cadence_complete hcomplete hmode
      obtain ⟨hdays, hmonths⟩ := hbound op
      have huser : settings.stored.userId = settings.userId := rfl
      simp only [nextSlot, SettingsRow.cadenceOf, hmode, hon, forall_const, hanchor,
        Option.mem_some_iff, forall_eq', huser]
      constructor
      · rintro ⟨s, hs⟩
        obtain ⟨a, -⟩ := anchored_walks hs
        have hmoment : anchor = a.moment := Option.some.inj a.anchor_eq
        have hutc := Moment.ofInstant_ok a.utc
        have hrange := a.anchor.inRange
        rw [← hmoment] at hutc
        refine ⟨by omega, ?_⟩
        by_contra hlate
        exact anchored_error a (by rw [hutc]; omega) s hs
      · rintro ⟨hmin, hfirst⟩
        have hshift := shiftOf_nonneg settings.userId config.window
        have hmax : anchor.instant < LIMIT := by omega
        obtain ⟨utc, hutcOk, hutc⟩ := Moment.ofInstant_of_range hmin hmax
        have hyears := hconfig.2
        have a : Anchored ⟨.interval, (settings.cadence op).intervalDays,
            (settings.cadence op).intervalMonths, some anchor⟩ settings.userId config.window :=
          { months := ((settings.cadence op).intervalMonths.getD 0).toNat
            days := ((settings.cadence op).intervalDays.getD 0).toNat
            anchor := utc
            moment := anchor
            months_eq := (Int.toNat_of_nonneg hmonths.1).symm
            days_eq := (Int.toNat_of_nonneg hdays.1).symm
            length_pos := by omega
            anchor_eq := rfl
            utc := hutcOk }
        have hsame : a.anchor.instant = anchor.instant := by
          have hmoment : anchor = a.moment := Option.some.inj a.anchor_eq
          rw [Moment.ofInstant_ok a.utc, ← hmoment]
        exact anchored_ok a ⟨hdays, hmonths⟩ config.window_pos hyears hnow (by
          rw [hsame]
          exact hfirst)

/-! ## What is kept of a row by a request -/

theorem bounded_apply {body : ConfigPatch} (hbody : body.Admitted) {settings : LoadedSettings}
    (h : Bounded settings) : Bounded (body.apply settings) := by
  intro op
  have hop := h op
  have hpatch := hbody.cadence op
  have hmerged : (body.apply settings).cadence op = (body.cadence op).over (settings.cadence op) := by
    cases op <;> rfl
  rw [hmerged]
  simp only [CadencePatch.over]
  constructor
  · cases hd : (body.cadence op).intervalDays with
    | none => exact hop.1
    | some days =>
      cases days with
      | none => simp
      | some d => exact hpatch.days d hd
  · cases hm : (body.cadence op).intervalMonths with
    | none => exact hop.2
    | some months =>
      cases months with
      | none => simp
      | some m => exact hpatch.months m hm

theorem cadence_withMoves {τ : Type} (settings : SettingsRow τ)
    (moves : List (ScheduledOperation × Option Moment)) (op : ScheduledOperation) :
    (settings.withMoves moves).cadence op = settings.cadence op := by
  induction moves generalizing settings with
  | nil => rfl
  | cons move moves ih =>
    change ((settings.setNextAt move.1 move.2).withMoves moves).cadence op = _
    rw [ih, SettingsRow.cadence_setNextAt]

theorem toUserSettings_withMoves {τ : Type} (settings : SettingsRow τ)
    (moves : List (ScheduledOperation × Option Moment)) :
    (settings.withMoves moves).toUserSettings = settings.toUserSettings := by
  induction moves generalizing settings with
  | nil => rfl
  | cons move moves ih =>
    change ((settings.setNextAt move.1 move.2).withMoves moves).toUserSettings = _
    rw [ih, SettingsRow.toUserSettings_setNextAt]

/-- What a request that is not refused leaves: the settings with its fields, and moved next runs. -/
theorem changedOutcome_ok {config : SchedulerConfig} {now later : Moment} {body : ConfigPatch}
    {created : Bool} {settings changed : LoadedSettings}
    (h : changedOutcome config now later body created settings = .ok changed) :
    patchProblem body settings = none ∧
      (∃ moves, rescheduled (body.apply settings)
        (if created then fun _ => true else body.touches) now config = .ok moves) ∧
      changed.toUserSettings = (body.apply settings).toUserSettings ∧
      changed.userId = settings.userId ∧
      ∀ op, changed.cadence op = (body.apply settings).cadence op := by
  unfold changedOutcome at h
  split at h
  · cases h
  · rename_i hproblem
    split at h
    · cases h
    · rename_i moves hmoves
      cases h
      refine ⟨hproblem, ⟨moves, hmoves⟩, ?_, ?_, fun op => ?_⟩
      · split
        · exact toUserSettings_withMoves _ _
        · exact toUserSettings_withMoves _ _
      · split
        · exact userId_withMoves _ _
        · exact userId_withMoves _ _
      · split
        · cases op
          · exact cadence_withMoves (body.apply settings) moves .invest
          · exact cadence_withMoves (body.apply settings) moves .rebalance
        · exact cadence_withMoves _ _ _

/-- The next runs of the operations that were touched are computed, or one of them raises. -/
theorem rescheduled_ok_iff {settings : LoadedSettings} {touched : ScheduledOperation → Bool}
    {now : Moment} {config : SchedulerConfig} :
    (∃ moves, rescheduled settings touched now config = .ok moves) ↔
      ∀ op, touched op = true → ∃ next, nextRun settings op now config = .ok next := by
  have hrun : ∀ op, (∃ next, nextRun settings op now config = .ok next) ∨
      ∃ e, nextRun settings op now config = .error e := by
    intro op
    cases nextRun settings op now config with
    | ok next => exact .inl ⟨next, rfl⟩
    | error e => exact .inr ⟨e, rfl⟩
  have hboth : (∀ op, touched op = true → ∃ next, nextRun settings op now config = .ok next) ↔
      (touched .invest = true → ∃ next, nextRun settings .invest now config = .ok next) ∧
        (touched .rebalance = true → ∃ next, nextRun settings .rebalance now config = .ok next) := by
    constructor
    · intro h
      exact ⟨h .invest, h .rebalance⟩
    · rintro ⟨hi, hr⟩ op
      cases op with
      | invest => exact hi
      | rebalance => exact hr
  rw [hboth]
  rcases hrun .invest with ⟨ni, hi⟩ | ⟨ei, hi⟩ <;>
    rcases hrun .rebalance with ⟨nr, hr⟩ | ⟨er, hr⟩ <;>
    cases ti : touched .invest <;> cases tr : touched .rebalance <;>
    simp [rescheduled, List.filter, ti, tr, hi, hr, bind, Except.bind, pure, Except.pure]

theorem mapM_ok_iff (columns : CadenceColumns Int) :
    (∃ loaded, columns.mapM AwareDatetime.ofInstant = .ok loaded) ↔
      ∀ anchor ∈ columns.cadenceAnchor, MINIMUM ≤ anchor ∧ anchor < LIMIT := by
  obtain ⟨mode, days, months, anchor⟩ := columns
  cases anchor with
  | none => simp [CadenceColumns.mapM]
  | some t =>
    have hmoment := Moment.ofInstant_iff t
    simp only [Option.mem_some_iff, forall_eq']
    rw [← hmoment]
    simp only [CadenceColumns.mapM, AwareDatetime.ofInstant, bind, Except.bind]
    cases Moment.ofInstant t with
    | ok m => simp
    | error e => simp

/-- A row is loaded exactly when its anchors are moments of the years 1 to 9999. -/
theorem load_iff (row : StoredSettings) :
    (∃ settings, row.load = .ok settings) ↔
      ∀ op, ∀ anchor ∈ (row.cadence op).cadenceAnchor, MINIMUM ≤ anchor ∧ anchor < LIMIT := by
  have hboth : (∀ op, ∀ anchor ∈ (row.cadence op).cadenceAnchor,
      MINIMUM ≤ anchor ∧ anchor < LIMIT) ↔
        (∃ loaded, row.invest.mapM AwareDatetime.ofInstant = .ok loaded) ∧
          ∃ loaded, row.rebalance.mapM AwareDatetime.ofInstant = .ok loaded := by
    rw [mapM_ok_iff, mapM_ok_iff]
    constructor
    · intro h
      exact ⟨h .invest, h .rebalance⟩
    · rintro ⟨hi, hr⟩ op
      cases op with
      | invest => exact hi
      | rebalance => exact hr
  rw [hboth]
  simp only [SettingsRow.load, bind, Except.bind]
  cases row.invest.mapM AwareDatetime.ofInstant with
  | error e => simp
  | ok invest =>
    cases row.rebalance.mapM AwareDatetime.ofInstant with
    | error e => simp
    | ok rebalance => simp

/-! ## Following the settings -/

theorem cadence_stored (settings : LoadedSettings) (op : ScheduledOperation) :
    settings.stored.cadence op = (settings.cadence op).stored := by
  cases op <;> rfl

theorem bounded_stored (settings : LoadedSettings) : Bounded settings.stored ↔ Bounded settings := by
  simp only [Bounded, cadence_stored, CadenceColumns.stored]

/-- A cadence has the same problem however its anchor is written. -/
theorem cadenceProblem_of_stored {columns columns' : CadenceColumns AwareDatetime}
    (h : columns.stored = columns'.stored) (op : ScheduledOperation) :
    cadenceProblem op columns = cadenceProblem op columns' := by
  obtain ⟨mode, days, months, anchor⟩ := columns
  obtain ⟨mode', days', months', anchor'⟩ := columns'
  simp only [CadenceColumns.stored, CadenceColumns.mk.injEq] at h
  obtain ⟨rfl, rfl, rfl, hanchor⟩ := h
  have hnone : anchor = none ↔ anchor' = none := by
    rw [← Option.map_eq_none_iff, hanchor, Option.map_eq_none_iff]
  simp only [cadenceProblem, hnone]

theorem problem_of_patchProblem {body : ConfigPatch} {settings : LoadedSettings}
    (h : patchProblem body settings = none) (op : ScheduledOperation) :
    cadenceProblem op ((body.apply settings).cadence op) = none := by
  simp only [patchProblem, List.findSome?_eq_none_iff, List.mem_cons, List.not_mem_nil, or_false,
    forall_eq_or_imp, forall_eq] at h
  cases op with
  | invest => exact h.1
  | rebalance => exact h.2

/-- The slots of an operation of a stored row. -/
def StoredSlot (config : SchedulerConfig) (row : StoredSettings) (op : ScheduledOperation)
    (s : Moment) : Prop :=
  match (row.cadence op).mode with
  | .min =>
      ∃ k : Int, s.instant =
        (k * config.minCadence + offsetSeconds row.userId config.minCadence) * MICROSECONDS
  | .interval =>
      ∃ t anchor, (row.cadence op).cadenceAnchor = some t ∧ Moment.ofInstant t = .ok anchor ∧
        ∃ k : Nat, slotAt anchor ((row.cadence op).intervalMonths.getD 0).toNat
          ((row.cadence op).intervalDays.getD 0).toNat
          (offsetSeconds row.userId config.window * MICROSECONDS) k = .ok s

/-- The slots of a row object are those of the row it is written as. -/
theorem storedSlot_stored {config : SchedulerConfig} {settings : LoadedSettings}
    {op : ScheduledOperation} {s : Moment} :
    StoredSlot config settings.stored op s ↔
      Slot (settings.cadenceOf op) settings.userId config s := by
  have hstored : settings.stored.cadence op = (settings.cadence op).stored := by cases op <;> rfl
  unfold StoredSlot Slot
  rw [hstored]
  simp only [SettingsRow.cadenceOf]
  cases hmode : (settings.cadence op).mode with
  | min => simp [CadenceColumns.stored, hmode, SettingsRow.stored]
  | interval =>
    simp only [CadenceColumns.stored, hmode, Option.map_eq_some_iff]
    constructor
    · rintro ⟨t, anchor, ⟨moment, hmoment, rfl⟩, hanchor, hk⟩
      exact ⟨moment, anchor, hmoment, hanchor, hk⟩
    · rintro ⟨moment, anchor, hmoment, hanchor, hk⟩
      exact ⟨moment.instant, anchor, ⟨moment, hmoment, rfl⟩, hanchor, hk⟩

/-- What a next run is: nothing for an investment switched off, a slot after `now` otherwise. -/
theorem nextRun_spec {settings : LoadedSettings} {op : ScheduledOperation} {now : Moment}
    {config : SchedulerConfig} {next : Option Moment}
    (h : nextRun settings op now config = .ok next) :
    (¬SwitchedOn settings op ∧ next = none) ∨
      SwitchedOn settings op ∧ ∃ s, next = some s ∧
        nextSlot (settings.cadenceOf op) settings.userId now config = .ok s := by
  unfold nextRun at h
  split at h
  · rename_i hoff
    cases h
    exact .inl ⟨fun hon => hon hoff, rfl⟩
  · rename_i hon
    simp only [bind, Except.bind] at h
    split at h
    · cases h
    · rename_i s hs
      cases h
      exact .inr ⟨hon, s, rfl, hs⟩

/-- A next run is after the moment it is computed at, and only an investment switched off has
none. -/
theorem nextRun_after {settings : LoadedSettings} {op : ScheduledOperation} {now : Moment}
    {config : SchedulerConfig} {next : Option Moment}
    (h : nextRun settings op now config = .ok next) :
    (next = none → ¬SwitchedOn settings op) ∧ ∀ t ∈ next, now.instant < t.instant := by
  rcases nextRun_spec h with ⟨hoff, rfl⟩ | ⟨hon, s, rfl, hs⟩
  · simp [hoff]
  · simpa using (nextSlot_spec hs).1

/-- Settings are followed to year 9900 when their first slots are in range. -/
theorem followable_iff {config : SchedulerConfig} (hconfig : config.WithinYear)
    {settings : LoadedSettings} (hbound : Bounded settings)
    (hcomplete : ∀ op, cadenceProblem op (settings.cadence op) = none) {now : Moment}
    (hnow : now.instant < HORIZON) :
    Followable config settings now ↔ ∀ op, FirstSlotInRange config settings.stored op := by
  constructor
  · intro h op
    obtain ⟨next, hnext, -⟩ := h op now (le_refl _) hnow
    exact (nextRun_ok_iff hconfig hbound (hcomplete op) hnow).mp ⟨next, hnext⟩
  · intro h op later _ hlater
    obtain ⟨next, hnext⟩ := (nextRun_ok_iff hconfig hbound (hcomplete op) hlater).mpr (h op)
    exact ⟨next, hnext, nextRun_after hnext⟩

end Coinpilot.Api
