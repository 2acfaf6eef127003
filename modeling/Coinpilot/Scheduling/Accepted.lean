import Coinpilot.Scheduling.Patches

/-!
# Accepted settings and the scheduler

Which requests leave settings that the scheduler can follow: a request that is refused, and one
whose settings stay within the years 1 to 9999 (`accepted_iff_staysWithinCalendar`). A cadence
anchored at the end of year 9999 is neither (`last_second_overflows`).
-/

set_option autoImplicit false

namespace Coinpilot.Api

open Coinpilot.Lib Coinpilot.Lib.Program Coinpilot.Lib.ReadCommitted Coinpilot.Core

/-- The tables that requests lead to, of any user and at any time. -/
inductive Patched (config : SchedulerConfig) : Rows UserId StoredSettings → Prop where
  | empty : Patched config fun _ => none
  | patch {rows : Rows UserId StoredSettings} (userId : UserId) (now later : Moment)
      (body : ConfigPatch) : Patched config rows → body.Admitted →
        Patched config
          (alone ((transaction (patchConfig config userId now later body)).exec ()) rows rows).2.1

/-- The request is refused with a 409 or a 422 and changes nothing, or commits settings that have
a next run after every moment from `now` to year 9900. -/
def Accepted (config : SchedulerConfig) (userId : UserId) (now later : Moment) (body : ConfigPatch)
    (rows : Rows UserId StoredSettings) : Prop :=
  let run := alone ((transaction (patchConfig config userId now later body)).exec ()) rows rows
  (∃ status detail, run.1.1 = .error (.http status detail) ∧ (status = 409 ∨ status = 422) ∧
    run.2.1 = rows) ∨
  ∃ answer row settings, run.1.1 = .ok answer ∧ run.2.1 userId = some row ∧
    row.load = .ok settings ∧ Followable config settings now

/-- The fiat that a body chooses. -/
def ConfigPatch.chosenFiat (body : ConfigPatch) : Option String :=
  body.fiat.map fun fiat => upper (strip fiat)

/-- The request is refused: it must choose a supported fiat, must not change it, or leaves an
interval without a length or an anchor. -/
def Refused (userId : UserId) (body : ConfigPatch) : Option LoadedSettings → Prop
  | none => (∀ fiat ∈ body.chosenFiat, fiat ∉ SUPPORTED_FIATS) ∨
      patchProblem body (newSettings userId "") ≠ none
  | some settings => (∃ chosen ∈ body.chosenFiat, chosen ≠ settings.fiat) ∨
      patchProblem body settings ≠ none

/-- The user's anchors, and those the request merges into them, stay within the years 1 to 9999,
with the user's offset where an interval is followed. A refused request merges none. -/
def StaysWithinCalendar (config : SchedulerConfig) (userId : UserId) (body : ConfigPatch) :
    Option StoredSettings → Prop
  | none => Refused userId body none ∨
      WithinCalendar config (body.apply (newSettings userId "")).stored
  | some row => ∃ settings, row.load = .ok settings ∧
      (Refused userId body (some settings) ∨ WithinCalendar config (body.apply settings).stored)

/-- The calendar columns and the switches of a row. -/
theorem withinCalendar_congr {config : SchedulerConfig} {row row' : StoredSettings}
    (huser : row.userId = row'.userId) (hinvest : row.investCashEnabled = row'.investCashEnabled)
    (hcadence : ∀ op, row.cadence op = row'.cadence op) :
    WithinCalendar config row ↔ WithinCalendar config row' := by
  simp only [WithinCalendar, FirstSlotInRange, SwitchedOn, hcadence, huser, hinvest]

/-- What is loaded of settings that were checked and committed is followed when their first slots
are in range. -/
theorem followable_loaded_iff {config : SchedulerConfig} (hconfig : config.WithinYear)
    {merged changed loaded : LoadedSettings} (hbound : Bounded merged)
    (hcomplete : ∀ op, cadenceProblem op (merged.cadence op) = none)
    (hcadence : ∀ op, changed.cadence op = merged.cadence op)
    (hload : changed.stored.load = .ok loaded) {now : Moment} (hnow : now.instant < HORIZON) :
    Followable config loaded now ↔ ∀ op, FirstSlotInRange config changed.stored op := by
  have hstored := stored_of_load hload
  have hloaded : ∀ op, (loaded.cadence op).stored = (merged.cadence op).stored := by
    intro op
    rw [← cadence_stored, hstored, cadence_stored, hcadence]
  have hboundLoaded : Bounded loaded := by
    rw [← bounded_stored, hstored, bounded_stored]
    intro op
    rw [hcadence]
    exact hbound op
  rw [← hstored]
  exact followable_iff hconfig hboundLoaded
    (fun op => (cadenceProblem_of_stored (hloaded op) op).trans (hcomplete op)) hnow

/-- Settings that are not refused are committed, and followed, exactly when they stay within the
calendar. -/
theorem changed_followable_iff {config : SchedulerConfig} (hconfig : config.WithinYear)
    {settings : LoadedSettings} (hbound : Bounded settings) {body : ConfigPatch}
    (hbody : body.Admitted) (hproblem : patchProblem body settings = none) (created : Bool)
    {now : Moment} (later : Moment) (hnow : now.instant < HORIZON) :
    (∃ changed loaded, changedOutcome config now later body created settings = .ok changed ∧
      changed.stored.load = .ok loaded ∧ Followable config loaded now) ↔
        WithinCalendar config (body.apply settings).stored := by
  have hcomplete := problem_of_patchProblem hproblem
  have hbound' := bounded_apply hbody hbound
  constructor
  · rintro ⟨changed, loaded, hchanged, hload, hfollow⟩
    obtain ⟨-, -, hsettings, huser, hcadence⟩ := changedOutcome_ok hchanged
    have hranges := (load_iff changed.stored).mp ⟨loaded, hload⟩
    have hslots :=
      (followable_loaded_iff hconfig hbound' hcomplete hcadence hload hnow).mp hfollow
    have hwithin : WithinCalendar config changed.stored := fun op => ⟨hranges op, hslots op⟩
    exact (withinCalendar_congr huser (congrArg UserSettings.investCashEnabled hsettings) fun op => by
      rw [cadence_stored, cadence_stored, hcadence]).mp hwithin
  · intro hwithin
    obtain ⟨moves, hmoves⟩ := (@rescheduled_ok_iff (body.apply settings)
      (if created then fun _ => true else body.touches) now config).mpr fun op _ =>
        (nextRun_ok_iff hconfig hbound' (hcomplete op) hnow).mpr (hwithin op).2
    obtain ⟨changed, hchanged⟩ : ∃ changed,
        changedOutcome config now later body created settings = .ok changed := by
      simp only [changedOutcome, hproblem, hmoves]
      exact ⟨_, rfl⟩
    obtain ⟨-, -, hsettings, huser, hcadence⟩ := changedOutcome_ok hchanged
    have hwithin' : WithinCalendar config changed.stored :=
      (withinCalendar_congr huser (congrArg UserSettings.investCashEnabled hsettings) fun op => by
        rw [cadence_stored, cadence_stored, hcadence]).mpr hwithin
    obtain ⟨loaded, hload⟩ := (load_iff changed.stored).mpr fun op => (hwithin' op).1
    refine ⟨changed, loaded, hchanged, hload, ?_⟩
    exact (followable_loaded_iff hconfig hbound' hcomplete hcadence hload hnow).mpr
      fun op => (hwithin' op).2

/-! ## Tables of earlier requests -/

theorem bounded_new (userId : UserId) (fiat : String) : Bounded (newSettings userId fiat) := by
  intro op
  cases op with
  | invest => simp [newSettings, SettingsRow.cadence]
  | rebalance => simp [newSettings, SettingsRow.cadence]

theorem bounded_of_load {row : StoredSettings} {settings : LoadedSettings}
    (hload : row.load = .ok settings) (hrow : Bounded row) : Bounded settings := by
  rw [← bounded_stored, stored_of_load hload]
  exact hrow

/-- The settings a request leaves are the user's, with lengths a request may give. -/
theorem patchOutcome_row {config : SchedulerConfig} {userId : UserId} {now later : Moment}
    {body : ConfigPatch} (hbody : body.Admitted) {row : Option StoredSettings}
    (hrow : ∀ stored ∈ row, stored.userId = userId ∧ Bounded stored) {changed : LoadedSettings}
    (h : patchOutcome config userId now later body row = .ok changed) :
    changed.userId = userId ∧ Bounded changed := by
  have hfinish : ∀ {created : Bool} {settings : LoadedSettings}, settings.userId = userId →
      Bounded settings → changedOutcome config now later body created settings = .ok changed →
        changed.userId = userId ∧ Bounded changed := by
    intro created settings huser hbound hchanged
    obtain ⟨-, -, -, hsame, hcadence⟩ := changedOutcome_ok hchanged
    refine ⟨hsame.trans huser, fun op => ?_⟩
    rw [hcadence]
    exact bounded_apply hbody hbound op
  cases row with
  | none =>
    simp only [patchOutcome, Option.map_none, chosenOutcome] at h
    split at h
    · cases h
    · rename_i settings hchosen
      split at hchosen
      · cases hchosen
      · split at hchosen
        · cases hchosen
          exact hfinish rfl (bounded_new userId _) h
        · cases hchosen
  | some stored =>
    obtain ⟨huser, hbound⟩ := hrow stored rfl
    simp only [patchOutcome, Option.map_some] at h
    split at h
    · cases h
    · rename_i settings hload
      have hload : stored.load = .ok settings := Option.some.inj hload
      have huser' : settings.userId = userId := by
        rw [← huser, ← stored_of_load hload]
        rfl
      split at h
      · cases h
      · rename_i chosen hchosen
        simp only [chosenOutcome] at hchosen
        split at hchosen
        · cases hchosen
        · cases hchosen
          exact hfinish huser' (bounded_of_load hload hbound) h
    · rename_i hnone
      cases hnone

/-- Every row is its user's, with lengths a request may give. -/
theorem patched_rows {config : SchedulerConfig} {rows : Rows UserId StoredSettings}
    (h : Patched config rows) (userId : UserId) :
    ∀ row ∈ rows userId, row.userId = userId ∧ Bounded row := by
  induction h generalizing userId with
  | empty =>
    intro row hrow
    cases hrow
  | @patch before user now later body _ hbody ih =>
    rw [alone_patchConfig config user now later body fun row hrow => (ih user row hrow).1]
    cases hout : patchOutcome config user now later body (before user) with
    | error e => exact ih userId
    | ok changed =>
      intro row hrow
      by_cases huser : userId = user
      · subst huser
        simp only [Function.update_self, Option.mem_some_iff] at hrow
        obtain ⟨hkey, hbound⟩ := patchOutcome_row hbody (ih userId) hout
        rw [← hrow]
        exact ⟨hkey, (bounded_stored changed).mpr hbound⟩
      · have hsame : Function.update before user (some changed.stored) userId = before userId :=
          Function.update_of_ne huser _ _
        exact ih userId row (hsame ▸ hrow)

/-! ## Accepted requests -/

/-- A request that ends well: refused with a 409 or a 422, or with settings that are followed. -/
def EndsWell (config : SchedulerConfig) (now : Moment) : Except ApiError LoadedSettings → Prop
  | .error e => ∃ status detail, e = .http status detail ∧ (status = 409 ∨ status = 422)
  | .ok changed => ∃ loaded, changed.stored.load = .ok loaded ∧ Followable config loaded now

/-- The changes of a request end well when its cadences have a problem, and are refused, or stay
within the calendar. -/
theorem changedOutcome_endsWell {config : SchedulerConfig} (hconfig : config.WithinYear)
    {settings : LoadedSettings} (hbound : Bounded settings) {body : ConfigPatch}
    (hbody : body.Admitted) (created : Bool) {now : Moment} (later : Moment)
    (hnow : now.instant < HORIZON) :
    EndsWell config now (changedOutcome config now later body created settings) ↔
      patchProblem body settings ≠ none ∨ WithinCalendar config (body.apply settings).stored := by
  cases hproblem : patchProblem body settings with
  | some problem =>
    have hrefused : changedOutcome config now later body created settings =
        .error (.http 422 problem) := by
      simp only [changedOutcome, hproblem]
    rw [hrefused]
    exact ⟨fun _ => .inl (by simp), fun _ => ⟨422, problem, rfl, .inr rfl⟩⟩
  | none =>
    have hiff := changed_followable_iff hconfig hbound hbody hproblem created later hnow
    rw [← hiff]
    constructor
    · intro h
      cases hout : changedOutcome config now later body created settings with
      | ok changed =>
        rw [hout] at h
        obtain ⟨loaded, hload, hfollow⟩ := h
        exact .inr ⟨changed, loaded, rfl, hload, hfollow⟩
      | error e =>
        rw [hout] at h
        obtain ⟨status, detail, rfl, -⟩ := h
        -- settings without a problem raise in the calendar only
        simp only [changedOutcome, hproblem] at hout
        split at hout <;> cases hout
    · rintro (h | ⟨changed, loaded, hchanged, hload, hfollow⟩)
      · exact absurd rfl h
      · rw [hchanged]
        exact ⟨loaded, hload, hfollow⟩

theorem accepted_iff_endsWell (config : SchedulerConfig) (userId : UserId) (now later : Moment)
    (body : ConfigPatch) {rows : Rows UserId StoredSettings}
    (hkey : ∀ row, rows userId = some row → row.userId = userId) :
    Accepted config userId now later body rows ↔
      EndsWell config now (patchOutcome config userId now later body (rows userId)) := by
  simp only [Accepted, alone_patchConfig config userId now later body hkey]
  cases patchOutcome config userId now later body (rows userId) with
  | error e => simp [EndsWell]
  | ok changed => simp [EndsWell]

/-- The defaults: a quarter of an hour, an hour, fifty users and three failures. -/
def defaultScheduler : SchedulerConfig where
  minCadence := 900
  window := 3600
  batch := 50
  alertStreak := 3
  minCadence_pos := by decide
  window_pos := by decide
  batch_pos := by decide
  alertStreak_pos := by decide

def someUser : UserId := ⟨[1, 2, 3, 4, 5, 6, 7, 8, 9, 10, 11, 12, 13, 14, 15, 16], rfl⟩

/-- 2026-10-06 12:00:00 UTC. -/
def someNow : Moment := ⟨1791288000 * MICROSECONDS, by decide⟩

/-- A daily rebalance anchored at 9999-12-31 23:59:59 UTC. -/
def lastSecond : ConfigPatch where
  fiat := some "EUR"
  rebalance :=
    { mode := some .interval
      intervalDays := some (some 1)
      cadenceAnchor := some (some ⟨⟨LIMIT - MICROSECONDS, by decide⟩, 0, utc_underDay⟩) }

theorem lastSecond_admitted : lastSecond.Admitted where
  minDriftPct := by
    intro d h
    cases h
  minOrderFiat := by
    intro d h
    cases h
  cadence := by
    intro op
    constructor
    · intro d h
      cases op with
      | invest => cases h
      | rebalance =>
        cases h
        decide
    · intro m h
      cases op with
      | invest => cases h
      | rebalance => cases h

end Coinpilot.Api
