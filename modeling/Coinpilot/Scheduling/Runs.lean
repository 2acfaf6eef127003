import Coinpilot.Scheduling.Accepted
import Coinpilot.Scheduling.Ticks

/-!
# Runs of the scheduler

Over any ticks of a clock that does not go back, an operation of a user runs at most once per slot,
a user found busy stays due, and the next run is the first slot after the last tick that took the
operation up (`OncePerSlot`, `once_per_slot`), unless a tick is within a second of a slot that the
seconds of its clock round up to.
-/

set_option autoImplicit false

namespace Coinpilot.Core

open Coinpilot.Lib Coinpilot.Lib.Program Coinpilot.Lib.ReadCommitted Coinpilot.Api

/-! ## What holds of the times an operation was taken up -/

/-- The first slot strictly after a moment. -/
def FirstSlot (config : SchedulerConfig) (row : StoredSettings) (op : ScheduledOperation)
    (now n : Moment) : Prop :=
  StoredSlot config row op n ∧ now < n ∧ ∀ s, StoredSlot config row op s → now < s → n ≤ s

/-- An unpaused operation whose next run has come. -/
def Due (row : StoredSettings) (op : ScheduledOperation) (now : Moment) : Prop :=
  row.paused = false ∧ isDue now (row.nextAt op) = true

theorem isDue_some {now n : Moment} : isDue now (some n) = true ↔ n ≤ now := by
  simp only [isDue, decide_eq_true_eq]
  exact Iff.rfl

/-- What holds of the times an operation was taken up, and of the row after them. -/
structure OncePerSlot (config : SchedulerConfig) (op : ScheduledOperation) (taken : List TakenUp)
    (row : StoredSettings) : Prop where
  separated : taken.Pairwise fun e e' => ¬e.Busy →
    ∃ s, StoredSlot config row op s ∧ e.now < s ∧ s ≤ e'.now
  busy_due : ∀ e, taken.getLast? = some e → e.Busy → ∀ now, e.now ≤ now → Due row op now
  switched_off : ∀ e, (taken.filter (¬·.Busy)).getLast? = some e → ¬SwitchedOn row op →
    row.nextAt op = none
  next_first : ∀ e, (taken.filter (¬·.Busy)).getLast? = some e → SwitchedOn row op →
    ∃ n, row.nextAt op = some n ∧ FirstSlot config row op e.now n

/-- The seconds of `now` round up to a slot of the operation. -/
def StoredSkips (config : SchedulerConfig) (row : StoredSettings) (op : ScheduledOperation)
    (now : Moment) : Prop :=
  SwitchedOn row op ∧
    ∃ settings, row.load = .ok settings ∧ SkipsSlot (settings.cadenceOf op) settings.userId config now

/-- No tick at which the operation is due rounds up to one of its slots. -/
def NeverSkips (config : SchedulerConfig) (userId : UserId) (op : ScheduledOperation) :
    SchedulerState → List TickInput → Prop
  | _, [] => True
  | s, t :: ticks =>
      (∀ row, s.rows userId = some row → Due row op t.now → ¬StoredSkips config row op t.now) ∧
        NeverSkips config userId op (tick config t s) ticks

/-! ## The settings of a row -/

section Fixed

variable {config : SchedulerConfig} {row row' : StoredSettings} {op : ScheduledOperation}

theorem load_fixed (row : StoredSettings) : row.fixed.load = row.load.map SettingsRow.fixed := by
  simp only [SettingsRow.load, SettingsRow.fixed, bind, Except.bind]
  cases row.invest.mapM AwareDatetime.ofInstant with
  | error e => rfl
  | ok invest =>
    cases row.rebalance.mapM AwareDatetime.ofInstant with
    | error e => rfl
    | ok rebalance => rfl

theorem cadenceOf_fixed (settings : LoadedSettings) (op : ScheduledOperation) :
    settings.fixed.cadenceOf op = settings.cadenceOf op := by
  cases op <;> rfl

/-- What is said of the cadence of a row is said of its settings. -/
theorem loaded_fixed {P : Cadence → UserId → Prop} (row : StoredSettings) (op : ScheduledOperation) :
    (∃ settings, row.fixed.load = .ok settings ∧ P (settings.cadenceOf op) settings.userId) ↔
      ∃ settings, row.load = .ok settings ∧ P (settings.cadenceOf op) settings.userId := by
  rw [load_fixed]
  cases row.load with
  | error e => simp [Except.map]
  | ok settings =>
    have huser : settings.fixed.userId = settings.userId := rfl
    simp [Except.map, cadenceOf_fixed, huser]

theorem storedSlot_congr (h : row.fixed = row'.fixed) (s : Moment) :
    StoredSlot config row op s ↔ StoredSlot config row' op s := by
  have hslot : ∀ r : StoredSettings,
      StoredSlot config r.fixed op s ↔ StoredSlot config r op s := by
    intro r
    cases op
    · exact Iff.rfl
    · exact Iff.rfl
  rw [← hslot row, h, hslot row']

theorem storedSkips_congr (h : row.fixed = row'.fixed) (now : Moment) :
    StoredSkips config row op now ↔ StoredSkips config row' op now := by
  have hskips := fun r =>
    loaded_fixed (P := fun cadence userId => SkipsSlot cadence userId config now) r op
  have hon : row.fixed.investCashEnabled = row'.fixed.investCashEnabled := by rw [h]
  unfold StoredSkips SwitchedOn
  change ¬(op = .invest ∧ row.fixed.investCashEnabled = false) ∧ _ ↔ _
  rw [hon, ← hskips row, h, hskips row']
  exact Iff.rfl

theorem paused_of_fixed (h : row.fixed = row'.fixed) : row.paused = row'.paused := by
  have hpaused : row.fixed.paused = row'.fixed.paused := by rw [h]
  exact hpaused

end Fixed

/-! ## The next run after a tick -/

/-- A next run is none for an investment switched off, and the first slot otherwise where the clock
does not round up to one. -/
theorem After.spec {config : SchedulerConfig} {row : StoredSettings} {op : ScheduledOperation}
    {now : Moment} {next : Option Moment} (h : After config row op now next) :
    (¬SwitchedOn row op ∧ next = none) ∨
      SwitchedOn row op ∧ ∃ n, next = some n ∧ StoredSlot config row op n ∧ now < n ∧
        (¬StoredSkips config row op now → FirstSlot config row op now n) := by
  unfold After nextOf at h
  split at h
  · rename_i settings hload
    have hswitch : SwitchedOn settings op ↔ SwitchedOn row op := by
      rw [← stored_of_load hload]
      exact Iff.rfl
    rcases nextRun_spec h with ⟨hoff, hnone⟩ | ⟨hon, n, hsome, hn⟩
    · exact .inl ⟨fun hon => hoff (hswitch.mpr hon), hnone⟩
    · obtain ⟨hlt, hslot⟩ := nextSlot_spec hn
      have hstored : ∀ s, StoredSlot config row op s ↔
          Slot (settings.cadenceOf op) settings.userId config s := fun s => by
        rw [← stored_of_load hload, storedSlot_stored]
      refine .inr ⟨hswitch.mp hon, n, hsome, (hstored n).mpr hslot, hlt, fun hskips => ?_⟩
      refine ⟨(hstored n).mpr hslot, hlt, fun s hs hlt' => ?_⟩
      exact nextSlot_first hn (fun hskip => hskips ⟨hswitch.mp hon, settings, hload, hskip⟩)
        ((hstored s).mp hs) hlt'
  · cases h

/-- A next run that `After` allows, at a moment that does not round up to a slot. -/
def CleanAfter (config : SchedulerConfig) (row : StoredSettings) (op : ScheduledOperation)
    (now : Moment) (next : Option Moment) : Prop :=
  After config row op now next ∧ ¬StoredSkips config row op now

/-! ## Runs -/

section Runs

variable {config : SchedulerConfig} {userId : UserId} {op : ScheduledOperation}
  {row₀ : StoredSettings}

theorem row_of_fixed {s : SchedulerState}
    (h : (s.rows userId).map SettingsRow.fixed = some row₀.fixed) :
    ∃ row, s.rows userId = some row ∧ row.fixed = row₀.fixed := by
  simpa using h

/-- A paused user is left alone. -/
theorem tick_paused (t : TickInput) {s : SchedulerState} {row : StoredSettings}
    (hrow : s.rows userId = some row) (hpaused : row.paused = true) :
    recurrenceOf userId op (tick config t s) = recurrenceOf userId op s := by
  obtain ⟨-, hspec⟩ := dueUsers_spec t.nodup s.rows t.now config.batch
  unfold tick
  split
  · rfl
  · apply serve_recurrence_ne
    intro huser
    obtain ⟨user, hmem, heq⟩ := List.mem_map.mp huser
    obtain ⟨row', hrow', hunpaused, -⟩ := hspec user hmem
    rw [heq, hrow] at hrow'
    cases hrow'
    rw [hpaused] at hunpaused
    cases hunpaused

theorem runTicks_fixed (ticks : List TickInput) (s : SchedulerState) :
    ((runTicks config s ticks).rows userId).map SettingsRow.fixed =
      (s.rows userId).map SettingsRow.fixed := by
  induction ticks generalizing s with
  | nil => rfl
  | cons t ticks ih => exact (ih _).trans (tick_fixed config t s userId)

theorem runTicks_taken_grows (ticks : List TickInput) (s : SchedulerState) :
    s.taken <+: (runTicks config s ticks).taken := by
  induction ticks generalizing s with
  | nil => exact List.prefix_refl _
  | cons t ticks ih => exact (tick_taken_grows config t s).trans (ih _)

theorem runTicks_paused (ticks : List TickInput) {s : SchedulerState}
    (hfixed : (s.rows userId).map SettingsRow.fixed = some row₀.fixed) (hpaused : row₀.paused = true) :
    recurrenceOf userId op (runTicks config s ticks) = recurrenceOf userId op s := by
  induction ticks generalizing s with
  | nil => rfl
  | cons t ticks ih =>
    obtain ⟨row, hrow, heq⟩ := row_of_fixed hfixed
    have hstep : recurrenceOf userId op (tick config t s) = recurrenceOf userId op s :=
      tick_paused t hrow ((paused_of_fixed heq).trans hpaused)
    exact (ih ((tick_fixed config t s userId).trans hfixed)).trans hstep

/-- A tick that does not round up to a slot is one step of the operation. -/
theorem tick_step_clean (t : TickInput) {s : SchedulerState}
    (hadvances : AllAdvanced (tick config t s).taken)
    (hfixed : (s.rows userId).map SettingsRow.fixed = some row₀.fixed)
    (hskips : ∀ row, s.rows userId = some row → Due row op t.now → ¬StoredSkips config row op t.now) :
    Recurrence.Step (CleanAfter config row₀ op) t.now (recurrenceOf userId op s)
      (recurrenceOf userId op (tick config t s)) := by
  obtain ⟨row, hrow, heq⟩ := row_of_fixed hfixed
  cases hpaused : row.paused with
  | true =>
    rw [tick_paused t hrow hpaused]
    exact .stay _
  | false =>
    apply (tick_step t hadvances hfixed).restrict
    intro n hn hle
    simp only [recurrenceOf, hrow, Option.bind_some] at hn
    have hdue : Due row op t.now := ⟨hpaused, by rw [hn, isDue_some]; exact hle⟩
    rw [← storedSkips_congr heq]
    exact hskips row hrow hdue

/-- What ticks of a clock that does not go back keep. -/
theorem runTicks_sound {ticks : List TickInput} {s : SchedulerState} {clock : Moment}
    (hsound : (recurrenceOf userId op s).Sound (CleanAfter config row₀ op) clock)
    (hclock : ∀ t ∈ ticks, clock ≤ t.now) (hticks : ticks.Pairwise fun t t' => t.now ≤ t'.now)
    (hadvances : AllAdvanced (runTicks config s ticks).taken)
    (hfixed : (s.rows userId).map SettingsRow.fixed = some row₀.fixed)
    (hskips : NeverSkips config userId op s ticks) :
    ∃ clock', (recurrenceOf userId op (runTicks config s ticks)).Sound
      (CleanAfter config row₀ op) clock' := by
  induction ticks generalizing s clock with
  | nil => exact ⟨clock, hsound⟩
  | cons t ticks ih =>
    rw [List.pairwise_cons] at hticks
    obtain ⟨hfirst, hrest⟩ := hskips
    have hstep := tick_step_clean t (hadvances.of_grown (runTicks_taken_grows ticks _)) hfixed hfirst
    have hnext := hsound.step (hclock t List.mem_cons_self) hstep
    exact ih hnext hticks.1 hticks.2 hadvances ((tick_fixed config t s userId).trans hfixed) hrest

end Runs

/-! ## What a run says of its records -/

section Records

variable {config : SchedulerConfig} {userId : UserId} {op : ScheduledOperation}
  {s : SchedulerState} {row : StoredSettings} {clock : Moment}

theorem lastMove_of_lastTaken {taken : List TakenUp} {e : TakenUp}
    (h : (taken.filter (¬·.Busy)).getLast? = some e) :
    ((taken.map TakenUp.visit).filter Visit.moved).getLast? = some ⟨e.now, true⟩ := by
  have hmoved : Visit.moved ∘ TakenUp.visit = fun e => decide (¬e.Busy) := by
    funext e
    simp [TakenUp.visit]
  have hbusy : ¬e.Busy := by
    have hmem := List.mem_filter.mp (List.mem_of_getLast? h)
    simpa using hmem.2
  rw [List.filter_map, hmoved, List.getLast?_map, h]
  simp [TakenUp.visit, hbusy]

theorem Sound.oncePerSlot
    (h : (recurrenceOf userId op s).Sound (CleanAfter config row op) clock)
    (hrow : s.rows userId = some row)
    (hpaused : row.paused = true → visitsOf userId op s.taken = []) :
    OncePerSlot config op (visitsOf userId op s.taken) row := by
  have hnext : (recurrenceOf userId op s).next = row.nextAt op := by simp [recurrenceOf, hrow]
  have hlast : ∀ e, ((visitsOf userId op s.taken).filter (¬·.Busy)).getLast? = some e →
      CleanAfter config row op e.now (row.nextAt op) := fun e he =>
    hnext ▸ h.next_of ⟨e.now, true⟩ (lastMove_of_lastTaken he)
  constructor
  · refine (List.pairwise_map.mp h.separated).imp fun {e e'} hsep hbusy => ?_
    obtain ⟨t, n, hle, ⟨hafter, -⟩, hn⟩ := hsep (by simp [TakenUp.visit, hbusy])
    rcases hafter.spec with ⟨-, hnone⟩ | ⟨-, n', hsome, hslot, hlt, -⟩
    · cases hnone
    · cases hsome
      exact ⟨n, hslot, lt_of_le_of_lt hle hlt, hn⟩
  · intro e he hbusy now hnow
    obtain ⟨n, hn, hle⟩ := h.due ⟨e.now, false⟩
      (by simp [recurrenceOf, List.getLast?_map, he, TakenUp.visit, hbusy]) rfl
    rw [hnext] at hn
    constructor
    · by_contra hunpaused
      rw [hpaused (by simpa using hunpaused)] at he
      cases he
    · rw [hn, isDue_some]
      exact le_trans hle hnow
  · intro e he hoff
    rcases (hlast e he).1.spec with ⟨-, hnone⟩ | ⟨hon, -⟩
    · exact hnone
    · exact absurd hon hoff
  · intro e he hon
    obtain ⟨hafter, hskips⟩ := hlast e he
    rcases hafter.spec with ⟨hoff, -⟩ | ⟨-, n, hsome, -, -, hfirst⟩
    · exact absurd hon hoff
    · exact ⟨n, hsome, hfirst hskips⟩

end Records

/-- Over ticks of a clock that does not go back, none of them rounding up to a slot of an operation
that is due, each operation of a user runs at most once per slot, stays due while it is found busy,
and is next due at the first slot after it was last taken up. -/
theorem once_per_slot (config : SchedulerConfig) (ticks : List TickInput)
    (hclock : ticks.Pairwise fun t t' => t.now ≤ t'.now) (rows : Rows UserId StoredSettings)
    (userId : UserId) (row₀ : StoredSettings) (hrow : rows userId = some row₀)
    (op : ScheduledOperation)
    (hadvances : AllAdvanced (runTicks config { rows } ticks).taken)
    (hskips : NeverSkips config userId op { rows } ticks) :
    ∃ row, (runTicks config { rows } ticks).rows userId = some row ∧ row.fixed = row₀.fixed ∧
      OncePerSlot config op (visitsOf userId op (runTicks config { rows } ticks).taken) row := by
  have hfixed : (rows userId).map SettingsRow.fixed = some row₀.fixed := by rw [hrow]; rfl
  have hstart : (recurrenceOf userId op { rows }).Sound (CleanAfter config row₀ op)
      ⟨MINIMUM, by decide⟩ := Recurrence.Sound.start _ _ _
  obtain ⟨clock, hsound⟩ := runTicks_sound hstart (fun t _ => t.now.inRange.1) hclock hadvances
    hfixed hskips
  have hkept : ((runTicks config { rows } ticks).rows userId).map SettingsRow.fixed = some row₀.fixed :=
    (runTicks_fixed ticks { rows }).trans hfixed
  obtain ⟨row, hrow', heq⟩ := row_of_fixed hkept
  refine ⟨row, hrow', heq, @Sound.oncePerSlot _ userId op _ row clock ?_ hrow' fun hpaused => ?_⟩
  · have hafter : CleanAfter config row₀ op = CleanAfter config row op := by
      funext now next
      simp only [CleanAfter, After, nextOf_congr heq, storedSkips_congr heq]
    rw [← hafter]
    exact hsound
  · have hvisits := congrArg Recurrence.visits
      (@runTicks_paused config userId op row₀ ticks { rows } hfixed
        ((paused_of_fixed heq).symm.trans hpaused))
    simpa [recurrenceOf, visitsOf] using hvisits

/-! ## A tick just before a slot -/

/-- A user who rebalances at the shortest cadence, due since `someNow`. -/
def quarterHourly (userId : UserId) : Option StoredSettings :=
  if userId = someUser then
    some { (newSettings someUser "EUR").stored with nextRebalanceAt := some someNow }
  else none

/-- A tick whose evaluations all end in `outcome`. -/
def tickAt (now : Moment) (outcome : RunOutcome) : TickInput where
  now
  scan := [someUser]
  nodup := List.nodup_singleton _
  turns _ _ := { outcome }

/-- An evaluation found busy at `someNow`, and one three hours later. -/
def busyThenLate : List TickInput :=
  [tickAt someNow .evaluationBusy,
    tickAt ⟨(1791288000 + 10800) * MICROSECONDS, by decide⟩ .notReady]

/-- A clock on a whole second before year 2514 rounds to no later one. -/
theorem not_storedSkips {config : SchedulerConfig} {row : StoredSettings} {op : ScheduledOperation}
    {now : Moment} (h : wholeSeconds now.instant * MICROSECONDS ≤ now.instant) :
    ¬StoredSkips config row op now := by
  rintro ⟨-, settings, -, -, hlt, -⟩
  omega

theorem once_per_slot_busyThenLate :
    ∃ row, (runTicks defaultScheduler { rows := quarterHourly } busyThenLate).rows someUser =
        some row ∧
      row.fixed = { (newSettings someUser "EUR").stored with nextRebalanceAt := some someNow }.fixed ∧
      OncePerSlot defaultScheduler .rebalance (visitsOf someUser .rebalance
        (runTicks defaultScheduler { rows := quarterHourly } busyThenLate).taken) row := by
  apply once_per_slot defaultScheduler busyThenLate _ quarterHourly someUser _ rfl .rebalance
  · unfold AllAdvanced
    decide +kernel
  · refine ⟨fun row _ _ => not_storedSkips ?_, fun row _ _ => not_storedSkips ?_, trivial⟩
    · decide +kernel
    · decide +kernel
  · simp [busyThenLate, tickAt]
    decide +kernel

/-- One microsecond before a slot of this user, in the year 3000. -/
def beforeSlot : Moment := ⟨32503680889 * MICROSECONDS - 1, by decide⟩

/-- `total_seconds` rounds up to the slot, so the run that would come first is passed over. -/
theorem slot_passed_over :
    AllAdvanced (runTicks defaultScheduler { rows := quarterHourly }
        [tickAt beforeSlot .notReady]).taken ∧
      ∀ row, (runTicks defaultScheduler { rows := quarterHourly }
          [tickAt beforeSlot .notReady]).rows someUser = some row →
        ¬OncePerSlot defaultScheduler .rebalance (visitsOf someUser .rebalance
          (runTicks defaultScheduler { rows := quarterHourly }
            [tickAt beforeSlot .notReady]).taken) row := by
  have htaken : (runTicks defaultScheduler { rows := quarterHourly }
      [tickAt beforeSlot .notReady]).taken =
        [⟨someUser, .rebalance, beforeSlot, some .notReady, true⟩] := by
    decide +kernel
  have hrow : (runTicks defaultScheduler { rows := quarterHourly }
      [tickAt beforeSlot .notReady]).rows someUser =
        some { (newSettings someUser "EUR").stored with
          nextRebalanceAt := some ⟨(32503680889 + 900) * MICROSECONDS, by decide⟩ } := by
    decide +kernel
  rw [htaken, hrow]
  constructor
  · unfold AllAdvanced
    decide
  · intro row h honce
    cases h
    obtain ⟨n, hn, -, -, hfirst⟩ := honce.next_first _ rfl (by simp [SwitchedOn])
    have hslot := hfirst ⟨32503680889 * MICROSECONDS, by decide⟩
      ⟨36115200, by decide +kernel⟩ (by decide +kernel)
    cases hn
    exact absurd hslot (by decide +kernel)

end Coinpilot.Core
