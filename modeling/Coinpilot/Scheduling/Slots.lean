import Coinpilot.Core.Cadence
import Mathlib.Order.Bounds.Basic
import Mathlib.Tactic.Linarith
import Mathlib.Tactic.Ring

/-!
# The slots of a cadence

The slots of a user's cadence are a set of instants (`Slot`), and `nextSlot` finds one strictly
after `now` (`nextSlot_spec`), the first one where a `MIN` cadence reads the clock to the second
(`nextSlot_first`). The arithmetic stays within the years 1 to 9999 for every moment before year
9900 exactly when the first slots do (`anchored_ok`, `every_ok`).
-/

set_option autoImplicit false

namespace Coinpilot.Core

open Coinpilot.Lib.Calendar Coinpilot.Lib.Binary64

/-! ## Moments -/

instance : LinearOrder Moment :=
  LinearOrder.lift' Moment.instant fun m m' h => by
    obtain ⟨t, ht⟩ := m
    obtain ⟨t', ht'⟩ := m'
    cases h
    rfl

theorem Moment.ofInstant_ok {t : Int} {m : Moment} (h : Moment.ofInstant t = .ok m) :
    m.instant = t := by
  unfold Moment.ofInstant at h
  split at h
  · cases h
    rfl
  · cases h

/-- A moment is made exactly within the years 1 to 9999. -/
theorem Moment.ofInstant_iff (t : Int) :
    (∃ m, Moment.ofInstant t = .ok m) ↔ MINIMUM ≤ t ∧ t < LIMIT := by
  unfold Moment.ofInstant
  split
  · rename_i h
    simp [h]
  · rename_i h
    simp [h]

theorem Moment.ofInstant_of_range {t : Int} (h : MINIMUM ≤ t) (h' : t < LIMIT) :
    ∃ m, Moment.ofInstant t = .ok m ∧ m.instant = t := by
  obtain ⟨m, hm⟩ := (Moment.ofInstant_iff t).mpr ⟨h, h'⟩
  exact ⟨m, hm, Moment.ofInstant_ok hm⟩

theorem Moment.ordinal_cast (m : Moment) : (m.ordinal : Int) = m.instant / DAY + EPOCH_ORDINAL := by
  have h := m.inRange
  simp only [Moment.ordinal, MINIMUM, DAY, MICROSECONDS, EPOCH_ORDINAL] at *
  omega

theorem Moment.date_ordinal (m : Moment) : m.date.ordinal = m.ordinal :=
  ordinal_ofOrdinal _ _

/-! ## Steps of an anchored cadence -/

/-- The instant `months` months after a moment, whatever its year. -/
def monthsLater (moment : Moment) (months : Nat) : Int :=
  (moment.date.afterMonths months - EPOCH_ORDINAL) * DAY + moment.instant % DAY

/-- The instant of a step and the user's offset, whatever its year. -/
def slotInstant (anchor : Moment) (months days : Nat) (shift : Int) (k : Nat) : Int :=
  monthsLater anchor (k * months) + k * days * DAY + shift

theorem monthsLater_zero (moment : Moment) : monthsLater moment 0 = moment.instant := by
  unfold monthsLater
  rw [Date.afterMonths_zero, Moment.date_ordinal, Moment.ordinal_cast]
  simp only [DAY, MICROSECONDS]
  omega

theorem slotInstant_zero (anchor : Moment) (months days : Nat) (shift : Int) :
    slotInstant anchor months days shift 0 = anchor.instant + shift := by
  simp [slotInstant, monthsLater_zero]

theorem monthsLater_mono (moment : Moment) {i j : Nat} (h : i ≤ j) :
    monthsLater moment i ≤ monthsLater moment j := by
  have hday := moment.date.afterMonths_mono h
  simp only [monthsLater, DAY, MICROSECONDS]
  omega

theorem monthsLater_lt (moment : Moment) {i j : Nat} (h : i < j) :
    monthsLater moment i + DAY ≤ monthsLater moment j := by
  have hday := moment.date.afterMonths_lt h
  simp only [monthsLater, DAY, MICROSECONDS]
  omega

/-- The replaced year is within range where the instant is. -/
theorem year_le_of_monthsLater {moment : Moment} {months : Nat}
    (h : monthsLater moment months < LIMIT) : (moment.date.monthIndex + months) / 12 ≤ 9999 := by
  by_contra hgt
  have hyears := daysBeforeYear_mono (y := 10000) (z := (moment.date.monthIndex + months) / 12)
    (by omega) (by omega)
  have hten : daysBeforeYear 10000 = 3652059 := by decide
  have hpos := moment.date.day_mem.1
  have hdays := (daysInMonth_bounds ((moment.date.monthIndex + months) / 12)
    ((moment.date.monthIndex + months) % 12 + 1)).1
  have hrest := Int.emod_nonneg moment.instant (b := DAY) (by decide)
  simp only [monthsLater, Date.afterMonths, firstOfMonth, LIMIT, DAY, MICROSECONDS] at h hrest
  omega

/-- What `addMonths` computes, and the year it checks. -/
theorem addMonths_eq (moment : Moment) (months : Nat) :
    addMonths moment months =
      if (moment.date.monthIndex + months) / 12 ≤ 9999 then
        Moment.ofInstant (monthsLater moment months)
      else .error (.valueError "year is out of range") := by
  obtain ⟨hm, hm'⟩ := moment.date.month_mem
  have hdiv : moment.date.year + (moment.date.month - 1 + months) / 12 =
      (moment.date.monthIndex + months) / 12 := by
    unfold Date.monthIndex
    omega
  have hmod : (moment.date.month - 1 + months) % 12 = (moment.date.monthIndex + months) % 12 := by
    unfold Date.monthIndex
    omega
  simp only [addMonths, hdiv, hmod, monthsLater, Date.afterMonths, firstOfMonth]

theorem steps_nonneg (k days : Nat) : (0 : Int) ≤ k * days * DAY := by
  apply Int.mul_nonneg
  · positivity
  · decide

theorem anchor_le_slotInstant (anchor : Moment) (months days : Nat) (shift : Int) (k : Nat) :
    anchor.instant + shift ≤ slotInstant anchor months days shift k := by
  have hmono := monthsLater_mono anchor (Nat.zero_le (k * months))
  have hdays := steps_nonneg k days
  rw [monthsLater_zero] at hmono
  unfold slotInstant
  omega

/-- A slot is computed when its instant is before year 10000: neither the replaced year nor either
sum leaves the range before it. -/
theorem slotAt_ok {anchor : Moment} {months days : Nat} {shift : Int} {k : Nat} (hshift : 0 ≤ shift)
    (h : slotInstant anchor months days shift k < LIMIT) :
    ∃ m, slotAt anchor months days shift k = .ok m ∧
      m.instant = slotInstant anchor months days shift k := by
  have hmin := anchor.inRange.1
  have hdays := steps_nonneg k days
  have hmono := monthsLater_mono anchor (Nat.zero_le (k * months))
  rw [monthsLater_zero] at hmono
  have hlater : monthsLater anchor (k * months) < LIMIT := by
    unfold slotInstant at h
    omega
  obtain ⟨later, hlaterOk, hlaterAt⟩ := Moment.ofInstant_of_range (hmin.trans hmono) hlater
  obtain ⟨step, hstepOk, hstepAt⟩ :=
    Moment.ofInstant_of_range (t := later.instant + k * days * DAY) (by omega) (by
      unfold slotInstant at h
      omega)
  obtain ⟨slot, hslotOk, hslotAt⟩ :=
    Moment.ofInstant_of_range (t := step.instant + shift) (by omega) (by
      unfold slotInstant at h
      omega)
  refine ⟨slot, ?_, ?_⟩
  · simp only [slotAt, occurrence, addMonths_eq, if_pos (year_le_of_monthsLater hlater), hlaterOk,
      Moment.add, bind, Except.bind, hstepOk, hslotOk]
  · unfold slotInstant
    omega

theorem slotAt_instant {anchor : Moment} {months days : Nat} {shift : Int} {k : Nat} {m : Moment}
    (h : slotAt anchor months days shift k = .ok m) :
    m.instant = slotInstant anchor months days shift k := by
  simp only [slotAt, occurrence, addMonths_eq, Moment.add, bind, Except.bind] at h
  split at h
  · cases h
  · rename_i step hstep
    split at hstep
    · cases hstep
    · rename_i later hlater
      split at hlater
      · have hlaterAt := Moment.ofInstant_ok hlater
        have hstepAt := Moment.ofInstant_ok hstep
        have hslotAt := Moment.ofInstant_ok h
        unfold slotInstant
        omega
      · cases hlater

/-- Slots are at least a day apart. -/
theorem slotInstant_succ_ge (anchor : Moment) {months days : Nat} (shift : Int)
    (h : 0 < days + months) (k : Nat) :
    slotInstant anchor months days shift k + DAY ≤ slotInstant anchor months days shift (k + 1) := by
  have hsplit : ((k + 1 : Nat) : Int) * days * DAY = k * days * DAY + days * DAY := by
    push_cast
    ring
  rcases Nat.eq_zero_or_pos months with rfl | hmonths
  · have hdays : DAY ≤ days * DAY := by
      simp only [DAY, MICROSECONDS]
      omega
    simp only [slotInstant, Nat.mul_zero, hsplit]
    omega
  · have hlt := monthsLater_lt anchor (i := k * months) (j := (k + 1) * months) (by
      rw [Nat.add_mul]
      omega)
    have hdays : (0 : Int) ≤ days * DAY := by
      simp only [DAY, MICROSECONDS]
      omega
    simp only [slotInstant, hsplit]
    omega

theorem slotInstant_lt (anchor : Moment) {months days : Nat} (shift : Int) (h : 0 < days + months)
    {i j : Nat} (hij : i < j) :
    slotInstant anchor months days shift i < slotInstant anchor months days shift j := by
  have hday : 0 < DAY := by decide
  obtain ⟨n, rfl⟩ := Nat.exists_eq_add_of_lt hij
  induction n with
  | zero =>
    have := slotInstant_succ_ge anchor shift h i
    simp only [Nat.add_zero]
    omega
  | succ n ih =>
    have hlast := ih (by omega)
    have := slotInstant_succ_ge anchor shift h (i + n + 1)
    simp only [← Nat.add_assoc] at *
    omega

/-- The `k`-th slot is at least `k` days after the first. -/
theorem slotInstant_ge (anchor : Moment) {months days : Nat} (shift : Int) (h : 0 < days + months)
    (k : Nat) : anchor.instant + shift + k * DAY ≤ slotInstant anchor months days shift k := by
  induction k with
  | zero =>
    rw [slotInstant_zero]
    simp
  | succ k ih =>
    have := slotInstant_succ_ge anchor shift h k
    push_cast
    rw [Int.add_mul]
    omega

/-- A step takes at most its mean length and 37 days. -/
theorem slotInstant_le (anchor : Moment) (months days : Nat) (shift : Int) (i n : Nat) :
    slotInstant anchor months days shift (i + n) ≤
      slotInstant anchor months days shift i + n * meanStep months days + 37 * DAY := by
  have hmean := anchor.date.afterMonths_le (i * months) (n * months)
  rw [← Nat.add_mul] at hmean
  have hmonths : monthsLater anchor ((i + n) * months) ≤
      monthsLater anchor (i * months) + (n * months : Nat) * 2629746000000 + 37 * DAY := by
    simp only [monthsLater, DAY, MICROSECONDS]
    omega
  have hdays : ((i + n : Nat) : Int) * days * DAY = i * days * DAY + n * days * DAY := by
    push_cast
    ring
  have hstep : (n : Int) * meanStep months days =
      n * days * DAY + (n * months : Nat) * 2629746000000 := by
    simp only [meanStep, DAY, MICROSECONDS]
    push_cast
    ring
  simp only [slotInstant, hdays, hstep]
  omega

/-! ## The walk to the first slot after a moment -/

section Walk

variable {slot : Nat → Except CalendarError Moment} {f : Nat → Int} {now : Moment}

/-- The walk down ends on a slot that is not after `now`, or on the first. -/
theorem walkDown_ok (hf : ∀ k m, slot k = .ok m → m.instant = f k) {start k : Nat}
    (h : walkDown slot now start = .ok k) : k ≤ start ∧ (k = 0 ∨ f k ≤ now.instant) := by
  induction start with
  | zero =>
    cases h
    exact ⟨le_refl _, .inl rfl⟩
  | succ start ih =>
    simp only [walkDown, bind, Except.bind] at h
    split at h
    · cases h
    · rename_i m hm
      split at h
      · obtain ⟨hle, hk⟩ := ih h
        exact ⟨by omega, hk⟩
      · rename_i hge
        cases h
        have := hf _ _ hm
        exact ⟨le_refl _, .inr (by omega)⟩

theorem walkDown_total {start : Nat} (hok : ∀ k ≤ start, ∃ m, slot k = .ok m) :
    ∃ k, walkDown slot now start = .ok k := by
  induction start with
  | zero => exact ⟨0, rfl⟩
  | succ start ih =>
    obtain ⟨m, hm⟩ := hok (start + 1) (le_refl _)
    simp only [walkDown, bind, Except.bind, hm]
    split
    · exact ih fun k hk => hok k (by omega)
    · exact ⟨_, rfl⟩

/-- The walk up ends on a slot after `now`, and passes only slots that are not. -/
theorem walkUp_ok (hf : ∀ k m, slot k = .ok m → m.instant = f k) {fuel start k : Nat}
    (h : walkUp slot now fuel start = .ok k) :
    start ≤ k ∧ now.instant < f k ∧ ∀ j, start ≤ j → j < k → f j ≤ now.instant := by
  induction fuel generalizing start with
  | zero => cases h
  | succ fuel ih =>
    simp only [walkUp, bind, Except.bind] at h
    split at h
    · cases h
    · rename_i m hm
      have hat := hf _ _ hm
      split at h
      · rename_i hle
        obtain ⟨hstart, hlt, hpassed⟩ := ih h
        refine ⟨by omega, hlt, fun j hj hjk => ?_⟩
        rcases Nat.eq_or_lt_of_le hj with rfl | hlt'
        · omega
        · exact hpassed j hlt' hjk
      · rename_i hgt
        cases h
        exact ⟨le_refl _, by omega, fun j hj hjk => absurd hj (by omega)⟩

/-- With fuel for a slot after `now`, and every slot up to the first one computed, the walk ends. -/
theorem walkUp_total (hf : ∀ k m, slot k = .ok m → m.instant = f k) {fuel start : Nat}
    (hend : now.instant < f (start + fuel)) (hok : ∀ k, start ≤ k →
      (∀ j, start ≤ j → j < k → f j ≤ now.instant) → ∃ m, slot k = .ok m) :
    ∃ k, walkUp slot now (fuel + 1) start = .ok k := by
  induction fuel generalizing start with
  | zero =>
    obtain ⟨m, hm⟩ := hok start (le_refl _) fun j hj hjk => absurd hj (by omega)
    have hat := hf _ _ hm
    have hgt : ¬m.instant ≤ now.instant := by
      simp only [Nat.add_zero] at hend
      omega
    exact ⟨start, by simp [walkUp, bind, Except.bind, hm, hgt]⟩
  | succ fuel ih =>
    obtain ⟨m, hm⟩ := hok start (le_refl _) fun j hj hjk => absurd hj (by omega)
    have hat := hf _ _ hm
    rw [walkUp]
    simp only [bind, Except.bind, hm]
    split
    · rename_i hle
      refine ih ?_ fun k hk hpassed => hok k (by omega) fun j hj hjk => ?_
      · rwa [show start + 1 + fuel = start + (fuel + 1) by omega]
      · rcases Nat.eq_or_lt_of_le hj with rfl | hlt
        · omega
        · exact hpassed j hlt hjk
    · exact ⟨_, rfl⟩

end Walk

/-! ## The next slot -/

/-- The slots of a cadence. -/
def Slot (cadence : Cadence) (userId : UserId) (config : SchedulerConfig) (s : Moment) : Prop :=
  match cadence.mode with
  | .min =>
      ∃ k : Int, s.instant =
        (k * config.minCadence + offsetSeconds userId config.minCadence) * MICROSECONDS
  | .interval =>
      ∃ moment anchor, cadence.anchor = some moment ∧ moment.astimezone = .ok anchor ∧
        ∃ k : Nat, slotAt anchor (cadence.intervalMonths.getD 0).toNat
          (cadence.intervalDays.getD 0).toNat
          (offsetSeconds userId config.window * MICROSECONDS) k = .ok s

/-- A slot of the user's `MIN` cadence starts within a second of `now`, and the seconds of `now`, as
`total_seconds` gives them, are rounded up to it. -/
def SkipsSlot (cadence : Cadence) (userId : UserId) (config : SchedulerConfig) (now : Moment) :
    Prop :=
  cadence.mode = .min ∧ now.instant < wholeSeconds now.instant * MICROSECONDS ∧
    (wholeSeconds now.instant - offsetSeconds userId config.minCadence) % config.minCadence = 0

/-- Rounding may reach the next second, never less than the second under way. -/
theorem wholeSeconds_bounds (t : Int) :
    t < (wholeSeconds t + 1) * MICROSECONDS ∧ wholeSeconds t * MICROSECONDS < t + MICROSECONDS := by
  obtain ⟨hlow, hhigh⟩ := truncatedRatio_bounds t (d := 1000000) (by decide)
  simp only [wholeSeconds, MICROSECONDS]
  push_cast at hlow hhigh
  omega

/-- Where the seconds of `now` are rounded up to a slot, that slot is the first after `now`. -/
theorem isLeast_rounded {now seconds offset step : Int}
    (hlow : now < seconds * MICROSECONDS) (hhigh : seconds * MICROSECONDS < now + MICROSECONDS)
    (hslot : (seconds - offset) % step = 0) :
    IsLeast {u | u ∈ {t | ∃ k : Int, t = (k * step + offset) * MICROSECONDS} ∧ now < u}
      (seconds * MICROSECONDS) := by
  have hback := Int.ediv_mul_add_emod (seconds - offset) step
  refine ⟨⟨⟨(seconds - offset) / step, ?_⟩, hlow⟩, ?_⟩
  · simp only [MICROSECONDS]
    omega
  · rintro u ⟨⟨k, rfl⟩, hafter⟩
    simp only [MICROSECONDS] at *
    omega

theorem lt_computed {now seconds offset step : Int} (hstep : 0 < step)
    (hlow : now < (seconds + 1) * MICROSECONDS) :
    now < (((seconds - offset) / step + 1) * step + offset) * MICROSECONDS := by
  have hfloor := Int.lt_ediv_add_one_mul_self (seconds - offset) hstep
  simp only [MICROSECONDS] at *
  omega

/-- Where they are not, the first slot is the one that is computed. -/
theorem isLeast_computed {now seconds offset step : Int} (hstep : 0 < step)
    (hlow : now < (seconds + 1) * MICROSECONDS) (hhigh : seconds * MICROSECONDS < now + MICROSECONDS)
    (hslot : ¬(now < seconds * MICROSECONDS ∧ (seconds - offset) % step = 0)) :
    IsLeast {u | u ∈ {t | ∃ k : Int, t = (k * step + offset) * MICROSECONDS} ∧ now < u}
      ((((seconds - offset) / step + 1) * step + offset) * MICROSECONDS) := by
  refine ⟨⟨⟨_, rfl⟩, lt_computed hstep hlow⟩, ?_⟩
  rintro u ⟨⟨k, rfl⟩, hafter⟩
  have hle : seconds - offset ≤ k * step := by
    simp only [MICROSECONDS] at *
    omega
  have hlt : seconds - offset < k * step := by
    rcases hle.lt_or_eq with hlt | heq
    · exact hlt
    · refine absurd ⟨?_, by rw [heq, Int.mul_emod_left]⟩ hslot
      simp only [MICROSECONDS] at *
      omega
  have hdiv : (seconds - offset) / step < k := Int.ediv_lt_of_lt_mul hstep hlt
  have hnext : ((seconds - offset) / step + 1) * step ≤ k * step :=
    Int.mul_le_mul_of_nonneg_right hdiv (by omega)
  simp only [MICROSECONDS]
  omega

/-- A `MIN` slot is one after `now`, and the first one where the seconds of `now` are not rounded up
to a slot. -/
theorem every_spec {userId : UserId} {now s : Moment} {interval : Nat} (hpos : 0 < interval)
    (h : every userId now interval = .ok s) :
    now.instant < s.instant ∧
      (∃ k : Int, s.instant = (k * interval + offsetSeconds userId interval) * MICROSECONDS) ∧
      (¬(now.instant < wholeSeconds now.instant * MICROSECONDS ∧
          (wholeSeconds now.instant - offsetSeconds userId interval) % interval = 0) →
        ∀ k : Int, now.instant < (k * interval + offsetSeconds userId interval) * MICROSECONDS →
          s.instant ≤ (k * interval + offsetSeconds userId interval) * MICROSECONDS) := by
  have hstep : (0 : Int) < interval := by omega
  have hat := Moment.ofInstant_ok h
  obtain ⟨hlow, hhigh⟩ := wholeSeconds_bounds now.instant
  rw [hat]
  refine ⟨lt_computed hstep hlow, ⟨_, rfl⟩, fun hskips k hk => ?_⟩
  exact (isLeast_computed hstep hlow hhigh hskips).2 ⟨⟨k, rfl⟩, hk⟩

/-- What an anchored cadence has once its fields are checked. -/
structure Anchored (cadence : Cadence) (userId : UserId) (window : Nat) where
  months : Nat
  days : Nat
  anchor : Moment
  moment : AwareDatetime
  months_eq : cadence.intervalMonths.getD 0 = months
  days_eq : cadence.intervalDays.getD 0 = days
  length_pos : 0 < days + months
  anchor_eq : cadence.anchor = some moment
  utc : moment.astimezone = .ok anchor

/-- The offset of a user after an anchor. -/
def shiftOf (userId : UserId) (window : Nat) : Int := offsetSeconds userId window * MICROSECONDS

theorem shiftOf_nonneg (userId : UserId) (window : Nat) : 0 ≤ shiftOf userId window := by
  simp only [shiftOf, MICROSECONDS]
  omega

/-- An anchored slot was found by the two walks over checked fields. -/
theorem anchored_walks {cadence : Cadence} {userId : UserId} {now s : Moment} {window : Nat}
    (h : anchored cadence userId now window = .ok s) :
    ∃ (a : Anchored cadence userId window) (start k : Nat),
      walkDown (slotAt a.anchor a.months a.days (shiftOf userId window)) now
        (truncatedRatio (now.instant - a.anchor.instant) (meanStep a.months a.days)).toNat =
          .ok start ∧
      walkUp (slotAt a.anchor a.months a.days (shiftOf userId window)) now
        (((now.instant - a.anchor.instant) / DAY).toNat + 2) start = .ok k ∧
      slotAt a.anchor a.months a.days (shiftOf userId window) k = .ok s := by
  simp only [anchored, bind, Except.bind] at h
  split at h
  · cases h
  · rename_i moment hanchor
    split at h
    · cases h
    · rename_i hlength
      split at h
      · cases h
      · rename_i hsign
        split at h
        · cases h
        · rename_i anchor hutc
          split at h
          · cases h
          · split at h
            · cases h
            · rename_i start hdown
              split at h
              · cases h
              · rename_i k hup
                refine ⟨⟨(cadence.intervalMonths.getD 0).toNat, (cadence.intervalDays.getD 0).toNat,
                  anchor, moment, by omega, by omega, by omega, hanchor, hutc⟩, start, k, hdown, hup,
                  h⟩

/-- The slot of an anchored cadence is the first one after `now`. -/
theorem anchored_spec {cadence : Cadence} {userId : UserId} {now s : Moment} {window : Nat}
    (h : anchored cadence userId now window = .ok s) :
    ∃ (a : Anchored cadence userId window) (k : Nat),
      slotAt a.anchor a.months a.days (shiftOf userId window) k = .ok s ∧
      now.instant < s.instant ∧
      ∀ j m, slotAt a.anchor a.months a.days (shiftOf userId window) j = .ok m →
        now.instant < m.instant → s.instant ≤ m.instant := by
  obtain ⟨a, start, k, hdown, hup, hslot⟩ := anchored_walks h
  obtain ⟨-, hstart⟩ := walkDown_ok (fun _ _ => slotAt_instant) hdown
  obtain ⟨hle, hlt, hpassed⟩ := walkUp_ok (fun _ _ => slotAt_instant) hup
  have hat := slotAt_instant hslot
  refine ⟨a, k, hslot, by omega, fun j m hm hj => ?_⟩
  have hmat := slotAt_instant hm
  by_contra hgt
  -- an earlier slot was passed by one of the walks
  have hjk : j < k := by
    by_contra hkj
    rcases Nat.eq_or_lt_of_le (Nat.le_of_not_lt hkj) with rfl | hlt'
    · omega
    · have := slotInstant_lt a.anchor (shiftOf userId window) a.length_pos hlt'
      omega
  by_cases hj' : start ≤ j
  · have := hpassed j hj' hjk
    omega
  · rcases hstart with rfl | hstart
    · omega
    · have := slotInstant_lt a.anchor (shiftOf userId window) a.length_pos (i := j) (j := start)
        (by omega)
      omega

/-- The next slot is a slot, and strictly after `now`. -/
theorem nextSlot_spec {cadence : Cadence} {userId : UserId} {now s : Moment}
    {config : SchedulerConfig} (h : nextSlot cadence userId now config = .ok s) :
    now.instant < s.instant ∧ Slot cadence userId config s := by
  unfold nextSlot at h
  cases hmode : cadence.mode with
  | min =>
    rw [hmode] at h
    obtain ⟨hlt, hslot, -⟩ := every_spec config.minCadence_pos h
    exact ⟨hlt, by simpa only [Slot, hmode] using hslot⟩
  | interval =>
    rw [hmode] at h
    obtain ⟨a, k, hslot, hlt, -⟩ := anchored_spec h
    refine ⟨hlt, ?_⟩
    simp only [Slot, hmode, a.months_eq, a.days_eq, Int.toNat_natCast]
    exact ⟨a.moment, a.anchor, a.anchor_eq, a.utc, k, hslot⟩

/-- No slot after `now` is before the next one, unless `now` is rounded up to a slot. -/
theorem nextSlot_first {cadence : Cadence} {userId : UserId} {now s : Moment}
    {config : SchedulerConfig} (h : nextSlot cadence userId now config = .ok s)
    (hskips : ¬SkipsSlot cadence userId config now) {r : Moment}
    (hr : Slot cadence userId config r) (hlt : now.instant < r.instant) :
    s.instant ≤ r.instant := by
  unfold nextSlot at h
  cases hmode : cadence.mode with
  | min =>
    rw [hmode] at h
    obtain ⟨-, -, hfirst⟩ := every_spec config.minCadence_pos h
    simp only [Slot, hmode] at hr
    obtain ⟨k, hk⟩ := hr
    rw [hk]
    exact hfirst (fun hc => hskips ⟨hmode, hc⟩) k (by omega)
  | interval =>
    rw [hmode] at h
    obtain ⟨a, k, -, -, hfirst⟩ := anchored_spec h
    simp only [Slot, hmode, a.months_eq, a.days_eq, a.anchor_eq, Int.toNat_natCast,
      Option.some.injEq] at hr
    obtain ⟨moment, anchor, rfl, hutc, j, hj⟩ := hr
    rw [a.utc] at hutc
    cases hutc
    exact hfirst j r hj hlt

/-! ## Within the years 1 to 9999 -/

/-- The first moment of year 9900. -/
def HORIZON : Int := (3615536 - EPOCH_ORDINAL) * DAY

/-- The seconds of the longest year. -/
def YEAR_SECONDS : Nat := 366 * 86400

/-- A scheduler that spreads the users, and checks the shortest cadence, within a year. -/
def SchedulerConfig.WithinYear (config : SchedulerConfig) : Prop :=
  config.minCadence ≤ YEAR_SECONDS ∧ config.window ≤ YEAR_SECONDS

theorem every_ok {userId : UserId} {now : Moment} {interval : Nat} (hpos : 0 < interval)
    (hyear : interval ≤ YEAR_SECONDS) (hnow : now.instant < HORIZON) :
    ∃ s, every userId now interval = .ok s := by
  have hstep : (0 : Int) < interval := by omega
  have hmin := now.inRange.1
  obtain ⟨hsec, hhigh⟩ := wholeSeconds_bounds now.instant
  simp only [every]
  generalize wholeSeconds now.instant = seconds at *
  generalize (offsetSeconds userId interval : Int) = offset at *
  have hfloor := Int.lt_ediv_add_one_mul_self (seconds - offset) hstep
  have hback := Int.ediv_mul_le (seconds - offset) (b := interval) (by omega)
  have hsplit : ((seconds - offset) / interval + 1) * (interval : Int) =
      (seconds - offset) / interval * interval + interval := by ring
  apply (Moment.ofInstant_iff _).mpr
  rw [hsplit] at hfloor ⊢
  simp only [MINIMUM, LIMIT, HORIZON, YEAR_SECONDS, DAY, MICROSECONDS, EPOCH_ORDINAL] at *
  constructor
  · omega
  · omega

/-- The lengths that a request may give a cadence. -/
structure Cadence.Bounded (cadence : Cadence) : Prop where
  days : 0 ≤ cadence.intervalDays.getD 0 ∧ cadence.intervalDays.getD 0 ≤ 3650
  months : 0 ≤ cadence.intervalMonths.getD 0 ∧ cadence.intervalMonths.getD 0 ≤ 120

/-- A cadence that the settings accept: an interval has a length and an anchor. -/
def Cadence.Complete (cadence : Cadence) : Prop :=
  cadence.intervalDays.getD 0 + cadence.intervalMonths.getD 0 ≠ 0 ∧ cadence.anchor ≠ none

/-- The anchor is a UTC moment, and so is the user's offset after it. -/
def AwareDatetime.Schedulable (moment : AwareDatetime) (shift : Int) : Prop :=
  MINIMUM ≤ moment.instant ∧ moment.instant < LIMIT ∧ moment.instant + shift < LIMIT

section Horizon

variable {cadence : Cadence} {userId : UserId} {now : Moment} {window : Nat}

theorem shiftOf_le (hwindow : 0 < window) (hyear : window ≤ YEAR_SECONDS) :
    shiftOf userId window < 366 * DAY := by
  have hlt : offsetSeconds userId window < window := Nat.mod_lt _ hwindow
  simp only [shiftOf, MICROSECONDS, DAY, YEAR_SECONDS] at *
  omega

theorem meanStep_le (a : Anchored cadence userId window) (hb : cadence.Bounded) :
    (meanStep a.months a.days : Int) ≤ 7303 * DAY := by
  have hdays := hb.days.2
  have hmonths := hb.months.2
  rw [a.days_eq] at hdays
  rw [a.months_eq] at hmonths
  simp only [meanStep, DAY, MICROSECONDS]
  omega

theorem meanStep_pos (a : Anchored cadence userId window) : 0 < meanStep a.months a.days := by
  have := a.length_pos
  unfold meanStep
  omega

/-- The slots up to the guess are within range. -/
theorem slotInstant_guess_lt (a : Anchored cadence userId window) (hb : cadence.Bounded)
    (hwindow : 0 < window) (hyear : window ≤ YEAR_SECONDS) (hnow : now.instant < HORIZON)
    (hfirst : a.anchor.instant + shiftOf userId window < LIMIT) {j : Nat}
    (hj : j ≤ (truncatedRatio (now.instant - a.anchor.instant) (meanStep a.months a.days)).toNat) :
    slotInstant a.anchor a.months a.days (shiftOf userId window) j < LIMIT := by
  have hmean := meanStep_le a hb
  have hbound := (truncatedRatio_bounds (now.instant - a.anchor.instant) (meanStep_pos a)).2
  have hshift := @shiftOf_le userId window hwindow hyear
  have hle := slotInstant_le a.anchor a.months a.days (shiftOf userId window) 0 j
  rw [slotInstant_zero, Nat.zero_add] at hle
  rcases Nat.eq_zero_or_pos j with rfl | hpos
  · rw [slotInstant_zero]
    exact hfirst
  · have hsteps : (j : Int) * meanStep a.months a.days ≤
        truncatedRatio (now.instant - a.anchor.instant) (meanStep a.months a.days) *
          meanStep a.months a.days := by
      apply Int.mul_le_mul_of_nonneg_right
      · omega
      · omega
    simp only [LIMIT, HORIZON, DAY, MICROSECONDS, EPOCH_ORDINAL] at *
    omega

/-- A slot that the one before it leaves due is within range. -/
theorem slotInstant_next_lt (a : Anchored cadence userId window) (hb : cadence.Bounded)
    (hnow : now.instant < HORIZON) {k : Nat}
    (hk : slotInstant a.anchor a.months a.days (shiftOf userId window) k ≤ now.instant) :
    slotInstant a.anchor a.months a.days (shiftOf userId window) (k + 1) < LIMIT := by
  have hmean := meanStep_le a hb
  have hle := slotInstant_le a.anchor a.months a.days (shiftOf userId window) k 1
  simp only [Nat.cast_one, one_mul] at hle
  simp only [LIMIT, HORIZON, DAY, MICROSECONDS, EPOCH_ORDINAL] at *
  omega

theorem anchored_eq (a : Anchored cadence userId window)
    (hmean : (meanStep a.months a.days : Int) < TIMEDELTA_DAYS * DAY) :
    anchored cadence userId now window = (do
      let start ← walkDown (slotAt a.anchor a.months a.days (shiftOf userId window)) now
        (truncatedRatio (now.instant - a.anchor.instant) (meanStep a.months a.days)).toNat
      let k ← walkUp (slotAt a.anchor a.months a.days (shiftOf userId window)) now
        (((now.instant - a.anchor.instant) / DAY).toNat + 2) start
      slotAt a.anchor a.months a.days (shiftOf userId window) k) := by
  have hpos := a.length_pos
  have hlength : ¬((a.days : Int) + a.months = 0) := by omega
  have hsign : ¬((a.days : Int) < 0 ∨ (a.months : Int) < 0) := by omega
  simp only [anchored, a.months_eq, a.days_eq, a.anchor_eq, hlength, hsign, if_false, a.utc,
    Int.toNat_natCast, shiftOf, bind, Except.bind, not_le.mpr hmean]

/-- Before year 9900, the first slot after `now` is computed when the first slot of all is. -/
theorem anchored_ok (a : Anchored cadence userId window) (hb : cadence.Bounded)
    (hwindow : 0 < window) (hyear : window ≤ YEAR_SECONDS) (hnow : now.instant < HORIZON)
    (hfirst : a.anchor.instant + shiftOf userId window < LIMIT) :
    ∃ s, anchored cadence userId now window = .ok s := by
  have hshift := shiftOf_nonneg userId window
  have hguess : ∀ j ≤ (truncatedRatio (now.instant - a.anchor.instant)
      (meanStep a.months a.days)).toNat,
        ∃ m, slotAt a.anchor a.months a.days (shiftOf userId window) j = .ok m := by
    intro j hj
    obtain ⟨m, hm, -⟩ := slotAt_ok hshift
      (slotInstant_guess_lt a hb hwindow hyear hnow hfirst hj)
    exact ⟨m, hm⟩
  obtain ⟨start, hdown⟩ := @walkDown_total _ now _ hguess
  obtain ⟨hle, -⟩ := walkDown_ok (fun _ _ => slotAt_instant) hdown
  have hend : now.instant < slotInstant a.anchor a.months a.days (shiftOf userId window)
      (start + (((now.instant - a.anchor.instant) / DAY).toNat + 1)) := by
    have hge := slotInstant_ge a.anchor (shiftOf userId window) a.length_pos
      (start + (((now.instant - a.anchor.instant) / DAY).toNat + 1))
    have hdays : now.instant - a.anchor.instant <
        (start + (((now.instant - a.anchor.instant) / DAY).toNat + 1) : Nat) * DAY := by
      simp only [DAY, MICROSECONDS]
      omega
    omega
  have hok : ∀ k, start ≤ k → (∀ j, start ≤ j → j < k →
      slotInstant a.anchor a.months a.days (shiftOf userId window) j ≤ now.instant) →
        ∃ m, slotAt a.anchor a.months a.days (shiftOf userId window) k = .ok m := by
    intro k hk hpassed
    rcases Nat.eq_or_lt_of_le hk with rfl | hlt
    · exact hguess _ hle
    · obtain ⟨j, rfl⟩ : ∃ j, k = j + 1 := ⟨k - 1, by omega⟩
      have hj := hpassed j (by omega) (by omega)
      obtain ⟨m, hm, -⟩ := slotAt_ok hshift (slotInstant_next_lt a hb hnow hj)
      exact ⟨m, hm⟩
  obtain ⟨k, hup⟩ := walkUp_total (f := slotInstant a.anchor a.months a.days
    (shiftOf userId window)) (fun _ _ => slotAt_instant) hend hok
  obtain ⟨hstart, -, hpassed⟩ := walkUp_ok (f := slotInstant a.anchor a.months a.days
    (shiftOf userId window)) (fun _ _ => slotAt_instant) hup
  obtain ⟨s, hs⟩ := hok k hstart hpassed
  refine ⟨s, ?_⟩
  have hmean := meanStep_le a hb
  rw [anchored_eq a (by simp only [TIMEDELTA_DAYS, DAY, MICROSECONDS] at *; omega)]
  simp only [bind, Except.bind, hdown, hup, hs]

/-- A first slot from year 10000 on raises, at every moment before it. -/
theorem anchored_error (a : Anchored cadence userId window)
    (hfirst : LIMIT ≤ a.anchor.instant + shiftOf userId window) (s : Moment) :
    anchored cadence userId now window ≠ .ok s := by
  intro h
  obtain ⟨b, start, k, hdown, hup, hslot⟩ := anchored_walks h
  have hsame : b.anchor.instant = a.anchor.instant := by
    have hmoment := b.anchor_eq.symm.trans a.anchor_eq
    have hutc := b.utc
    rw [Option.some.inj hmoment, a.utc] at hutc
    rw [Except.ok.inj hutc]
  have hge := anchor_le_slotInstant b.anchor b.months b.days (shiftOf userId window) k
  have hat := slotAt_instant hslot
  have hrange := s.inRange.2
  omega

end Horizon

end Coinpilot.Core
