import Coinpilot.Scheduling.Accepted

/-!
# The least slot after now

The slots of a cadence are a set of instants, whatever their year (`slotInstants`), and a result is the
first of them after `now` where that is before year 10000 (`FindsFirst`). The walks of an anchored
cadence end from every index (`walkFrom_ends`), and on the first slot (`walkFrom_first_iff`).
`next_slot_least_iff` says exactly when `nextSlot` answers the first slot.
-/

set_option autoImplicit false

namespace Coinpilot.Core

open Coinpilot.Lib.Calendar Coinpilot.Lib.Binary64

/-- The instants of the slots of a cadence, whatever their year. -/
def slotInstants (cadence : Cadence) (userId : UserId) (config : SchedulerConfig) : Set Int :=
  match cadence.mode with
  | .min => {t | ∃ k : Int,
      t = (k * config.minCadence + offsetSeconds userId config.minCadence) * MICROSECONDS}
  | .interval => {t | ∃ moment anchor, cadence.anchor = some moment ∧ moment.astimezone = .ok anchor ∧
      ∃ k : Nat, t = slotInstant anchor (cadence.intervalMonths.getD 0).toNat
        (cadence.intervalDays.getD 0).toNat (shiftOf userId config.window) k}

/-- There is a first instant of a set after `now`, and where it is before year 10000 the result is that
one. -/
def FindsFirst (instants : Set Int) (now : Moment) (result : Except CalendarError Moment) : Prop :=
  ∃ t, IsLeast {u | u ∈ instants ∧ now.instant < u} t ∧
    (t < LIMIT → ∃ s, result = .ok s ∧ s.instant = t)

/-- No instant of a set is after `now` and before year 10000. -/
def NoneInRange (instants : Set Int) (now : Moment) : Prop :=
  ∀ u ∈ instants, now.instant < u → LIMIT ≤ u

/-- Where the first instant is known, a result is right exactly when it is that one, or none is in
range. -/
theorem findsFirst_iff {instants : Set Int} {now : Moment} {result : Except CalendarError Moment}
    {t : Int} (ht : IsLeast {u | u ∈ instants ∧ now.instant < u} t) :
    FindsFirst instants now result ↔
      (∃ s, result = .ok s ∧ s.instant = t) ∨ NoneInRange instants now := by
  constructor
  · rintro ⟨u, hu, hresult⟩
    obtain rfl := hu.unique ht
    by_cases hrange : u < LIMIT
    · exact Or.inl (hresult hrange)
    · right
      intro v hv hafter
      exact (not_lt.mp hrange).trans (ht.2 ⟨hv, hafter⟩)
  · rintro (hresult | hnone)
    · exact ⟨t, ht, fun _ => hresult⟩
    · exact ⟨t, ht, fun hrange => absurd (hnone t ht.1.1 ht.1.2) (not_le.mpr hrange)⟩

/-! ## The walks of an anchored cadence -/

section Walks

variable {cadence : Cadence} {userId : UserId} {window : Nat}

/-- The instant of the `k`-th slot. -/
def Anchored.instantOf (a : Anchored cadence userId window) (k : Nat) : Int :=
  slotInstant a.anchor a.months a.days (shiftOf userId window) k

/-- The walk down and the walk up, from any index. -/
def walkFrom (a : Anchored cadence userId window) (now : Moment) (start : Nat) :
    Except CalendarError Moment := do
  let slot := slotAt a.anchor a.months a.days (shiftOf userId window)
  let k ← walkDown slot now start
  let k ← walkUp slot now (((now.instant - a.anchor.instant) / DAY).toNat + 2) k
  slot k

theorem Anchored.instantOf_lt (a : Anchored cadence userId window) {i j : Nat} (h : i < j) :
    a.instantOf i < a.instantOf j :=
  slotInstant_lt a.anchor (shiftOf userId window) a.length_pos h

theorem Anchored.instantOf_le (a : Anchored cadence userId window) {i j : Nat} (h : i ≤ j) :
    a.instantOf i ≤ a.instantOf j := by
  rcases Nat.eq_or_lt_of_le h with rfl | hlt
  · exact le_refl _
  · exact (a.instantOf_lt hlt).le

/-- A slot before year 10000 is computed. -/
theorem Anchored.slotAt_instantOf (a : Anchored cadence userId window) {k : Nat}
    (h : a.instantOf k < LIMIT) : ∃ m, slotAt a.anchor a.months a.days (shiftOf userId window) k = .ok m ∧
      m.instant = a.instantOf k :=
  slotAt_ok (shiftOf_nonneg userId window) h

/-- So many steps from any index lead past `now`. -/
theorem Anchored.lt_instantOf_add (a : Anchored cadence userId window) (now : Moment) (start : Nat) :
    now.instant < a.instantOf (start + (((now.instant - a.anchor.instant) / DAY).toNat + 1)) := by
  have hge := slotInstant_ge a.anchor (shiftOf userId window) a.length_pos
    (start + (((now.instant - a.anchor.instant) / DAY).toNat + 1))
  have hshift := shiftOf_nonneg userId window
  have hdays : now.instant - a.anchor.instant <
      (start + (((now.instant - a.anchor.instant) / DAY).toNat + 1) : Nat) * DAY := by
    simp only [DAY, MICROSECONDS]
    omega
  rw [Anchored.instantOf]
  omega

/-- Of the slots after `now`, one is the first. -/
theorem Anchored.exists_first (a : Anchored cadence userId window) (now : Moment) :
    ∃ m, now.instant < a.instantOf m ∧ ∀ j < m, a.instantOf j ≤ now.instant := by
  have hsome : ∃ k, now.instant < a.instantOf k := ⟨_, a.lt_instantOf_add now 0⟩
  exact ⟨Nat.find hsome, Nat.find_spec hsome, fun j hj => not_lt.mp (Nat.find_min hsome hj)⟩

theorem addMonths_ne_endless (moment : Moment) (months : Nat) :
    addMonths moment months ≠ .error .endless := by
  rw [addMonths_eq, Moment.ofInstant]
  split
  · split
    · simp
    · simp
  · simp

theorem add_ne_endless (moment : Moment) (delta : Int) : moment.add delta ≠ .error .endless := by
  rw [Moment.add, Moment.ofInstant]
  split
  · simp
  · simp

theorem slotAt_ne_endless (anchor : Moment) (months days : Nat) (shift : Int) (k : Nat) :
    slotAt anchor months days shift k ≠ .error .endless := by
  rw [slotAt, occurrence]
  cases hmonths : addMonths anchor (k * months) with
  | error e =>
    intro h
    obtain rfl := Except.error.inj h
    exact addMonths_ne_endless _ _ hmonths
  | ok later =>
    simp only [bind, Except.bind]
    cases hdays : later.add (k * days * DAY) with
    | error e =>
      intro h
      obtain rfl := Except.error.inj h
      exact add_ne_endless _ _ hdays
    | ok step => exact add_ne_endless _ _

theorem walkDown_ne_endless {slot : Nat → Except CalendarError Moment} {now : Moment}
    (hslot : ∀ k, slot k ≠ .error .endless) (start : Nat) :
    walkDown slot now start ≠ .error .endless := by
  induction start with
  | zero => simp [walkDown]
  | succ start ih =>
    rw [walkDown]
    cases hk : slot (start + 1) with
    | error e =>
      intro h
      obtain rfl := Except.error.inj h
      exact hslot _ hk
    | ok m =>
      simp only [bind, Except.bind]
      split
      · exact ih
      · simp

/-- A walk up that some step in its fuel ends is not endless. -/
theorem walkUp_ne_endless {slot : Nat → Except CalendarError Moment} {f : Nat → Int} {now : Moment}
    (hf : ∀ k m, slot k = .ok m → m.instant = f k) (hslot : ∀ k, slot k ≠ .error .endless) {fuel start : Nat}
    (hend : now.instant < f (start + fuel)) : walkUp slot now (fuel + 1) start ≠ .error .endless := by
  induction fuel generalizing start with
  | zero =>
    rw [walkUp]
    cases hk : slot start with
    | error e =>
      intro h
      obtain rfl := Except.error.inj h
      exact hslot _ hk
    | ok m =>
      have hgt : ¬m.instant ≤ now.instant := by
        rw [hf _ _ hk]
        exact not_le.mpr hend
      simp only [bind, Except.bind, if_neg hgt]
      simp
  | succ fuel ih =>
    rw [walkUp]
    cases hk : slot start with
    | error e =>
      intro h
      obtain rfl := Except.error.inj h
      exact hslot _ hk
    | ok m =>
      simp only [bind, Except.bind]
      split
      · apply ih
        rwa [Nat.add_right_comm]
      · simp

/-- Both loops end, from every index. -/
theorem walkFrom_ends (a : Anchored cadence userId window) (now : Moment) (start : Nat) :
    walkFrom a now start ≠ .error .endless := by
  have hslot : ∀ k, slotAt a.anchor a.months a.days (shiftOf userId window) k ≠ .error .endless :=
    slotAt_ne_endless _ _ _ _
  rw [walkFrom]
  cases hdown : walkDown (slotAt a.anchor a.months a.days (shiftOf userId window)) now start with
  | error e =>
    intro h
    obtain rfl := Except.error.inj h
    exact walkDown_ne_endless hslot _ hdown
  | ok k =>
    simp only [bind, Except.bind]
    cases hup : walkUp (slotAt a.anchor a.months a.days (shiftOf userId window)) now
        (((now.instant - a.anchor.instant) / DAY).toNat + 2) k with
    | error e =>
      intro h
      obtain rfl := Except.error.inj h
      exact walkUp_ne_endless (f := a.instantOf) (fun _ _ => slotAt_instant) hslot
        (a.lt_instantOf_add now k) hup
    | ok k' => exact hslot k'

/-- Where the slots at the index and at the first one after `now` are before year 10000, the walks end
on the first. -/
theorem walkFrom_first (a : Anchored cadence userId window) {now : Moment} {start m : Nat}
    (hm : now.instant < a.instantOf m) (hbefore : ∀ j < m, a.instantOf j ≤ now.instant)
    (hrange : a.instantOf m < LIMIT) (hstart : start = 0 ∨ a.instantOf start < LIMIT) :
    ∃ s, walkFrom a now start = .ok s ∧ s.instant = a.instantOf m := by
  have hlow : ∀ k ≤ start, ∃ s, slotAt a.anchor a.months a.days (shiftOf userId window) k = .ok s := by
    intro k hk
    have hin : a.instantOf k < LIMIT := by
      rcases hstart with rfl | hstart
      · obtain rfl := Nat.le_zero.mp hk
        exact (a.instantOf_le (Nat.zero_le m)).trans_lt hrange
      · exact (a.instantOf_le hk).trans_lt hstart
    obtain ⟨s, hs, -⟩ := a.slotAt_instantOf hin
    exact ⟨s, hs⟩
  obtain ⟨k, hdown⟩ := @walkDown_total _ now _ hlow
  obtain ⟨-, hk⟩ := walkDown_ok (f := a.instantOf) (fun _ _ => slotAt_instant) hdown
  have hkm : k ≤ m := by
    rcases hk with rfl | hk
    · exact Nat.zero_le m
    · by_contra hgt
      exact absurd hk (not_le.mpr (hm.trans (a.instantOf_lt (not_le.mp hgt))))
  -- The walk up passes no slot after the first one.
  have hhigh : ∀ j, k ≤ j → (∀ i, k ≤ i → i < j → a.instantOf i ≤ now.instant) →
      ∃ s, slotAt a.anchor a.months a.days (shiftOf userId window) j = .ok s := by
    intro j hj hpassed
    have hjm : j ≤ m := by
      by_contra hgt
      exact absurd (hpassed m hkm (not_le.mp hgt)) (not_le.mpr hm)
    obtain ⟨s, hs, -⟩ := a.slotAt_instantOf ((a.instantOf_le hjm).trans_lt hrange)
    exact ⟨s, hs⟩
  obtain ⟨j, hup⟩ := walkUp_total (f := a.instantOf) (fun _ _ => slotAt_instant)
    (a.lt_instantOf_add now k) hhigh
  obtain ⟨-, hj, hpassed⟩ := walkUp_ok (f := a.instantOf) (fun _ _ => slotAt_instant) hup
  obtain rfl : j = m := by
    rcases lt_trichotomy j m with hlt | heq | hgt
    · exact absurd (hbefore j hlt) (not_le.mpr hj)
    · exact heq
    · exact absurd (hpassed m hkm hgt) (not_le.mpr hm)
  obtain ⟨s, hs, hat⟩ := a.slotAt_instantOf hrange
  refine ⟨s, ?_, hat⟩
  simp only [walkFrom, bind, Except.bind, hdown, hup, hs]

/-- A walk from a slot past year 9999 raises. -/
theorem start_of_walkFrom (a : Anchored cadence userId window) {now s : Moment} {start : Nat}
    (h : walkFrom a now start = .ok s) : start = 0 ∨ a.instantOf start < LIMIT := by
  cases start with
  | zero => exact Or.inl rfl
  | succ start =>
    right
    rw [walkFrom] at h
    cases hk : slotAt a.anchor a.months a.days (shiftOf userId window) (start + 1) with
    | error e =>
      simp only [walkDown, hk, bind, Except.bind] at h
      cases h
    | ok m =>
      have hat := slotAt_instant hk
      have hlimit := m.inRange.2
      rw [Anchored.instantOf]
      omega

end Walks

/-! ## INTERVAL cadences -/

section Interval

variable {cadence : Cadence} {userId : UserId} {config : SchedulerConfig}

theorem mem_slotInstants_interval (a : Anchored cadence userId config.window)
    (hmode : cadence.mode = .interval) (t : Int) :
    t ∈ slotInstants cadence userId config ↔ ∃ k, t = a.instantOf k := by
  simp only [slotInstants, hmode, Set.mem_ofPred_eq, a.months_eq, a.days_eq, a.anchor_eq,
    Int.toNat_natCast, Option.some.injEq]
  constructor
  · rintro ⟨moment, anchor, rfl, hutc, k, hk⟩
    obtain rfl := Except.ok.inj (a.utc.symm.trans hutc)
    exact ⟨k, hk⟩
  · rintro ⟨k, hk⟩
    exact ⟨a.moment, a.anchor, rfl, a.utc, k, hk⟩

/-- The first index after `now` gives the least slot after it. -/
theorem isLeast_instantOf (a : Anchored cadence userId config.window) (hmode : cadence.mode = .interval)
    {now : Moment} {m : Nat} (hm : now.instant < a.instantOf m)
    (hbefore : ∀ j < m, a.instantOf j ≤ now.instant) :
    IsLeast {u | u ∈ slotInstants cadence userId config ∧ now.instant < u} (a.instantOf m) := by
  refine ⟨⟨(mem_slotInstants_interval a hmode _).mpr ⟨m, rfl⟩, hm⟩, ?_⟩
  rintro u ⟨hu, hafter⟩
  obtain ⟨k, rfl⟩ := (mem_slotInstants_interval a hmode u).mp hu
  apply a.instantOf_le
  by_contra hlt
  exact absurd (hbefore k (not_le.mp hlt)) (not_le.mpr hafter)

/-- From every index, the walks find the first slot exactly where the slot at that index, if any was
stepped to, is before year 10000. -/
theorem walkFrom_first_iff (a : Anchored cadence userId config.window) (hmode : cadence.mode = .interval)
    (now : Moment) (start : Nat) :
    FindsFirst (slotInstants cadence userId config) now (walkFrom a now start) ↔
      (start = 0 ∨ a.instantOf start < LIMIT) ∨ NoneInRange (slotInstants cadence userId config) now := by
  obtain ⟨m, hm, hbefore⟩ := a.exists_first now
  have hleast := isLeast_instantOf a hmode hm hbefore
  rw [findsFirst_iff hleast]
  constructor
  · rintro (⟨s, hs, -⟩ | hnone)
    · exact Or.inl (start_of_walkFrom a hs)
    · exact Or.inr hnone
  · rintro (hstart | hnone)
    · by_cases hrange : a.instantOf m < LIMIT
      · exact Or.inl (walkFrom_first a hm hbefore hrange hstart)
      · right
        intro u hu hafter
        exact (not_lt.mp hrange).trans (hleast.2 ⟨hu, hafter⟩)
    · exact Or.inr hnone

/-- The index that the walks start from. -/
def guessOf (a : Anchored cadence userId config.window) (now : Moment) : Nat :=
  (truncatedRatio (now.instant - a.anchor.instant) (meanStep a.months a.days)).toNat

/-- An `INTERVAL` slot is found by the walks from the guess, where the mean step is a `timedelta`. -/
theorem nextSlot_interval (a : Anchored cadence userId config.window) (hmode : cadence.mode = .interval)
    (now : Moment) : nextSlot cadence userId now config =
      if TIMEDELTA_DAYS * DAY ≤ meanStep a.months a.days then .error .overflowError
      else walkFrom a now (guessOf a now) := by
  rw [nextSlot, hmode]
  dsimp only
  split
  · rename_i hmean
    have hlength : ¬((a.days : Int) + a.months = 0) := by
      have := a.length_pos
      omega
    have hsign : ¬((a.days : Int) < 0 ∨ (a.months : Int) < 0) := by omega
    simp only [anchored, a.months_eq, a.days_eq, a.anchor_eq, hlength, hsign, if_false, a.utc,
      Int.toNat_natCast, bind, Except.bind, hmean, if_true]
  · rename_i hmean
    rw [anchored_eq a (not_le.mp hmean)]
    rfl

end Interval

/-! ## MIN cadences -/

section Min

variable {cadence : Cadence} {userId : UserId} {config : SchedulerConfig}

/-- A `MIN` slot is the first after `now` exactly where the seconds of `now` are not rounded up to a
slot. -/
theorem nextSlot_min_iff (hmode : cadence.mode = .min) (now : Moment) :
    FindsFirst (slotInstants cadence userId config) now (nextSlot cadence userId now config) ↔
      ¬SkipsSlot cadence userId config now ∨ NoneInRange (slotInstants cadence userId config) now := by
  have hstep : (0 : Int) < config.minCadence := by
    have := config.minCadence_pos
    omega
  obtain ⟨hlow, hhigh⟩ := wholeSeconds_bounds now.instant
  have hfloor := Int.lt_ediv_add_one_mul_self
    (wholeSeconds now.instant - offsetSeconds userId config.minCadence) hstep
  have hset : slotInstants cadence userId config = {t | ∃ k : Int,
      t = (k * config.minCadence + offsetSeconds userId config.minCadence) * MICROSECONDS} := by
    rw [slotInstants, hmode]
  have hnext : nextSlot cadence userId now config = every userId now config.minCadence := by
    rw [nextSlot, hmode]
  rw [hset, hnext, every]
  by_cases hskips : SkipsSlot cadence userId config now
  · have hleast := isLeast_rounded hskips.2.1 hhigh hskips.2.2
    rw [findsFirst_iff hleast]
    constructor
    · rintro (⟨s, hs, hat⟩ | hnone)
      · have hcomputed := Moment.ofInstant_ok hs
        simp only [MICROSECONDS] at *
        omega
      · exact Or.inr hnone
    · rintro (hno | hnone)
      · exact absurd hskips hno
      · exact Or.inr hnone
  · have hno : ¬(now.instant < wholeSeconds now.instant * MICROSECONDS ∧
        (wholeSeconds now.instant - offsetSeconds userId config.minCadence) % config.minCadence = 0) :=
      fun h => hskips ⟨hmode, h⟩
    have hleast := isLeast_computed hstep hlow hhigh hno
    refine ⟨fun _ => Or.inl hskips, fun _ => ⟨_, hleast, fun hrange => ?_⟩⟩
    exact Moment.ofInstant_of_range (now.inRange.1.trans hleast.1.2.le) hrange

end Min

/-- When `next_slot` answers the least slot after `now`. The walks of an `INTERVAL` cadence end from
every index, and end on it where the slot at that index is before year 10000. -/
theorem next_slot_least_iff (cadence : Cadence) (userId : UserId) (now : Moment)
    (config : SchedulerConfig) :
    (∀ a : Anchored cadence userId config.window, cadence.mode = .interval →
      (∀ start, walkFrom a now start ≠ .error .endless ∧
        (FindsFirst (slotInstants cadence userId config) now (walkFrom a now start) ↔
          (start = 0 ∨ a.instantOf start < LIMIT) ∨
            NoneInRange (slotInstants cadence userId config) now)) ∧
      nextSlot cadence userId now config ≠ .error .endless ∧
      (FindsFirst (slotInstants cadence userId config) now (nextSlot cadence userId now config) ↔
        ((meanStep a.months a.days < TIMEDELTA_DAYS * DAY ∧
          (guessOf a now = 0 ∨ a.instantOf (guessOf a now) < LIMIT)) ∨
            NoneInRange (slotInstants cadence userId config) now))) ∧
    (cadence.mode = .min →
      (FindsFirst (slotInstants cadence userId config) now (nextSlot cadence userId now config) ↔
        ¬SkipsSlot cadence userId config now ∨ NoneInRange (slotInstants cadence userId config) now)) := by
  refine ⟨fun a hmode => ⟨fun start => ⟨walkFrom_ends a now start, walkFrom_first_iff a hmode now start⟩,
    ?_, ?_⟩, fun hmode => nextSlot_min_iff hmode now⟩
  · rw [nextSlot_interval a hmode]
    split
    · simp
    · exact walkFrom_ends a now _
  · rw [nextSlot_interval a hmode]
    split
    · rename_i hmean
      obtain ⟨m, hm, hbefore⟩ := a.exists_first now
      rw [findsFirst_iff (isLeast_instantOf a hmode hm hbefore)]
      constructor
      · rintro (⟨s, hs, -⟩ | hnone)
        · cases hs
        · exact Or.inr hnone
      · rintro (⟨hlt, -⟩ | hnone)
        · exact absurd hmean (not_le.mpr hlt)
        · exact Or.inr hnone
    · rename_i hmean
      rw [walkFrom_first_iff a hmode now, and_iff_right (not_le.mp hmean)]

/-! ## A cadence on the 31st, and the last microsecond before a slot -/

open Coinpilot.Api (someUser defaultScheduler)

/-- 2026-01-31 12:00:00 UTC. -/
def lastOfJanuary : Moment := ⟨1769860800 * MICROSECONDS, by decide⟩

/-- 2026-02-10 00:00:00 UTC. -/
def february : Moment := ⟨1770681600 * MICROSECONDS, by decide⟩

theorem justBefore_inRange :
    MINIMUM ≤ 32503680889 * MICROSECONDS - 1 ∧ 32503680889 * MICROSECONDS - 1 < LIMIT := by decide

/-- One microsecond before 3000-01-01 00:14:49 UTC. -/
def justBefore : Moment := ⟨32503680889 * MICROSECONDS - 1, justBefore_inRange⟩

/-- A monthly cadence on the 31st, at noon. -/
def onThe31st : Cadence where
  mode := .interval
  intervalMonths := some 1
  anchor := some ⟨lastOfJanuary, 0, utc_underDay⟩

/-- Its fields, checked. -/
def onThe31stChecked : Anchored onThe31st someUser defaultScheduler.window where
  months := 1
  days := 0
  anchor := lastOfJanuary
  moment := ⟨lastOfJanuary, 0, utc_underDay⟩
  months_eq := rfl
  days_eq := rfl
  length_pos := by decide
  anchor_eq := rfl
  utc := rfl

/-- The shortest cadence. -/
def shortest : Cadence where
  mode := .min

/-- On 10 February the next slot of the 31st is found, and so is that of the shortest cadence. -/
theorem next_slot_least_iff_february :
    FindsFirst (slotInstants onThe31st someUser defaultScheduler) february
      (nextSlot onThe31st someUser february defaultScheduler) ∧
    FindsFirst (slotInstants shortest someUser defaultScheduler) february
      (nextSlot shortest someUser february defaultScheduler) := by
  constructor
  · refine ((next_slot_least_iff _ _ _ _).1 onThe31stChecked rfl).2.2.mpr (Or.inl ⟨by decide, Or.inl ?_⟩)
    decide +kernel
  · refine ((next_slot_least_iff _ _ _ _).2 rfl).mpr (Or.inl ?_)
    rintro ⟨-, hlt, -⟩
    exact absurd hlt (by decide +kernel)

/-- One microsecond before a slot in the year 3000, `total_seconds` rounds up to the slot. -/
theorem last_microsecond_skips : ¬∀ (cadence : Cadence) (userId : UserId) (config : SchedulerConfig)
    (now : Moment), cadence.mode = .min → 0 < now.instant →
      FindsFirst (slotInstants cadence userId config) now (nextSlot cadence userId now config) := by
  intro h
  have hfirst := h shortest someUser defaultScheduler justBefore rfl (by decide)
  rcases (nextSlot_min_iff rfl _).mp hfirst with hno | hnone
  · exact hno ⟨rfl, by decide +kernel, by decide +kernel⟩
  · have hslot : 32503680889 * MICROSECONDS ∈ slotInstants shortest someUser defaultScheduler :=
      ⟨36115200, by decide +kernel⟩
    exact absurd (hnone _ hslot (by decide)) (by decide)

end Coinpilot.Core
