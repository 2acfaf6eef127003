import Mathlib.Tactic.Common
import Mathlib.Tactic.IntervalCases
import Mathlib.Order.Nat

/-!
# The proleptic Gregorian calendar

Days are counted from 1 January of year 1, which is day 1 (`Date.ordinal`), and every day number is
the number of one date (`ordinal_ofOrdinal`). Months are counted through the years
(`firstOfMonth`): a month later is at least 28 days later, and any number of months stays within
six days of its mean length, 146097 days for 4800 months (`firstOfMonth_le`).
-/

set_option autoImplicit false

namespace Coinpilot.Lib.Calendar

/-! ## Years and months -/

def isLeap (year : Nat) : Bool := year % 4 == 0 && (year % 100 != 0 || year % 400 == 0)

/-- The days of the years before `year`. -/
def daysBeforeYear (year : Nat) : Nat :=
  (year - 1) * 365 + (year - 1) / 4 - (year - 1) / 100 + (year - 1) / 400

/-- The days of a month, counted from 1. -/
def daysInMonth (year month : Nat) : Nat :=
  match month with
  | 2 => if isLeap year then 29 else 28
  | 4 | 6 | 9 | 11 => 30
  | _ => 31

/-- The days of the months of `year` before `month`. -/
def daysBeforeMonth (year : Nat) : Nat → Nat
  | 0 => 0
  | 1 => 0
  | month + 1 => daysBeforeMonth year month + daysInMonth year month

theorem isLeap_iff (year : Nat) :
    isLeap year = true ↔ year % 4 = 0 ∧ (year % 100 ≠ 0 ∨ year % 400 = 0) := by
  simp [isLeap]

theorem daysInMonth_bounds (year month : Nat) :
    28 ≤ daysInMonth year month ∧ daysInMonth year month ≤ 31 := by
  unfold daysInMonth
  split
  · split <;> omega
  · omega
  · omega
  · omega
  · omega
  · omega

theorem daysBeforeMonth_succ (year : Nat) {month : Nat} (h : 0 < month) :
    daysBeforeMonth year (month + 1) = daysBeforeMonth year month + daysInMonth year month := by
  cases month with
  | zero => omega
  | succ month => rfl

/-- Twelve months are a year. -/
theorem daysBeforeMonth_thirteen (year : Nat) :
    daysBeforeMonth year 13 = if isLeap year then 366 else 365 := by
  cases h : isLeap year <;> simp [daysBeforeMonth, daysInMonth, h]

theorem div_pred (n d : Nat) (h : 0 < n) :
    n / d = (n - 1) / d + if n % d = 0 then 1 else 0 := by
  obtain ⟨m, rfl⟩ : ∃ m, n = m + 1 := ⟨n - 1, by omega⟩
  rw [Nat.succ_div]
  simp [Nat.dvd_iff_mod_eq_zero]

theorem daysBeforeYear_succ {year : Nat} (h : 0 < year) :
    daysBeforeYear (year + 1) = daysBeforeYear year + if isLeap year then 366 else 365 := by
  have hleap := isLeap_iff year
  have h₄ := div_pred year 4 h
  have h₁₀₀ := div_pred year 100 h
  have h₄₀₀ := div_pred year 400 h
  have hnest : year % 400 = 0 → year % 100 = 0 := by omega
  have hnest' : year % 100 = 0 → year % 4 = 0 := by omega
  simp only [daysBeforeYear, Nat.add_sub_cancel, h₄, h₁₀₀, h₄₀₀]
  split <;> split <;> split <;> split <;> grind

theorem daysBeforeYear_mono {y z : Nat} (hy : 0 < y) (h : y ≤ z) :
    daysBeforeYear y ≤ daysBeforeYear z := by
  induction z, h using Nat.le_induction with
  | base => exact le_refl _
  | succ z hz ih =>
    rw [daysBeforeYear_succ (by omega)]
    omega

/-! ## Dates -/

structure Date where
  year : Nat
  month : Nat
  day : Nat
  year_pos : 1 ≤ year
  month_mem : 1 ≤ month ∧ month ≤ 12
  day_mem : 1 ≤ day ∧ day ≤ daysInMonth year month

/-- The number of a day, counted from 1 January of year 1. -/
def Date.ordinal (d : Date) : Nat := daysBeforeYear d.year + daysBeforeMonth d.year d.month + d.day

/-- The year that holds day `n`, by its mean length and one correction. -/
def yearOf (n : Nat) : Nat :=
  let guess := (n - 1) * 400 / 146097 + 1
  if daysBeforeYear (guess + 1) < n then guess + 1
  else if daysBeforeYear guess < n then guess
  else guess - 1

theorem yearOf_spec {n : Nat} (h : 1 ≤ n) :
    1 ≤ yearOf n ∧ daysBeforeYear (yearOf n) < n ∧ n ≤ daysBeforeYear (yearOf n + 1) := by
  unfold yearOf
  dsimp only
  split
  · rename_i hlt
    unfold daysBeforeYear at *
    omega
  · split
    · rename_i hlt
      unfold daysBeforeYear at *
      omega
    · rename_i hge
      unfold daysBeforeYear at *
      omega

/-- The last month up to `month` that starts before day `r` of the year. -/
def monthOf (year r : Nat) : Nat → Nat
  | 0 => 1
  | month + 1 => if daysBeforeMonth year (month + 1) < r then month + 1 else monthOf year r month

theorem monthOf_spec {year r : Nat} (hr : 1 ≤ r) (month : Nat) (hm : 1 ≤ month) :
    1 ≤ monthOf year r month ∧ monthOf year r month ≤ month ∧
      daysBeforeMonth year (monthOf year r month) < r ∧
      (monthOf year r month < month → r ≤ daysBeforeMonth year (monthOf year r month + 1)) := by
  induction month with
  | zero => omega
  | succ month ih =>
    simp only [monthOf]
    split
    · rename_i hlt
      exact ⟨hm, le_refl _, hlt, fun h => absurd h (Nat.lt_irrefl _)⟩
    · rename_i hge
      cases month with
      | zero => exact absurd hr (by simpa [daysBeforeMonth] using hge)
      | succ month =>
        obtain ⟨h₁, h₂, h₃, h₄⟩ := ih (by omega)
        refine ⟨h₁, by omega, h₃, fun _ => ?_⟩
        by_cases hlt : monthOf year r (month + 1) < month + 1
        · exact h₄ hlt
        · have heq : monthOf year r (month + 1) = month + 1 := by omega
          rw [heq]
          omega

/-- What is left of a day of the year after its whole months is a day of the month. -/
theorem day_mem {year r : Nat} (hr : 1 ≤ r) (hle : r ≤ if isLeap year then 366 else 365) :
    (1 ≤ monthOf year r 12 ∧ monthOf year r 12 ≤ 12) ∧
      1 ≤ r - daysBeforeMonth year (monthOf year r 12) ∧
      r - daysBeforeMonth year (monthOf year r 12) ≤ daysInMonth year (monthOf year r 12) := by
  obtain ⟨h₁, h₂, h₃, h₄⟩ := @monthOf_spec year r hr 12 (by omega)
  generalize monthOf year r 12 = month at *
  have hnext : r ≤ daysBeforeMonth year (month + 1) := by
    by_cases hm : month < 12
    · exact h₄ hm
    · have heq : month = 12 := by omega
      rw [heq, daysBeforeMonth_thirteen]
      exact hle
  rw [daysBeforeMonth_succ year h₁] at hnext
  omega

/-- The day of the year that holds day `n`. -/
def dayOfYear (n : Nat) : Nat := n - daysBeforeYear (yearOf n)

theorem dayOfYear_bounds {n : Nat} (h : 1 ≤ n) :
    1 ≤ dayOfYear n ∧ dayOfYear n ≤ if isLeap (yearOf n) then 366 else 365 := by
  obtain ⟨hy, hlt, hle⟩ := yearOf_spec h
  rw [daysBeforeYear_succ hy] at hle
  unfold dayOfYear
  omega

/-- The date of a day number. -/
def ofOrdinal (n : Nat) (h : 1 ≤ n) : Date :=
  let month := monthOf (yearOf n) (dayOfYear n) 12
  { year := yearOf n
    month
    day := dayOfYear n - daysBeforeMonth (yearOf n) month
    year_pos := (yearOf_spec h).1
    month_mem := (day_mem (dayOfYear_bounds h).1 (dayOfYear_bounds h).2).1
    day_mem := (day_mem (dayOfYear_bounds h).1 (dayOfYear_bounds h).2).2 }

/-- Every day number is the number of its date. -/
theorem ordinal_ofOrdinal (n : Nat) (h : 1 ≤ n) : (ofOrdinal n h).ordinal = n := by
  obtain ⟨-, hlt, -⟩ := yearOf_spec h
  obtain ⟨-, hpos, -⟩ := day_mem (dayOfYear_bounds h).1 (dayOfYear_bounds h).2
  have hday : dayOfYear n = n - daysBeforeYear (yearOf n) := rfl
  simp only [Date.ordinal, ofOrdinal]
  omega

example : (ofOrdinal 719163 (by decide)).year = 1970 := by decide

/-! ## Counting months -/

/-- The days before month `i % 12 + 1` of year `i / 12`. -/
def firstOfMonth (i : Nat) : Nat := daysBeforeYear (i / 12) + daysBeforeMonth (i / 12) (i % 12 + 1)

/-- The number of a date's month. -/
def Date.monthIndex (d : Date) : Nat := 12 * d.year + (d.month - 1)

theorem ordinal_eq (d : Date) : d.ordinal = firstOfMonth d.monthIndex + d.day := by
  obtain ⟨hm, hm'⟩ := d.month_mem
  have hdiv : d.monthIndex / 12 = d.year := by
    unfold Date.monthIndex
    omega
  have hmod : d.monthIndex % 12 + 1 = d.month := by
    unfold Date.monthIndex
    omega
  simp only [Date.ordinal, firstOfMonth, hdiv, hmod]

/-- A month starts where the one before it ends. -/
theorem firstOfMonth_succ {i : Nat} (h : 12 ≤ i) :
    firstOfMonth (i + 1) = firstOfMonth i + daysInMonth (i / 12) (i % 12 + 1) := by
  by_cases hlast : i % 12 = 11
  · have hdiv : (i + 1) / 12 = i / 12 + 1 := by omega
    have hmod : (i + 1) % 12 = 0 := by omega
    have hyear := @daysBeforeYear_succ (i / 12) (by omega)
    have hlen := daysBeforeMonth_thirteen (i / 12)
    rw [@daysBeforeMonth_succ (i / 12) 12 (by omega)] at hlen
    have hfirst : daysBeforeMonth (i / 12 + 1) (0 + 1) = 0 := rfl
    have hlast' : i % 12 + 1 = 12 := by omega
    simp only [firstOfMonth, hdiv, hmod, hlast', hyear, hfirst]
    omega
  · have hdiv : (i + 1) / 12 = i / 12 := by omega
    have hmod : (i + 1) % 12 = i % 12 + 1 := by omega
    simp only [firstOfMonth, hdiv, hmod]
    rw [daysBeforeMonth_succ (i / 12) (by omega)]
    omega

theorem firstOfMonth_mono {i j : Nat} (hi : 12 ≤ i) (hij : i ≤ j) :
    firstOfMonth i + 28 * (j - i) ≤ firstOfMonth j := by
  induction j, hij using Nat.le_induction with
  | base => omega
  | succ j hij ih =>
    have hstep := firstOfMonth_succ (i := j) (by omega)
    have hdays := (daysInMonth_bounds (j / 12) (j % 12 + 1)).1
    omega

/-- A later month starts after every day of an earlier one. -/
theorem firstOfMonth_lt {i j : Nat} (hi : 12 ≤ i) (hij : i < j) :
    firstOfMonth i + daysInMonth (i / 12) (i % 12 + 1) ≤ firstOfMonth j := by
  have hnext := firstOfMonth_succ hi
  have hmono := firstOfMonth_mono (i := i + 1) (by omega) hij
  omega

/-- Against its mean, the months of a year before `month` run at most two days short and one day
long. -/
theorem daysBeforeMonth_mean (year : Nat) {m : Nat} (h : m < 12) :
    146097 * m ≤ 4800 * daysBeforeMonth year (m + 1) + 9600 ∧
      4800 * daysBeforeMonth year (m + 1) ≤ 146097 * m + 4800 := by
  cases hl : isLeap year <;> interval_cases m <;> simp [daysBeforeMonth, daysInMonth, hl]

/-- Any number of months is at most six days longer than its mean length. -/
theorem firstOfMonth_le {i j : Nat} (hi : 12 ≤ i) (hij : i ≤ j) :
    4800 * firstOfMonth j ≤ 4800 * firstOfMonth i + 146097 * (j - i) + 4800 * 6 := by
  have hmi := (daysBeforeMonth_mean (i / 12) (m := i % 12) (by omega)).1
  have hmj := (daysBeforeMonth_mean (j / 12) (m := j % 12) (by omega)).2
  simp only [firstOfMonth, daysBeforeYear]
  omega

/-- The day number `months` months after a date, on the last day of a month that is too short. -/
def Date.afterMonths (d : Date) (months : Nat) : Nat :=
  let i := d.monthIndex + months
  firstOfMonth i + min d.day (daysInMonth (i / 12) (i % 12 + 1))

theorem Date.twelve_le_monthIndex (d : Date) : 12 ≤ d.monthIndex := by
  have := d.year_pos
  unfold Date.monthIndex
  omega

theorem Date.afterMonths_zero (d : Date) : d.afterMonths 0 = d.ordinal := by
  obtain ⟨hm, hm'⟩ := d.month_mem
  have hdiv : d.monthIndex / 12 = d.year := by
    unfold Date.monthIndex
    omega
  have hmod : d.monthIndex % 12 + 1 = d.month := by
    unfold Date.monthIndex
    omega
  have hday := d.day_mem.2
  rw [ordinal_eq]
  simp only [Date.afterMonths, Nat.add_zero, hdiv, hmod]
  omega

/-- More months later is a later day. -/
theorem Date.afterMonths_lt (d : Date) {i j : Nat} (h : i < j) :
    d.afterMonths i < d.afterMonths j := by
  have h12 := d.twelve_le_monthIndex
  have hlt := firstOfMonth_lt (i := d.monthIndex + i) (j := d.monthIndex + j) (by omega) (by omega)
  have hday := d.day_mem.1
  have hdays := (daysInMonth_bounds ((d.monthIndex + j) / 12) ((d.monthIndex + j) % 12 + 1)).1
  simp only [Date.afterMonths]
  omega

theorem Date.afterMonths_mono (d : Date) {i j : Nat} (h : i ≤ j) :
    d.afterMonths i ≤ d.afterMonths j := by
  rcases Nat.eq_or_lt_of_le h with rfl | hlt
  · exact le_refl _
  · exact (d.afterMonths_lt hlt).le

/-- The mean length bounds how much later any number of months is, up to 37 days. -/
theorem Date.afterMonths_le (d : Date) (i n : Nat) :
    4800 * d.afterMonths (i + n) ≤ 4800 * d.afterMonths i + 146097 * n + 4800 * 37 := by
  have h12 := d.twelve_le_monthIndex
  have hmean := firstOfMonth_le (i := d.monthIndex + i) (j := d.monthIndex + (i + n)) (by omega)
    (by omega)
  have hlast := (daysInMonth_bounds ((d.monthIndex + (i + n)) / 12)
    ((d.monthIndex + (i + n)) % 12 + 1)).2
  simp only [Date.afterMonths]
  omega

end Coinpilot.Lib.Calendar
