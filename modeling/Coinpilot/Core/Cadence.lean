import Coinpilot.Lib.Binary64
import Coinpilot.Lib.Calendar

/-!
# When an operation is next due

Moments are microseconds from `EPOCH`, within the years 1 to 9999 that a `datetime` has. A slot of
a cadence is `epoch + k × interval + offset`, or `anchor + k × (months, days) + offset` with the
months counted from the anchor each time. Arithmetic that leaves the years 1 to 9999 raises.
-/

set_option autoImplicit false

namespace Coinpilot.Core

open Coinpilot.Lib.Calendar Coinpilot.Lib.Binary64

/-! ## Moments -/

/-- The exceptions of the calendar arithmetic. `endless` is a loop that does not stop. -/
inductive CalendarError where
  | overflowError
  | valueError (message : String)
  | endless
  deriving DecidableEq, Repr

def MICROSECONDS : Int := 1000000

/-- One day. -/
def DAY : Int := 86400 * MICROSECONDS

/-- The day number of 1 January 1970. -/
def EPOCH_ORDINAL : Int := 719163

/-- The first moment of year 1. -/
def MINIMUM : Int := (1 - EPOCH_ORDINAL) * DAY

/-- The first moment of year 10000. -/
def LIMIT : Int := (3652060 - EPOCH_ORDINAL) * DAY

/-- A UTC `datetime`. -/
structure Moment where
  instant : Int
  inRange : MINIMUM ≤ instant ∧ instant < LIMIT
  deriving DecidableEq, Repr

/-- The `datetime` at an instant. -/
def Moment.ofInstant (t : Int) : Except CalendarError Moment :=
  if h : MINIMUM ≤ t ∧ t < LIMIT then .ok ⟨t, h⟩ else .error .overflowError

/-- `moment + timedelta`. -/
def Moment.add (moment : Moment) (delta : Int) : Except CalendarError Moment :=
  Moment.ofInstant (moment.instant + delta)

/-- The day number of a moment. -/
def Moment.ordinal (moment : Moment) : Nat := (moment.instant / DAY + EPOCH_ORDINAL).toNat

theorem Moment.one_le_ordinal (moment : Moment) : 1 ≤ moment.ordinal := by
  have h := moment.inRange
  simp only [Moment.ordinal, MINIMUM, DAY, MICROSECONDS, EPOCH_ORDINAL] at *
  omega

def Moment.date (moment : Moment) : Date := ofOrdinal moment.ordinal moment.one_le_ordinal

/-- An aware `datetime`: what its clock shows, and its offset from UTC, less than a day. -/
structure AwareDatetime where
  shown : Moment
  utcoffset : Int
  underDay : -DAY < utcoffset ∧ utcoffset < DAY
  deriving DecidableEq, Repr

theorem utc_underDay : -DAY < 0 ∧ (0 : Int) < DAY := by decide

/-- The instant an aware `datetime` is. -/
def AwareDatetime.instant (moment : AwareDatetime) : Int := moment.shown.instant - moment.utcoffset

/-- `moment.astimezone(UTC)`. -/
def AwareDatetime.astimezone (moment : AwareDatetime) : Except CalendarError Moment :=
  Moment.ofInstant moment.instant

/-! ## The offset of a user -/

/-- The sixteen bytes of a user's id. -/
structure UserId where
  bytes : List UInt8
  sixteen : bytes.length = 16
  deriving DecidableEq, Repr

/-- One bit of the CRC-32 of `zlib`. -/
def crc32Bit (crc : Nat) : Nat :=
  if crc % 2 = 1 then (crc / 2) ^^^ 0xEDB88320 else crc / 2

/-- `zlib.crc32`. -/
def crc32 (bytes : List UInt8) : Nat :=
  (bytes.foldl (fun crc byte => (crc32Bit^[8]) (crc ^^^ byte.toNat)) 0xFFFFFFFF) ^^^ 0xFFFFFFFF

example : crc32 [0x31, 0x32, 0x33, 0x34, 0x35, 0x36, 0x37, 0x38, 0x39] = 0xCBF43926 := by
  decide +kernel

/-- Where in `span` seconds this user's slots fall. -/
def offsetSeconds (userId : UserId) (span : Nat) : Nat := crc32 userId.bytes % span

/-! ## Cadences -/

inductive CadenceMode where
  | min
  | interval
  deriving DecidableEq, Repr

structure Cadence where
  mode : CadenceMode
  intervalDays : Option Int := none
  intervalMonths : Option Int := none
  anchor : Option AwareDatetime := none
  deriving DecidableEq, Repr

/-- The scheduler's settings, all positive: the shortest cadence and the window in whole seconds,
the users of a tick at most, and the failures in a row before the one warning. -/
structure SchedulerConfig where
  minCadence : Nat
  window : Nat
  batch : Nat
  alertStreak : Nat
  minCadence_pos : 0 < minCadence
  window_pos : 0 < window
  batch_pos : 0 < batch
  alertStreak_pos : 0 < alertStreak
  deriving DecidableEq, Repr

/-- `int(delta.total_seconds())`. -/
def wholeSeconds (delta : Int) : Int := truncatedRatio delta 1000000

/-- `epoch + k × interval + offset`: below a day there is no anchor. -/
def every (userId : UserId) (now : Moment) (interval : Nat) : Except CalendarError Moment :=
  let offset : Int := offsetSeconds userId interval
  let elapsed := wholeSeconds now.instant - offset
  Moment.ofInstant (((elapsed / interval + 1) * interval + offset) * MICROSECONDS)

/-- `calendar.monthrange` for the last day, and `moment.replace`. -/
def addMonths (moment : Moment) (months : Nat) : Except CalendarError Moment :=
  let date := moment.date
  let index := date.month - 1 + months
  let year := date.year + index / 12
  let month := index % 12 + 1
  let day := min date.day (daysInMonth year month)
  if year ≤ 9999 then
    Moment.ofInstant
      (((daysBeforeYear year + daysBeforeMonth year month + day : Nat) - EPOCH_ORDINAL) * DAY +
        moment.instant % DAY)
  else .error (.valueError "year is out of range")

/-- The k-th step. Months are counted from the anchor each time, never chained. -/
def occurrence (anchor : Moment) (k months days : Nat) : Except CalendarError Moment := do
  (← addMonths anchor (k * months)).add (k * days * DAY)

/-- A step of a cadence, the user's offset after its anchor. -/
def slotAt (anchor : Moment) (months days : Nat) (shift : Int) (k : Nat) :
    Except CalendarError Moment := do
  (← occurrence anchor k months days).add shift

/-- A `timedelta` has fewer days. -/
def TIMEDELTA_DAYS : Int := 1000000000

/-- The length of a step, with a mean month of 30.436875 days. -/
def meanStep (months days : Nat) : Nat := (days * 86400 + months * 2629746) * 1000000

/-- `while k > 0 and slot(k) > now: k -= 1`. -/
def walkDown (slot : Nat → Except CalendarError Moment) (now : Moment) :
    Nat → Except CalendarError Nat
  | 0 => .ok 0
  | k + 1 => do
    if now.instant < (← slot (k + 1)).instant then walkDown slot now k else .ok (k + 1)

/-- `while slot(k) <= now: k += 1`, at most `fuel` times. -/
def walkUp (slot : Nat → Except CalendarError Moment) (now : Moment) :
    Nat → Nat → Except CalendarError Nat
  | 0, _ => .error .endless
  | fuel + 1, k => do
    if (← slot k).instant ≤ now.instant then walkUp slot now fuel (k + 1) else .ok k

/-- `anchor + k × (months, days) + offset`, the offset inside `window`. -/
def anchored (cadence : Cadence) (userId : UserId) (now : Moment) (window : Nat) :
    Except CalendarError Moment := do
  let days := cadence.intervalDays.getD 0
  let months := cadence.intervalMonths.getD 0
  match cadence.anchor with
  | none => .error (.valueError "an INTERVAL cadence needs a length and an anchor")
  | some moment =>
    if days + months = 0 then
      .error (.valueError "an INTERVAL cadence needs a length and an anchor")
    else if days < 0 ∨ months < 0 then
      .error (.valueError "an INTERVAL cadence cannot have a negative length")
    else do
      let anchor ← moment.astimezone
      let shift := offsetSeconds userId window * MICROSECONDS
      let slot := slotAt anchor months.toNat days.toNat shift
      -- the mean length is itself a `timedelta`
      if TIMEDELTA_DAYS * DAY ≤ meanStep months.toNat days.toNat then .error .overflowError
      else do
        -- a guess from the mean length of a step, then a walk to the exact one
        let guess := truncatedRatio (now.instant - anchor.instant) (meanStep months.toNat days.toNat)
        let k ← walkDown slot now guess.toNat
        let k ← walkUp slot now (((now.instant - anchor.instant) / DAY).toNat + 2) k
        slot k

/-- The first slot strictly after `now`. -/
def nextSlot (cadence : Cadence) (userId : UserId) (now : Moment) (config : SchedulerConfig) :
    Except CalendarError Moment :=
  match cadence.mode with
  | .min => every userId now config.minCadence
  | .interval => anchored cadence userId now config.window

end Coinpilot.Core
