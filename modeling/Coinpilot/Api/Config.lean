import Coinpilot.Core.Db.Settings
import Coinpilot.Core.Markets

/-!
# A user's settings

`PATCH /config`. The first one creates the settings and chooses the fiat, which then never changes.
-/

set_option autoImplicit false

namespace Coinpilot.Api

open Coinpilot.Lib Coinpilot.Lib.Program Coinpilot.Lib.ReadCommitted Coinpilot.Core

/-- The fields of one cadence in a body. A field that the body has may be null, except the mode. -/
structure CadencePatch where
  mode : Option CadenceMode := none
  intervalDays : Option (Option Int) := none
  intervalMonths : Option (Option Int) := none
  cadenceAnchor : Option (Option AwareDatetime) := none
  deriving DecidableEq, Repr

/-- The body of `PATCH /config`. Every field is optional; a null fiat and a null `onboarded` are as
if absent. -/
structure ConfigPatch where
  fiat : Option String := none
  investCashEnabled : Option Bool := none
  cashRebalanceEnabled : Option Bool := none
  autoRebalanceEnabled : Option Bool := none
  paused : Option Bool := none
  minDriftPct : Option Decimal := none
  minOrderFiat : Option Decimal := none
  invest : CadencePatch := {}
  rebalance : CadencePatch := {}
  onboarded : Bool := false
  deriving DecidableEq, Repr

def ConfigPatch.cadence (body : ConfigPatch) : ScheduledOperation → CadencePatch
  | .invest => body.invest
  | .rebalance => body.rebalance

/-- The bounds of the schema on a cadence's lengths. -/
structure CadencePatch.Admitted (body : CadencePatch) : Prop where
  days : ∀ d, body.intervalDays = some (some d) → 0 ≤ d ∧ d ≤ 3650
  months : ∀ m, body.intervalMonths = some (some m) → 0 ≤ m ∧ m ≤ 120

/-- What the schema admits. -/
structure ConfigPatch.Admitted (body : ConfigPatch) : Prop where
  minDriftPct : ∀ d, body.minDriftPct = some d →
    0 ≤ d.value ∧ d.value ≤ 100 ∧ Decimal.OnGrid 1 d.value
  minOrderFiat : ∀ d, body.minOrderFiat = some d →
    0 ≤ d.value ∧ d.value ≤ 9999999999 / 10 ∧ Decimal.OnGrid 1 d.value
  cadence : ∀ op, (body.cadence op).Admitted

/-- The columns of a cadence with the fields that a body has. -/
def CadencePatch.over (body : CadencePatch) (columns : CadenceColumns AwareDatetime) :
    CadenceColumns AwareDatetime where
  mode := body.mode.getD columns.mode
  intervalDays := body.intervalDays.getD columns.intervalDays
  intervalMonths := body.intervalMonths.getD columns.intervalMonths
  cadenceAnchor := body.cadenceAnchor.getD columns.cadenceAnchor

def CadencePatch.isSet (body : CadencePatch) : Bool :=
  body.mode.isSome || body.intervalDays.isSome || body.intervalMonths.isSome ||
    body.cadenceAnchor.isSome

/-- Whether the body has any field besides the fiat and `onboarded`. -/
def ConfigPatch.hasChanges (body : ConfigPatch) : Bool :=
  body.investCashEnabled.isSome || body.cashRebalanceEnabled.isSome ||
    body.autoRebalanceEnabled.isSome || body.paused.isSome || body.minDriftPct.isSome ||
    body.minOrderFiat.isSome || body.invest.isSet || body.rebalance.isSet

/-- Whether the body has a field that an operation's next run is computed from. `paused` too. -/
def ConfigPatch.touches (body : ConfigPatch) : ScheduledOperation → Bool
  | .invest => body.paused.isSome || body.investCashEnabled.isSome || body.invest.isSet
  | .rebalance => body.paused.isSome || body.rebalance.isSet

/-- The settings with the fields that a body has. -/
def ConfigPatch.apply (body : ConfigPatch) (settings : LoadedSettings) : LoadedSettings :=
  { settings with
    investCashEnabled := body.investCashEnabled.getD settings.investCashEnabled
    cashRebalanceEnabled := body.cashRebalanceEnabled.getD settings.cashRebalanceEnabled
    autoRebalanceEnabled := body.autoRebalanceEnabled.getD settings.autoRebalanceEnabled
    paused := body.paused.getD settings.paused
    minDriftPct := body.minDriftPct.getD settings.minDriftPct
    minOrderFiat := body.minOrderFiat.getD settings.minOrderFiat
    invest := body.invest.over settings.invest
    rebalance := body.rebalance.over settings.rebalance }

/-- An INTERVAL cadence needs a length and an anchor. MIN ignores both. -/
def cadenceProblem (op : ScheduledOperation) (merged : CadenceColumns AwareDatetime) :
    Option String :=
  if merged.mode ≠ .interval then none
  else if merged.intervalDays.getD 0 + merged.intervalMonths.getD 0 = 0 then
    some ("an INTERVAL " ++ op.name ++ " cadence needs interval_days or interval_months")
  else if merged.cadenceAnchor = none then
    some ("an INTERVAL " ++ op.name ++ " cadence needs a cadence_anchor")
  else none

def SUPPORTED_FIATS : List String := ["AUD", "CAD", "CHF", "EUR", "GBP", "JPY", "USD"]

/-- The settings that a body changes: the user's, or new ones in the fiat it chooses. -/
def chosenSettings (userId : UserId) (fiat : Option String) :
    Option LoadedSettings → SettingsWork LoadedSettings
  | none =>
      match fiat with
      | none => throw (.http 409 "the first PATCH /api/config must choose a fiat")
      | some fiat =>
          if fiat ∈ SUPPORTED_FIATS then createSettings userId fiat
          else throw (.http 422 ("supported fiats are " ++ ", ".intercalate SUPPORTED_FIATS))
  | some settings =>
      if ∃ chosen ∈ fiat, chosen ≠ settings.fiat then
        throw (.http 422 "the fiat cannot be changed")
      else pure settings

/-- The first problem of the cadences that a body leaves. -/
def patchProblem (body : ConfigPatch) (settings : LoadedSettings) : Option String :=
  [.invest, .rebalance].findSome? fun op =>
    cadenceProblem op ((body.cadence op).over (settings.cadence op))

/-- Whether onboarding ends with this body. A time already set stays. -/
def ConfigPatch.onboards (body : ConfigPatch) (settings : LoadedSettings) : Bool :=
  body.onboarded && settings.onboardedAt.isNone

/-- The second half of `patch_config`: the checks on the merged cadences, and the changes. -/
def changeSettings (config : SchedulerConfig) (now later : Moment) (body : ConfigPatch)
    (created : Bool) (settings : LoadedSettings) : SettingsWork LoadedSettings := do
  match patchProblem body settings with
  | some problem => throw (.http 422 problem)
  | none =>
    let settings ← flushIf body.hasChanges (body.apply settings)
    let moves ← calendarWork
      (rescheduled settings (if created then fun _ => true else body.touches) now config)
    let settings ← flushIf (!moves.isEmpty) (settings.withMoves moves)
    if body.onboards settings then flushIf true { settings with onboardedAt := some later }
    else pure settings

/-- `PATCH /config`, at `now`, and at `later` when it writes down the onboarding. -/
def patchConfig (config : SchedulerConfig) (userId : UserId) (now later : Moment)
    (body : ConfigPatch) : SettingsWork LoadedSettings := do
  let fiat := body.fiat.map fun fiat => upper (strip fiat)
  let locked ← lockSettings userId
  let settings ← chosenSettings userId fiat locked
  changeSettings config now later body locked.isNone settings

end Coinpilot.Api
