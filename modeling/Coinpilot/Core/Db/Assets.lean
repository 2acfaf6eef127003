import Coinpilot.Core.Db.Settings
import Mathlib.Data.List.Sort

/-!
# The target weights of a user

The asset rows of one user, and the settings row whose lock serialises the changes that are checked
against the other rows. A session forgets the rows of a list that it has summed: a later `get` of one
of them asks the database again.
-/

set_option autoImplicit false

namespace Coinpilot.Core.Assets

open Coinpilot.Lib Coinpilot.Lib.Program Coinpilot.Lib.ReadCommitted

/-- A user's settings row, and their row of an asset. -/
inductive AssetKey where
  | settings
  | asset (code : String)
  deriving DecidableEq, Repr

inductive AssetRow where
  | settings (row : UserSettings)
  | asset (row : AssetConfig)
  deriving DecidableEq, Repr

/-- The code of one transaction on a user's asset rows. -/
abbrev AssetWork : Type → Type := Proc (Stmt AssetKey AssetRow) Reply Unit ApiError

def settingsAt : Option AssetRow → Option UserSettings
  | some (.settings row) => some row
  | _ => none

def assetAt : Option AssetRow → Option AssetConfig
  | some (.asset row) => some row
  | _ => none

def getSettings : AssetWork (Option UserSettings) := do
  pure (settingsAt ((← select) .settings))

/-- The settings row, locked until the transaction ends. -/
def lockSettings : AssetWork (Option UserSettings) := do
  pure (settingsAt (← lockRow .settings))

/-- The asset rows among those of the user, by asset code. -/
def assetsIn (rows : List (AssetKey × AssetRow)) : List AssetConfig :=
  (rows.filterMap fun row => assetAt (some row.2)).insertionSort fun a b => a.asset ≤ b.asset

def listAssets : AssetWork (List AssetConfig) := do
  pure (assetsIn (← selectAll))

/-- An `INSERT`, an `UPDATE`, or nothing where the row has these values. -/
def upsertAsset (asset pair : String) (targetPct : Decimal) : AssetWork AssetConfig := do
  match assetAt ((← select) (.asset asset)) with
  | none =>
      let row : AssetConfig := { asset, pair, targetPct }
      if ← insertRow (.asset asset) (.asset row) then pure row else throw .integrity
  | some row =>
      let changed := { row with pair, targetPct }
      if row.pair = pair ∧ row.targetPct.value = targetPct.value then pure changed
      else if ← updateRow (.asset asset) fun _ => .asset changed then pure changed
      else throw .staleData

/-- `true` when there was a row to remove. -/
def deleteAsset (asset : String) : AssetWork Bool := do
  match assetAt ((← select) (.asset asset)) with
  | none => pure false
  | some _ =>
      let _ ← deleteRow (.asset asset)
      pure true

end Coinpilot.Core.Assets
