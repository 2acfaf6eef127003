import Coinpilot.Core.Db.Assets
import Coinpilot.Core.Markets

/-!
# Target weights

`PUT` and `DELETE /assets/{asset}`, with what Kraken's catalog answers them: its asset names and its
pairs, or nothing where Kraken cannot be read.
-/

set_option autoImplicit false

namespace Coinpilot.Api

open Coinpilot.Lib Coinpilot.Lib.Program Coinpilot.Lib.ReadCommitted Coinpilot.Exchange
  Coinpilot.Core Coinpilot.Core.Assets

def KRAKEN_DOWN : String := "kraken could not be reached; nothing was changed"

def HUNDRED : Decimal := ⟨100, 0⟩

/-- `sum(row.target_pct for row in rows)`. -/
def totalPct (rows : List AssetConfig) : Decimal :=
  rows.foldl (fun total row => total.add row.targetPct) Decimal.zero

/-- What `GET /assets` answers as the cash target. -/
def cashTargetPct (rows : List AssetConfig) : Decimal := HUNDRED.sub (totalPct rows)

/-- The body of `PUT /assets/{asset}`: the bounds of the schema. -/
structure AssetIn where
  targetPct : Decimal
  bounded : 0 ≤ targetPct.value ∧ targetPct.value ≤ 100 ∧ Decimal.OnGrid 2 targetPct.value

/-- The code that a spelling names, and the pair that trades it against the fiat. -/
def resolveAsset (asset fiat : String) (assetNames : Option (Dict String String))
    (pairs : Option (Dict String PairMeta)) : Except ApiError (String × PairMeta) :=
  match assetNames with
  | none => .error (.http 503 KRAKEN_DOWN)
  | some names =>
    match shortName asset names with
    | none => .error (.http 422 ("kraken lists no asset called '" ++ asset ++ "'"))
    | some code =>
      if code = fiat then
        .error (.http 422 "the fiat is the cash target; it cannot also be an asset")
      else
        match pairs with
        | none => .error (.http 503 KRAKEN_DOWN)
        | some pairs =>
          match resolvePair code fiat names pairs with
          | none => .error (.http 422 ("kraken has no tradable " ++ code ++ "/" ++ fiat ++ " pair"))
          | some pair => .ok (code, pair)

/-- Why the weights are refused. -/
def weightsProblem (total : Decimal) : String :=
  "the weights would sum to " ++ total.fixed ++ "; the limit is 100"

/-- `PUT /assets/{asset}`. The lock is taken after every call to Kraken: it serialises the sum check
and the write. -/
def putAsset (asset : String) (body : AssetIn) (assetNames : Option (Dict String String))
    (pairs : Option (Dict String PairMeta)) : AssetWork AssetConfig := do
  match ← getSettings with
  | none => throw (.http 409 "choose a fiat with PATCH /api/config first")
  | some settings =>
    let (code, pair) ← fromExcept (resolveAsset asset settings.fiat assetNames pairs)
    let _ ← lockSettings
    let others := totalPct ((← listAssets).filter fun row => row.asset ≠ code)
    let total := others.add body.targetPct
    if HUNDRED.value < total.value then throw (.http 422 (weightsProblem total))
    else upsertAsset code pair.pair body.targetPct

/-- The code that `DELETE` means. With Kraken unreachable, the stored short name still works. -/
def deletedCode (asset : String) (assetNames : Option (Dict String String)) : String :=
  match assetNames.bind (shortName asset) with
  | none => upper (strip asset)
  | some code => if code = "" then upper (strip asset) else code

/-- `DELETE /assets/{asset}`. It takes no lock of the settings. -/
def deleteAsset (asset : String) (assetNames : Option (Dict String String)) : AssetWork Unit := do
  if ← Assets.deleteAsset (deletedCode asset assetNames) then pure ()
  else throw (.http 404 "that asset has no weight")

end Coinpilot.Api
