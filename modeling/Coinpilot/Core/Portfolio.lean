import Coinpilot.Core.Markets
import Coinpilot.Engine.Valuation

/-!
# What the account holds

The balances of an account, valued and weighted, as one view (`buildView`), and the one way an
amount is written (`plainAmount`).
-/

set_option autoImplicit false

namespace Coinpilot.Core

open Coinpilot.Lib Coinpilot.Exchange Coinpilot.Engine

structure Holding where
  asset : String
  amount : Decimal
  price : Option Decimal
  value : Option Rat
  managed : Bool
  locked : Bool
  targetPct : Option Decimal
  weightPct : Option Rat
  deriving DecidableEq, Repr

structure PortfolioView where
  fiat : String
  cash : Decimal
  cashTargetPct : Rat
  cashWeightPct : Rat
  managedValue : Rat
  holdings : List Holding
  deriving DecidableEq, Repr

/-- The `holdings` column of a snapshot. Its texts are the numbers of the view. -/
structure SnapshotJson where
  cashTargetPct : Rat
  cashWeightPct : Rat
  assets : Dict String Holding
  deriving DecidableEq

def PortfolioView.snapshotJson (v : PortfolioView) : SnapshotJson where
  cashTargetPct := v.cashTargetPct
  cashWeightPct := v.cashWeightPct
  assets := Dict.ofList (v.holdings.map fun holding => (holding.asset, holding))

/-- Managed assets Kraken gave no price for. -/
def PortfolioView.unpriced (v : PortfolioView) : List String :=
  (v.holdings.filter fun h => h.managed ∧ h.price = none).map Holding.asset

/-- Add an amount under a key. -/
def addTo (d : Dict String Decimal) (key : String) (amount : Decimal) : Dict String Decimal :=
  d.set key ((d.getD key .zero).add amount)

/-- The balances that can be traded, by asset, and those that are locked, by label. -/
def splitBalances (balances : Dict String Decimal) (assetNames : Dict String String) :
    Dict String Decimal × Dict String Decimal :=
  balances.entries.foldl (fun (tradable, locked) (key, amount) =>
    let (name, suffix) := splitBalanceKey key assetNames
    if suffix ∈ TRADABLE_SUFFIXES then (addTo tradable name amount, locked)
    else (tradable, addTo locked (name ++ "." ++ suffix) amount)) (Dict.empty, Dict.empty)

/-- The keys in order. -/
def sortedKeys (keys : List String) : List String := keys.insertionSort (· ≤ ·)

/-- The account at one set of prices. A managed asset with no price is shown without a value. -/
def buildView (balances : Dict String Decimal) (assetNames : Dict String String) (fiat : String)
    (targets : Dict String Decimal) (prices : Dict String Decimal) :
    Except UnpricedAsset PortfolioView := do
  let (held, locked) := splitBalances balances assetNames
  let cash := held.getD fiat .zero
  let tradable := held.erase fiat
  let priced := targets.filterMap fun asset pct =>
    if prices.get? asset = none then none else some pct.value
  let valuation ← valuePortfolio (tradable.map fun _ d => d.value) (prices.map fun _ d => d.value)
    priced cash.value
  let managed := (sortedKeys targets.keys).map fun asset =>
    { asset, amount := tradable.getD asset .zero, price := prices.get? asset
      value := valuation.assetValues.get? asset, managed := true, locked := false
      targetPct := targets.get? asset, weightPct := valuation.weights.get? asset : Holding }
  let others := (sortedKeys (tradable.keys.filter (· ∉ targets.keys))).filterMap fun asset =>
    let amount := tradable.getD asset .zero
    if amount.value = 0 then none
    else some { asset, amount, price := prices.get? asset
                value := (prices.get? asset).map fun price => amount.value * price.value
                managed := false, locked := false, targetPct := none, weightPct := none : Holding }
  let lockedUp := (sortedKeys locked.keys).filterMap fun label =>
    let amount := locked.getD label .zero
    if amount.value = 0 then none
    else some { asset := label, amount, price := none, value := none, managed := false
                locked := true, targetPct := none, weightPct := none : Holding }
  return {
    fiat, cash
    cashTargetPct := 100 - (targets.values.map Decimal.value).sum
    cashWeightPct := valuation.cashWeight
    managedValue := valuation.managedValue
    holdings := managed ++ others ++ lockedUp }

/-- One amount, written one way: no padding and no exponent. -/
def plainAmount (value : Decimal) : String := formatDecimal value.normalize

/-- Reading a plain amount gives the number it was written from. -/
theorem parse_plainAmount (d : Decimal) :
    ∃ d', Decimal.parse (plainAmount d) = some d' ∧ d'.value = d.value := by
  obtain ⟨d', hp, hv⟩ := Decimal.parse_fixed d.normalize
  exact ⟨d', hp, by rw [hv, Decimal.value_normalize]⟩

end Coinpilot.Core
