import Coinpilot.Lib.Dict
import Mathlib.Algebra.Order.Field.Rat
import Mathlib.Algebra.BigOperators.Group.List.Basic

/-!
# What the managed portfolio is worth

The value objects of the engine, the valuation of a portfolio and how far each asset is from the
weight the user asked for. The arithmetic is exact: amounts are rationals.
-/

set_option autoImplicit false

namespace Coinpilot.Engine

open Coinpilot.Lib

/-- Which way an order goes. -/
inductive Side where
  | buy
  | sell
  deriving DecidableEq, Repr

/-- The text of a side. -/
def Side.value : Side → String
  | .buy => "buy"
  | .sell => "sell"

/-- How available cash is distributed across the managed assets. -/
inductive CashPolicy where
  | prorata
  | reduceDrift
  deriving DecidableEq, Repr

/-- The knobs one reconciliation runs with. -/
structure Policy where
  allowSells : Bool
  cashPolicy : CashPolicy
  minDriftPct : Rat
  minOrderFiat : Rat
  deriving DecidableEq, Repr

/-- One order the plan asks for, in fiat. -/
structure Leg where
  asset : String
  side : Side
  amountFiat : Rat
  deriving DecidableEq, Repr

/-- A managed asset has no price. -/
structure UnpricedAsset where
  asset : String
  deriving DecidableEq, Repr

/-- The managed portfolio at one set of prices. -/
structure Valuation where
  assetValues : Dict String Rat
  cash : Rat
  managedValue : Rat
  weights : Dict String Rat
  cashWeight : Rat

/-- Value only the assets the user configured. The first one without a price raises. -/
def valuePortfolio (holdings prices targets : Dict String Rat) (cash : Rat) :
    Except UnpricedAsset Valuation :=
  match targets.keys.find? fun asset => prices.get? asset = none with
  | some asset => .error ⟨asset⟩
  | none =>
      let assetValues := targets.filterMap fun asset _ =>
        (prices.get? asset).map fun price => holdings.getD asset 0 * price
      let managedValue := assetValues.values.sum + cash
      let weights := assetValues.map fun _ v => if managedValue = 0 then 0 else v / managedValue * 100
      let cashWeight := if managedValue = 0 then 0 else cash / managedValue * 100
      .ok ⟨assetValues, cash, managedValue, weights, cashWeight⟩

/-- Cash is the remainder: whatever the asset weights do not claim. -/
def cashTargetPct (targets : Dict String Rat) : Rat := 100 - targets.values.sum

/-- What each asset would be worth exactly on target. -/
def targetValues (valuation : Valuation) (targets : Dict String Rat) : Dict String Rat :=
  targets.map fun _ pct => valuation.managedValue * pct / 100

/-- Fiat to add (positive) or to remove (negative) to reach the target. -/
def deltas (valuation : Valuation) (targets : Dict String Rat) : Dict String Rat :=
  targets.map fun asset _ =>
    (targetValues valuation targets).getD asset 0 - valuation.assetValues.getD asset 0

/-- Signed percentage points between the real weight and the target weight. -/
def drifts (valuation : Valuation) (targets : Dict String Rat) : Dict String Rat :=
  targets.map fun asset pct => valuation.weights.getD asset 0 - pct

end Coinpilot.Engine
