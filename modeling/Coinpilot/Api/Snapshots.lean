import Coinpilot.Core.Portfolio

/-!
# What the platform answers of a snapshot

`GET /portfolio`: the stored JSON, flattened. Its percentages are texts of two places.
-/

set_option autoImplicit false

namespace Coinpilot.Api

open Coinpilot.Lib Coinpilot.Exchange Coinpilot.Core

/-- `_pct`: to two places, half to even. -/
def pct (value : Rat) : Decimal := Decimal.quantize value 2 .halfEven

def pctText (value : Rat) : String := formatDecimal (pct value)

/-- One holding of the answer. Its amount and its value are the numbers of their texts. -/
structure HoldingOut where
  asset : String
  amount : Decimal
  price : Option Decimal
  value : Option Rat
  managed : Bool
  locked : Bool
  targetPct : Option String
  weightPct : Option String
  deriving DecidableEq, Repr

structure PortfolioOut where
  cash : Decimal
  cashTargetPct : Option String
  cashWeightPct : Option String
  holdings : List HoldingOut
  deriving DecidableEq, Repr

/-- `_holding_json`, under its asset. -/
def holdingOut (asset : String) (holding : Holding) : HoldingOut where
  asset
  amount := holding.amount
  price := holding.price
  value := holding.value
  managed := holding.managed
  locked := holding.locked
  targetPct := holding.targetPct.map fun target => pctText target.value
  weightPct := holding.weightPct.map pctText

/-- `(holding.locked, not holding.managed, holding.asset)`. -/
def HoldingOut.before (a b : HoldingOut) : Prop :=
  a.locked < b.locked ∨ a.locked = b.locked ∧
    (b.managed < a.managed ∨ a.managed = b.managed ∧ a.asset ≤ b.asset)

instance : DecidableRel HoldingOut.before := fun a b =>
  inferInstanceAs (Decidable (a.locked < b.locked ∨ a.locked = b.locked ∧
    (b.managed < a.managed ∨ a.managed = b.managed ∧ a.asset ≤ b.asset)))

/-- JSONB keeps no order of its keys: the order is set here. -/
def out (cash : Decimal) (stored : SnapshotJson) : PortfolioOut where
  cash
  cashTargetPct := some (pctText stored.cashTargetPct)
  cashWeightPct := some (pctText stored.cashWeightPct)
  holdings := (stored.assets.entries.map fun e => holdingOut e.1 e.2).insertionSort HoldingOut.before

end Coinpilot.Api
