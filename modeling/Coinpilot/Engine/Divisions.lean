import Coinpilot.Engine.Reconcile

/-!
# The engine divides by no zero

The engine once more, with a `/` that raises on zero as the one of `Decimal` does. Whatever it is given,
it raises for an asset without a price and for nothing else (`Raising.reconcile_eq`): the divisors that
may be zero, the managed value and the sum of the targets, are compared with zero first.
-/

set_option autoImplicit false

namespace Coinpilot.Engine

open Coinpilot.Lib

/-- What stops the engine. -/
inductive EngineError where
  | unpriced (e : UnpricedAsset)
  | divisionByZero
  deriving DecidableEq, Repr

namespace Raising

/-- `a / b` -/
def divide (a b : Rat) : Except EngineError Rat :=
  if b = 0 then .error .divisionByZero else .ok (a / b)

def valuePortfolio (holdings prices targets : Dict String Rat) (cash : Rat) :
    Except EngineError Valuation :=
  match targets.keys.find? fun asset => prices.get? asset = none with
  | some asset => .error (.unpriced ⟨asset⟩)
  | none => do
      let assetValues := targets.filterMap fun asset _ =>
        (prices.get? asset).map fun price => holdings.getD asset 0 * price
      let managedValue := assetValues.values.sum + cash
      if managedValue = 0 then
        .ok ⟨assetValues, cash, managedValue, assetValues.map fun _ _ => 0, 0⟩
      else
        let weights ← assetValues.tryMap fun _ v => do return (← divide v managedValue) * 100
        let cashWeight ← divide cash managedValue
        .ok ⟨assetValues, cash, managedValue, weights, cashWeight * 100⟩

def targetValues (valuation : Valuation) (targets : Dict String Rat) :
    Except EngineError (Dict String Rat) :=
  targets.tryMap fun _ pct => divide (valuation.managedValue * pct) 100

def deltas (valuation : Valuation) (targets : Dict String Rat) : Except EngineError (Dict String Rat) := do
  let wanted ← targetValues valuation targets
  .ok (targets.map fun asset _ => wanted.getD asset 0 - valuation.assetValues.getD asset 0)

def investableCash (valuation : Valuation) (targets : Dict String Rat) : Except EngineError Rat := do
  let wanted ← divide (valuation.managedValue * cashTargetPct targets) 100
  let excess := valuation.cash - wanted
  .ok (if 0 < excess then excess else 0)

def allocateProrata (amount : Rat) (targets : Dict String Rat) : Except EngineError (Dict String Rat) :=
  let total := targets.values.sum
  if amount ≤ 0 ∨ total ≤ 0 then .ok Dict.empty
  else
    (targets.filterMap fun _ pct => if 0 < pct then some pct else none).tryMap fun _ pct =>
      divide (amount * pct) total

def allocateReduceDrift (amount : Rat) (assetDeltas targets : Dict String Rat) :
    Except EngineError (Dict String Rat) :=
  if amount ≤ 0 then .ok Dict.empty
  else do
    let shortfalls := assetDeltas.filterMap fun _ d => if 0 < d then some d else none
    let (allocated, remaining) :=
      spend (shortfalls.entries.insertionSort shortfallBefore) amount Dict.empty
    if 0 < remaining then
      let extras ← allocateProrata remaining targets
      .ok (extras.entries.foldl (fun acc e => acc.set e.1 (acc.getD e.1 0 + e.2)) allocated)
    else .ok allocated

def amounts (policy : Policy) (valuation : Valuation) (targets : Dict String Rat) :
    Except EngineError (Dict String Rat) := do
  let assetDeltas ← deltas valuation targets
  if policy.allowSells then
    let assetDrifts := drifts valuation targets
    .ok (assetDeltas.filterMap fun asset delta =>
      if policy.minDriftPct ≤ |assetDrifts.getD asset 0| then some delta else none)
  else
    let spendable ← investableCash valuation targets
    match policy.cashPolicy with
    | .prorata => allocateProrata spendable targets
    | .reduceDrift => allocateReduceDrift spendable assetDeltas targets

def reconcile (holdings prices targets : Dict String Rat) (cash : Rat) (policy : Policy) :
    Except EngineError (List Leg) := do
  let valuation ← valuePortfolio holdings prices targets cash
  let found ← amounts policy valuation targets
  let legs := found.entries.filterMap fun e => legOf policy e.1 e.2
  return legs.insertionSort legBefore

/-! ## Every division is by something -/

theorem divide_ok (a : Rat) {b : Rat} (h : b ≠ 0) : divide a b = .ok (a / b) := if_neg h

theorem valuePortfolio_eq (holdings prices targets : Dict String Rat) (cash : Rat) :
    valuePortfolio holdings prices targets cash =
      (Engine.valuePortfolio holdings prices targets cash).mapError .unpriced := by
  rw [valuePortfolio, Engine.valuePortfolio]
  cases targets.keys.find? fun asset => prices.get? asset = none with
  | some asset => rfl
  | none =>
    dsimp only
    generalize (targets.filterMap fun asset _ =>
      (prices.get? asset).map fun price => holdings.getD asset 0 * price) = assetValues
    by_cases hzero : assetValues.values.sum + cash = 0
    · simp only [hzero, if_true]
      rfl
    · have hweights : (assetValues.tryMap fun _ v => do
          return (← divide v (assetValues.values.sum + cash)) * 100) =
          .ok (assetValues.map fun _ v => v / (assetValues.values.sum + cash) * 100) := by
        refine Dict.tryMap_ok ?_
        intro e _
        rw [divide_ok e.2 hzero]
        rfl
      simp only [hzero, if_false]
      rw [hweights, divide_ok cash hzero]
      rfl

theorem targetValues_eq (v : Valuation) (targets : Dict String Rat) :
    targetValues v targets = .ok (Engine.targetValues v targets) := by
  refine Dict.tryMap_ok ?_
  intro e _
  exact divide_ok _ (by decide)

theorem deltas_eq (v : Valuation) (targets : Dict String Rat) :
    deltas v targets = .ok (Engine.deltas v targets) := by
  rw [deltas, targetValues_eq]
  rfl

theorem investableCash_eq (v : Valuation) (targets : Dict String Rat) :
    investableCash v targets = .ok (Engine.investableCash v targets) := by
  rw [investableCash, divide_ok _ (by decide)]
  rfl

/-- The shares divide by the sum of the targets, which is positive where a share is made. -/
theorem allocateProrata_eq (amount : Rat) (targets : Dict String Rat) :
    allocateProrata amount targets = .ok (Engine.allocateProrata amount targets) := by
  rw [allocateProrata, Engine.allocateProrata]
  split
  · rfl
  · rename_i hpos
    rw [not_or, not_le, not_le] at hpos
    have hshares : ((targets.filterMap fun _ pct => if 0 < pct then some pct else none).tryMap fun _ pct =>
        divide (amount * pct) targets.values.sum) =
        .ok ((targets.filterMap fun _ pct => if 0 < pct then some pct else none).map fun _ pct =>
          amount * pct / targets.values.sum) := by
      refine Dict.tryMap_ok ?_
      intro e _
      exact divide_ok _ hpos.2.ne'
    rw [hshares]
    refine congrArg Except.ok (Dict.ext_entries ?_)
    simp only [Dict.map, Dict.filterMap, Dict.keepEntries, List.filterMap_filterMap]
    refine List.filterMap_congr ?_
    intro e _
    by_cases hpct : 0 < e.2
    · simp [hpct]
    · simp [hpct]

theorem allocateReduceDrift_eq (amount : Rat) (assetDeltas targets : Dict String Rat) :
    allocateReduceDrift amount assetDeltas targets =
      .ok (Engine.allocateReduceDrift amount assetDeltas targets) := by
  rw [allocateReduceDrift, Engine.allocateReduceDrift]
  split
  · rfl
  · dsimp only
    split
    · rw [allocateProrata_eq]
      rfl
    · rfl

theorem amounts_eq (policy : Policy) (v : Valuation) (targets : Dict String Rat) :
    amounts policy v targets = .ok (Engine.amounts policy v targets) := by
  rw [amounts, deltas_eq, Engine.amounts, investableCash_eq]
  change (if policy.allowSells then _ else _ : Except EngineError (Dict String Rat)) = _
  split
  · rfl
  · cases policy.cashPolicy with
    | prorata => exact allocateProrata_eq _ _
    | reduceDrift => exact allocateReduceDrift_eq _ _ _

/-- The engine raises for an asset without a price, and no division of it is by zero. -/
theorem reconcile_eq (holdings prices targets : Dict String Rat) (cash : Rat) (policy : Policy) :
    reconcile holdings prices targets cash policy =
      (Engine.reconcile holdings prices targets cash policy).mapError .unpriced := by
  rw [reconcile, Engine.reconcile, valuePortfolio_eq]
  cases Engine.valuePortfolio holdings prices targets cash with
  | error e => rfl
  | ok v =>
    change (amounts policy v targets >>= _) = _
    rw [amounts_eq]
    rfl

end Raising

end Coinpilot.Engine
