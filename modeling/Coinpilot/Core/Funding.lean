import Coinpilot.Core.FreeCash
import Coinpilot.Engine.Funding

/-!
# The buys that the executor places whole

A rebalance may ask for buys that nothing pays for, because the drift filter drops sells and keeps buys
(`unpaid_buy`). Where the free cash and the plan's own sells pay for its buys, the executor sends each buy
as it was planned when the sells raise what the plan sells (`rebalance_funding`).
-/

set_option autoImplicit false

namespace Coinpilot.Core

open Coinpilot.Lib Coinpilot.Exchange Coinpilot.Engine

/-- The buys that are sent ask for no more than the buys of the engine's plan. -/
theorem asked_buys_le {account : Account} {metas : Dict String PairMeta} {managed : Dict String Holding}
    {legs : List Leg} {ps : List PlannedLeg} (h : sizeLegs account metas managed legs = .ok ps)
    (hpos : ∀ leg ∈ legs, 0 ≤ leg.amountFiat) : asked (ps.filter fun p => p.side = .buy) ≤ bought legs := by
  have hall := sizeLegs_ok h
  clear h
  induction hall with
  | nil => exact le_rfl
  | @cons leg p legs ps hp _ ih =>
    have hrest := ih fun x hx => hpos x (List.mem_cons_of_mem _ hx)
    have hleg : 0 ≤ leg.amountFiat := hpos leg List.mem_cons_self
    obtain ⟨-, hside, hamount⟩ := sizeLeg_ok hp
    rw [asked, bought] at hrest ⊢
    cases hs : leg.side with
    | sell => simpa [List.filter_cons, hside, hs] using hrest
    | buy =>
      simp only [List.filter_cons, hside, hs, decide_true, if_true, List.map_cons, List.sum_cons]
      by_cases hnote : p.note = none
      · have hle := (hamount hleg hnote).2
        simp only [hnote, decide_true, if_true, List.map_cons, List.sum_cons]
        linarith
      · simp only [hnote, decide_false, Bool.false_eq_true, if_false]
        linarith

/-- The buys of a plan against a budget that pays for them. -/
theorem within_paid {account : Account} {view : PortfolioView} {metas : Dict String PairMeta} {places : Int}
    {planned : Planned} (h : planLegs account view metas places = .ok planned) {plan : List Leg}
    (hplan : enginePlan account view = .ok plan) {budget : Rat} (hbudget : bought plan ≤ budget)
    (fiat : String) : within (planned.ofSide .buy) (some budget) fiat = .ok (planned.ofSide .buy) := by
  rw [planLegs] at h
  split at h
  · cases h
  · rename_i plan' hplan'
    obtain rfl := Except.ok.inj (hplan.symm.trans hplan')
    split at h
    · cases h
    · rename_i legs hlegs
      obtain rfl := Except.ok.inj h
      have hasked := asked_buys_le hlegs fun leg hleg => ((reconcile_legs hplan).1 leg hleg).le
      exact if_pos (hasked.trans hbudget)

/-- Three targets of 30, two of them past it by 3 and one 6 short of it, and the cash on its target. -/
def thirds : Dict String Rat := Dict.ofList [("ADA", 30), ("ETH", 30), ("XBT", 30)]

def uneven : Dict String Rat := Dict.ofList [("ADA", 33), ("ETH", 33), ("XBT", 24)]

def unitPrices : Dict String Rat := Dict.ofList [("ADA", 1), ("ETH", 1), ("XBT", 1)]

/-- A rebalance of drifts of five points or more. -/
def fivePoints : Policy := ⟨true, .prorata, 5, 0⟩

/-- The buy of the asset that is short is kept and the sells of the others are dropped: nothing pays for
it. -/
theorem unpaid_buy :
    reconcile uneven unitPrices thirds 10 fivePoints = .ok [⟨"XBT", .buy, 6⟩] ∧
      ∃ v, valuePortfolio uneven unitPrices thirds 10 = .ok v ∧ investableCash v thirds = 0 ∧
        sold [⟨"XBT", .buy, 6⟩] = 0 ∧
        ¬bought [⟨"XBT", .buy, 6⟩] ≤ investableCash v thirds + sold [⟨"XBT", .buy, 6⟩] := by
  have hplan : reconcile uneven unitPrices thirds 10 fivePoints = .ok [⟨"XBT", .buy, 6⟩] := by decide +kernel
  have hpriced : Priced unitPrices thirds := by
    rw [Priced]
    decide +kernel
  obtain ⟨v, hv, hcash, hmanaged, -, -⟩ := valuePortfolio_ok hpriced ⟨uneven, 10⟩
  have hfree : investableCash v thirds = 0 := by
    rw [investableCash, hcash, hmanaged]
    decide +kernel
  refine ⟨hplan, v, hv, hfree, by decide +kernel, ?_⟩
  rw [hfree]
  decide +kernel

/-- The buys of a rebalance less its sells are the cash above its target less the gaps of the assets that
the filters leave out. So the buys are paid by the free cash and the plan's own sells where these gaps are
at least what the cash is short of its target, and always where no asset off target is left out. Buys that
are paid are sent as planned when the sells raise what the plan sells. -/
theorem rebalance_funding :
    (∀ (policy : Policy) (holdings prices targets : Dict String Rat) (cash : Rat) (legs : List Leg),
      policy.allowSells = true → reconcile holdings prices targets cash policy = .ok legs →
      ∃ v, valuePortfolio holdings prices targets cash = .ok v ∧
        (∀ asset, asset ∈ leftOut targets legs ↔ asset ∈ targets.keys ∧
          (|(drifts v targets).getD asset 0| < policy.minDriftPct ∨
            |(deltas v targets).getD asset 0| < policy.minOrderFiat ∨
            (deltas v targets).getD asset 0 = 0)) ∧
        bought legs - sold legs = cash - cashTargetValue v targets - gapsLeft v targets legs ∧
        (bought legs ≤ investableCash v targets + sold legs ↔
          min 0 (cash - cashTargetValue v targets) ≤ gapsLeft v targets legs) ∧
        ((∀ asset ∈ leftOut targets legs, (deltas v targets).getD asset 0 = 0) →
          bought legs ≤ investableCash v targets + sold legs)) ∧
    (∀ (account : Account) (balances : Dict String Decimal) (names : Dict String String) (fiat : String)
      (prices : Dict String Decimal) (view : PortfolioView) (metas : Dict String PairMeta) (places : Int)
      (planned : Planned),
      buildView balances names fiat (configuredTargets account.targets) prices = .ok view →
      view.unpriced = [] → planLegs account view metas places = .ok planned →
      ∃ v plan, engineValuation account.targets view = .ok v ∧ enginePlan account view = .ok plan ∧
        planned.freeCash = investableCash v (targetWeights account.targets) ∧
        (bought plan ≤ planned.freeCash + sold plan → ∀ budget, planned.freeCash + sold plan ≤ budget →
          within (planned.ofSide .buy) (some budget) account.fiat = .ok (planned.ofSide .buy))) := by
  constructor
  · intro policy holdings prices targets cash legs hsells h
    obtain ⟨v, hv⟩ : ∃ v, valuePortfolio holdings prices targets cash = .ok v := by
      cases hv : valuePortfolio holdings prices targets cash with
      | ok v => exact ⟨v, rfl⟩
      | error e =>
        rw [reconcile, hv] at h
        cases h
    exact ⟨v, hv, fun asset => mem_leftOut hsells hv h, bought_sub_sold hsells hv h, pays_iff hsells hv h,
      pays_of_complete hsells hv h⟩
  · intro account balances names fiat prices view metas places planned hview hpriced h
    obtain ⟨v, hv, hfree⟩ := freeCash_eq hview hpriced
    have hplanned := h
    rw [planLegs] at hplanned
    split at hplanned
    · cases hplanned
    · rename_i plan hplan
      split at hplanned
      · cases hplanned
      · obtain rfl := Except.ok.inj hplanned
        refine ⟨v, plan, hv, hplan, hfree, ?_⟩
        intro hpaid budget hbudget
        exact within_paid h hplan (hpaid.trans hbudget) account.fiat

/-- The rebalance of `unpaid_buy` leaves gaps of 6 past their targets, and the cash is not short. -/
theorem rebalance_funding_uneven :
    ∃ v, valuePortfolio uneven unitPrices thirds 10 = .ok v ∧
      ¬min 0 (10 - cashTargetValue v thirds) ≤ gapsLeft v thirds [⟨"XBT", .buy, 6⟩] := by
  have hplan : reconcile uneven unitPrices thirds 10 fivePoints = .ok [⟨"XBT", .buy, 6⟩] := by decide +kernel
  have hpriced : Priced unitPrices thirds := by
    rw [Priced]
    decide +kernel
  obtain ⟨w, hw, hcash, hmanaged, -, -⟩ := valuePortfolio_ok hpriced ⟨uneven, 10⟩
  obtain ⟨v, hv, -, -, hpays, -⟩ :=
    rebalance_funding.1 fivePoints uneven unitPrices thirds 10 _ rfl hplan
  obtain rfl : w = v := Except.ok.inj (hw.symm.trans hv)
  have hfree : investableCash w thirds = 0 := by
    rw [investableCash, hcash, hmanaged]
    decide +kernel
  refine ⟨w, hw, ?_⟩
  rw [← hpays, hfree]
  decide +kernel

end Coinpilot.Core
