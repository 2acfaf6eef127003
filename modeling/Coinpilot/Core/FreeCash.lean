import Coinpilot.Core.Execution
import Coinpilot.Engine.Allocation
import Coinpilot.Engine.OnTarget

/-!
# The executor's budget is the engine's investable cash

The free cash of a view and the investable cash of the engine come from two valuations, one of the balances
and one of the holdings of the view. When every configured asset has a price they are one number
(`freeCash_eq`), so the buys of an investment never ask for more than the budget and are never shrunk
(`within_investment`).
-/

set_option autoImplicit false

namespace Coinpilot.Core

open Coinpilot.Lib Coinpilot.Exchange Coinpilot.Engine

/-- The weights of an account, as the engine takes them. -/
def targetWeights (configured : List Target) : Dict String Rat :=
  Dict.ofList (configured.map fun t => (t.asset, t.targetPct.value))

/-- The engine's valuation of a view. -/
def engineValuation (configured : List Target) (view : PortfolioView) : Except UnpricedAsset Valuation :=
  let managed := managedHoldings view
  valuePortfolio (managed.map fun _ h => h.amount.value)
    (managed.filterMap fun _ h => h.price.map Decimal.value) (targetWeights configured) view.cash.value

/-- The configured assets of an account, as the view takes them. -/
def configuredTargets (configured : List Target) : Dict String Decimal :=
  Dict.ofList (configured.map fun t => (t.asset, t.targetPct))

theorem targetWeights_eq (configured : List Target) :
    targetWeights configured = (configuredTargets configured).map fun _ => Decimal.value := by
  rw [configuredTargets, Dict.map_ofList, targetWeights, List.map_map]
  rfl

/-- The holding that a view shows of a configured asset. -/
def managedHolding (tradable prices targets : Dict String Decimal) (v : Valuation) (asset : String) :
    Holding where
  asset := asset
  amount := tradable.getD asset .zero
  price := prices.get? asset
  value := v.assetValues.get? asset
  managed := true
  locked := false
  targetPct := targets.get? asset
  weightPct := v.weights.get? asset

/-- How a view was built: its cash, its two sums, and the configured assets before the others. -/
structure Built (targets prices : Dict String Decimal) (view : PortfolioView) (tradable : Dict String Decimal)
    (v : Valuation) (rest : List Holding) : Prop where
  valued : valuePortfolio (tradable.map fun _ => Decimal.value) (prices.map fun _ => Decimal.value)
    (targets.filterMap fun asset pct => if prices.get? asset = none then none else some pct.value)
    view.cash.value = .ok v
  managedValue : view.managedValue = v.managedValue
  cashTargetPct : view.cashTargetPct = 100 - (targets.values.map Decimal.value).sum
  holdings : view.holdings =
    (sortedKeys targets.keys).map (managedHolding tradable prices targets v) ++ rest
  others : ∀ holding ∈ rest, holding.managed = false

theorem buildView_ok {balances : Dict String Decimal} {names : Dict String String} {fiat : String}
    {targets prices : Dict String Decimal} {view : PortfolioView}
    (h : buildView balances names fiat targets prices = .ok view) :
    ∃ tradable v rest, Built targets prices view tradable v rest := by
  unfold buildView at h
  simp only [bind, Except.bind] at h
  split at h
  · cases h
  · rename_i v hv
    obtain rfl := Except.ok.inj h
    refine ⟨_, v, _, hv, rfl, rfl, List.append_assoc _ _ _, ?_⟩
    intro holding hmem
    rcases List.mem_append.mp hmem with hmem | hmem
    · obtain ⟨asset, -, hsome⟩ := List.mem_filterMap.mp hmem
      split at hsome
      · cases hsome
      · rw [← Option.some.inj hsome]
    · obtain ⟨asset, -, hsome⟩ := List.mem_filterMap.mp hmem
      split at hsome
      · cases hsome
      · rw [← Option.some.inj hsome]

section Built

variable {targets prices tradable : Dict String Decimal} {view : PortfolioView} {v : Valuation}
  {rest : List Holding}

theorem mem_sortedKeys {keys : List String} {key : String} : key ∈ sortedKeys keys ↔ key ∈ keys :=
  List.mem_insertionSort _

/-- The managed holdings of a view are those of the configured assets. -/
theorem Built.get? (h : Built targets prices view tradable v rest) {asset : String}
    (hmem : asset ∈ targets.keys) :
    (managedHoldings view).get? asset = some (managedHolding tradable prices targets v asset) := by
  have hothers : rest.filter (fun holding => holding.managed) = [] := by
    refine List.filter_eq_nil_iff.mpr ?_
    intro holding hin
    simp [h.others holding hin]
  have hmanaged : ((sortedKeys targets.keys).map (managedHolding tradable prices targets v)).filter
      (fun holding => holding.managed) = (sortedKeys targets.keys).map (managedHolding tradable prices targets v) := by
    refine List.filter_eq_self.mpr ?_
    intro holding hin
    obtain ⟨asset, -, rfl⟩ := List.mem_map.mp hin
    rfl
  have hnodup : (sortedKeys targets.keys).Nodup :=
    (List.perm_insertionSort (· ≤ ·) targets.keys).nodup_iff.mpr targets.nodup
  unfold managedHoldings
  rw [h.holdings, List.filter_append, hothers, hmanaged, List.append_nil, List.map_map]
  refine Dict.get?_of_mem ?_
  rw [Dict.entries_ofList (by simpa [Function.comp_def, managedHolding] using hnodup)]
  exact List.mem_map.mpr ⟨asset, mem_sortedKeys.mpr hmem, rfl⟩

/-- A view without unpriced assets has a price for every configured asset. -/
theorem Built.priced (h : Built targets prices view tradable v rest) (hpriced : view.unpriced = [])
    {asset : String} (hmem : asset ∈ targets.keys) : ∃ price, prices.get? asset = some price := by
  cases hprice : prices.get? asset with
  | some price => exact ⟨price, rfl⟩
  | none =>
    have hin : managedHolding tradable prices targets v asset ∈
        view.holdings.filter fun h => h.managed ∧ h.price = none := by
      refine List.mem_filter.mpr ⟨?_, by simp [managedHolding, hprice]⟩
      rw [h.holdings]
      exact List.mem_append_left _ (List.mem_map_of_mem (mem_sortedKeys.mpr hmem))
    unfold PortfolioView.unpriced at hpriced
    rw [List.map_eq_nil_iff.mp hpriced] at hin
    cases hin

end Built

/-- With every price there, the free cash of a view is the investable cash of the engine's valuation. -/
theorem freeCash_eq {balances : Dict String Decimal} {names : Dict String String} {fiat : String}
    {configured : List Target} {prices : Dict String Decimal} {view : PortfolioView}
    (h : buildView balances names fiat (configuredTargets configured) prices = .ok view)
    (hpriced : view.unpriced = []) :
    ∃ v, engineValuation configured view = .ok v ∧
      freeCash view = investableCash v (targetWeights configured) := by
  obtain ⟨tradable, v, rest, hbuilt⟩ := buildView_ok h
  have hwkeys : (targetWeights configured).keys = (configuredTargets configured).keys := by
    rw [targetWeights_eq, Dict.keys_map]
  have hprice : ∀ asset ∈ (targetWeights configured).keys, ∃ price, prices.get? asset = some price := by
    intro asset hmem
    exact hbuilt.priced hpriced (hwkeys ▸ hmem)
  have hall : ((configuredTargets configured).filterMap fun asset pct =>
      if prices.get? asset = none then none else some pct.value) = targetWeights configured := by
    rw [targetWeights_eq]
    refine Dict.filterMap_eq_map ?_
    intro asset hmem pct
    obtain ⟨price, hprice⟩ := hbuilt.priced hpriced hmem
    simp [hprice]
  have hget : ∀ asset ∈ (targetWeights configured).keys, (managedHoldings view).get? asset =
      some (managedHolding tradable prices (configuredTargets configured) v asset) := by
    intro asset hmem
    exact hbuilt.get? (hwkeys ▸ hmem)
  -- The two valuations, as sums over the configured assets.
  have hpriced₁ : Priced (prices.map fun _ => Decimal.value) (targetWeights configured) := by
    intro asset hmem
    obtain ⟨price, hprice⟩ := hprice asset hmem
    simp [Dict.get?_map, hprice]
  have hpriced₂ : Priced ((managedHoldings view).filterMap fun _ h => h.price.map Decimal.value)
      (targetWeights configured) := by
    intro asset hmem
    obtain ⟨price, hprice⟩ := hprice asset hmem
    simp [Dict.get?_filterMap, hget asset hmem, managedHolding, hprice]
  obtain ⟨v₁, hv₁, -, hvalue₁, -⟩ := valuePortfolio_ok hpriced₁
    ⟨tradable.map fun _ => Decimal.value, view.cash.value⟩
  obtain ⟨v₂, hv₂, hcash₂, hvalue₂, -⟩ := valuePortfolio_ok hpriced₂
    ⟨(managedHoldings view).map fun _ h => h.amount.value, view.cash.value⟩
  have hv := hbuilt.valued
  rw [hall] at hv
  obtain rfl : v₁ = v := Except.ok.inj (hv₁.symm.trans hv)
  have hworth : ∀ asset ∈ (targetWeights configured).keys,
      worth (prices.map fun _ => Decimal.value) ⟨tradable.map fun _ => Decimal.value, view.cash.value⟩ asset =
      worth ((managedHoldings view).filterMap fun _ h => h.price.map Decimal.value)
        ⟨(managedHoldings view).map fun _ h => h.amount.value, view.cash.value⟩ asset := by
    intro asset hmem
    unfold worth
    simp only [Dict.getD, Dict.get?_map, Dict.get?_filterMap, hget asset hmem, managedHolding, Option.map_some,
      Option.getD_some, Option.bind_some]
    cases tradable.get? asset with
    | none => simp [Decimal.value_zero]
    | some amount => simp
  have hsame : v₁.managedValue = v₂.managedValue := by
    rw [hvalue₁, hvalue₂]
    unfold managedWorth
    rw [List.map_congr_left hworth]
  have hweights : (targetWeights configured).values.sum =
      ((configuredTargets configured).values.map Decimal.value).sum := by
    rw [targetWeights_eq, Dict.values, Dict.entries_map, List.map_map, Dict.values, List.map_map]
    rfl
  refine ⟨v₂, hv₂, ?_⟩
  unfold freeCash investableCash cashTargetPct
  rw [hbuilt.managedValue, hsame, hbuilt.cashTargetPct, hweights, hcash₂]

/-! ## What an investment asks for -/

theorem nonneg_ofList {es : List (String × Rat)} (h : ∀ e ∈ es, 0 ≤ e.2) : Nonneg (Dict.ofList es) := by
  suffices hs : ∀ d, Nonneg d → Nonneg (es.foldl (fun d e => d.set e.1 e.2) d) by
    apply hs
    intro e he
    cases he
  induction es with
  | nil => exact fun d hd => hd
  | cons e es ih =>
    intro d hd
    exact ih (fun x hx => h x (List.mem_cons_of_mem _ hx)) _ (hd.set (h e List.mem_cons_self))

/-- The legs that are sent ask for no more than the engine does. -/
theorem asked_le {account : Account} {metas : Dict String PairMeta} {managed : Dict String Holding}
    {legs : List Leg} {ps : List PlannedLeg} (h : sizeLegs account metas managed legs = .ok ps)
    (hpos : ∀ leg ∈ legs, 0 ≤ leg.amountFiat) : asked ps ≤ (legs.map Leg.amountFiat).sum := by
  have hall := sizeLegs_ok h
  clear h
  induction hall with
  | nil => exact le_rfl
  | @cons leg p legs ps hp _ ih =>
    have hrest := ih fun x hx => hpos x (List.mem_cons_of_mem _ hx)
    have hleg : 0 ≤ leg.amountFiat := hpos leg List.mem_cons_self
    unfold asked at hrest ⊢
    rw [List.filter_cons, List.map_cons, List.sum_cons]
    by_cases hnote : p.note = none
    · have hle := ((sizeLeg_ok hp).2.2 hleg hnote).2
      simp only [hnote, decide_true, if_true, List.map_cons, List.sum_cons]
      linarith
    · simp only [hnote, decide_false, Bool.false_eq_true, if_false]
      linarith

/-- The legs of an investment are its buys, they ask for no more than the engine's investable cash, which is
the budget, and so the executor does not shrink them. -/
theorem within_investment {account : Account} (hsells : account.policy.allowSells = false)
    (hweights : ∀ t ∈ account.targets, 0 ≤ t.targetPct.value) {balances : Dict String Decimal}
    {names : Dict String String} {fiat : String} {prices : Dict String Decimal} {view : PortfolioView}
    (hview : buildView balances names fiat (configuredTargets account.targets) prices = .ok view)
    (hpriced : view.unpriced = []) {metas : Dict String PairMeta} {places : Int} {planned : Planned}
    (h : planLegs account view metas places = .ok planned) :
    (∃ v, engineValuation account.targets view = .ok v ∧
      planned.freeCash = investableCash v (targetWeights account.targets)) ∧
    planned.ofSide .sell = [] ∧ planned.ofSide .buy = planned.legs ∧
    within planned.legs (some planned.freeCash) account.fiat = .ok planned.legs := by
  have hbuys := planLegs_buys hsells h
  obtain ⟨v, hv, hfree⟩ := freeCash_eq hview hpriced
  unfold planLegs at h
  split at h
  · cases h
  · rename_i plan hplan
    split at h
    · cases h
    · rename_i legs hlegs
      obtain rfl := Except.ok.inj h
      have hle : asked legs ≤ freeCash view := by
        refine (asked_le hlegs fun leg hleg => ((reconcile_legs hplan).1 leg hleg).le).trans ?_
        rw [hfree]
        refine sum_reconcile_le hsells (nonneg_ofList ?_) hv hplan
        intro e he
        obtain ⟨t, ht, rfl⟩ := List.mem_map.mp he
        exact hweights t ht
      refine ⟨⟨v, hv, hfree⟩, ?_, ?_, if_pos hle⟩
      · refine List.filter_eq_nil_iff.mpr ?_
        intro leg hleg
        simp [hbuys leg hleg]
      · refine List.filter_eq_self.mpr ?_
        intro leg hleg
        simp [hbuys leg hleg]

end Coinpilot.Core
