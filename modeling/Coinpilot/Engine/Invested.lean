import Coinpilot.Engine.Divisions
import Coinpilot.Engine.Shortfalls

/-!
# An investment spends the free cash

Both cash policies hand out all there is to spend: in proportion to the targets (`sum_prorata_eq`), or to
the shortfalls until it is used up (`sum_reduceDrift_eq`). So the legs of an investment without a smallest
order come to the free cash, the cash that stays is the target of the cash, and a second investment has
nothing to do (`investment_spends_free_cash`).
-/

set_option autoImplicit false

namespace Coinpilot.Engine

open Coinpilot.Lib

/-- The fiat value of the cash target. -/
def cashTargetValue (v : Valuation) (targets : Dict String Rat) : Rat :=
  v.managedValue * cashTargetPct targets / 100

/-! ## All there is to spend is allocated -/

/-- A split in proportion to weights that are not all zero hands out the whole amount. -/
theorem sum_prorata_eq {amount : Rat} {targets : Dict String Rat} (htargets : Nonneg targets)
    (hamount : 0 < amount) (htotal : 0 < targets.values.sum) :
    (allocateProrata amount targets).values.sum = amount := by
  have hpositive : ¬(amount ≤ 0 ∨ targets.values.sum ≤ 0) := by
    rw [not_or, not_le, not_le]
    exact ⟨hamount, htotal⟩
  have hshares : (targets.filterMap fun _ pct =>
      if 0 < pct then some (amount * pct / targets.values.sum) else none).values.sum =
      amount / targets.values.sum * targets.values.sum := by
    simpa only [Dict.values, Dict.filterMap, div_mul_eq_mul_div] using
      sum_shares (amount / targets.values.sum) htargets
  rw [allocateProrata, if_neg hpositive, hshares, div_mul_cancel₀ _ htotal.ne']

/-- The legs come to the amounts, where none is dropped as too small. -/
theorem sum_legs_eq {policy : Policy} (hmin : policy.minOrderFiat = 0) {es : List (String × Rat)}
    (hpos : ∀ e ∈ es, 0 < e.2) :
    ((es.filterMap fun e => legOf policy e.1 e.2).map Leg.amountFiat).sum = (es.map Prod.snd).sum := by
  induction es with
  | nil => rfl
  | cons e es ih =>
    have he : 0 < e.2 := hpos e List.mem_cons_self
    have hleg : legOf policy e.1 e.2 = some ⟨e.1, .buy, e.2⟩ := legOf_buy he (hmin ▸ he.le)
    rw [List.filterMap_cons, hleg]
    simp only [List.map_cons, List.sum_cons]
    rw [ih fun x hx => hpos x (List.mem_cons_of_mem _ hx)]

section Investment

variable {prices targets : Dict String Rat} {p : Position} {v : Valuation} {policy : Policy}

theorem worth_nonneg (hholdings : Nonneg p.holdings)
    (hprices : ∀ asset ∈ targets.keys, ∃ price, prices.get? asset = some price ∧ 0 < price) {asset : String}
    (hkey : asset ∈ targets.keys) : 0 ≤ worth prices p asset := by
  obtain ⟨price, hprice, hpos⟩ := hprices asset hkey
  have hheld : 0 ≤ p.holdings.getD asset 0 := hholdings.getD asset
  rw [worth]
  refine mul_nonneg hheld ?_
  simpa [Dict.getD, hprice] using hpos.le

/-- Where no target is above zero, all the cash is wanted: there is nothing to spend. -/
theorem investableCash_untargeted (hholdings : Nonneg p.holdings)
    (hprices : ∀ asset ∈ targets.keys, ∃ price, prices.get? asset = some price ∧ 0 < price)
    (hv : valuePortfolio p.holdings prices targets p.cash = .ok v) (htotal : targets.values.sum = 0) :
    investableCash v targets = 0 := by
  obtain ⟨hcash, hmanaged, -⟩ := value_facts hv
  have hworth : 0 ≤ (targets.keys.map (worth prices p)).sum := by
    refine List.sum_nonneg ?_
    intro w hw
    obtain ⟨asset, hkey, rfl⟩ := List.mem_map.mp hw
    exact worth_nonneg hholdings hprices hkey
  have hwanted : v.cash - v.managedValue * cashTargetPct targets / 100 ≤ 0 := by
    rw [cashTargetPct, htotal, hcash, hmanaged, managedWorth]
    linarith
  rw [investableCash_eq, max_eq_left hwanted]

theorem amounts_empty (hsells : policy.allowSells = false) (hnone : investableCash v targets = 0) :
    amounts policy v targets = Dict.empty := by
  have hle : investableCash v targets ≤ 0 := hnone.le
  simp only [amounts, hsells, Bool.false_eq_true, if_false]
  cases policy.cashPolicy with
  | prorata => exact if_pos (Or.inl hle)
  | reduceDrift => exact if_pos hle

/-- The amounts of an investment come to what there is to spend. -/
theorem sum_amounts (hsells : policy.allowSells = false) (htargets : Nonneg targets)
    (hholdings : Nonneg p.holdings)
    (hprices : ∀ asset ∈ targets.keys, ∃ price, prices.get? asset = some price ∧ 0 < price)
    (hv : valuePortfolio p.holdings prices targets p.cash = .ok v) :
    (amounts policy v targets).values.sum = investableCash v targets := by
  have hnonneg : 0 ≤ investableCash v targets := by
    rw [investableCash_eq]
    exact le_max_left _ _
  rcases hnonneg.eq_or_lt with hzero | hspend
  · rw [amounts_empty hsells hzero.symm, ← hzero]
    rfl
  · cases hcash : policy.cashPolicy with
    | prorata =>
      -- There is something to spend, so a target is above zero.
      have htotal : 0 < targets.values.sum := by
        refine lt_of_le_of_ne (List.sum_nonneg ?_) ?_
        · intro pct hpct
          obtain ⟨e, he, rfl⟩ := List.mem_map.mp hpct
          exact htargets e he
        · intro hnone
          exact hspend.ne' (investableCash_untargeted hholdings hprices hv hnone.symm)
      have hshares := sum_prorata_eq htargets hspend htotal
      simpa only [amounts, hsells, hcash, Bool.false_eq_true, if_false] using hshares
    | reduceDrift =>
      have hgranted := (granted_amounts hv hsells hcash).total_add
      rw [add_zero] at hgranted
      exact hgranted

/-- What an investment allocates: shares of positive targets, or shortfalls. -/
theorem mem_investment (hsells : policy.allowSells = false)
    (hv : valuePortfolio p.holdings prices targets p.cash = .ok v) {e : String × Rat}
    (he : e ∈ (amounts policy v targets).entries) :
    e.1 ∈ targets.keys ∧ (0 < targets.getD e.1 0 ∨ 0 < shortfall v targets e.1) := by
  have hdrift := granted_amounts hv hsells
  rw [amounts] at he hdrift
  simp only [hsells, Bool.false_eq_true, if_false] at he hdrift
  cases hcash : policy.cashPolicy with
  | prorata =>
    rw [hcash] at he
    dsimp only at he
    rw [allocateProrata] at he
    split at he
    · cases he
    · obtain ⟨pct, hmem, hkept⟩ := Dict.mem_filterMap.mp he
      split at hkept
      · rename_i hpos
        refine ⟨List.mem_map.mpr ⟨_, hmem, rfl⟩, Or.inl ?_⟩
        simpa [Dict.getD, Dict.get?_of_mem hmem] using hpos
      · cases hkept
  | reduceDrift =>
    rw [hcash] at he hdrift
    have hpositive : ∀ x ∈ shortfallsOf (deltas v targets), 0 < x.2 :=
      fun x hx => (mem_shortfallsOf.mp hx).2
    obtain ⟨d, hd, -, -, -⟩ := (hdrift rfl).first hpositive (shortfallsOf_sorted _) he
    obtain ⟨hkey, hbehind, hpos⟩ := mem_shortfalls.mp hd
    dsimp only at hkey hbehind hpos
    rw [hbehind] at hpos
    exact ⟨hkey, Or.inr hpos⟩

/-- An asset that is bought has a positive target. -/
theorem bought_target (hsells : policy.allowSells = false) (htargets : Nonneg targets)
    (hholdings : Nonneg p.holdings)
    (hprices : ∀ asset ∈ targets.keys, ∃ price, prices.get? asset = some price ∧ 0 < price)
    (hv : valuePortfolio p.holdings prices targets p.cash = .ok v) {e : String × Rat}
    (he : e ∈ (amounts policy v targets).entries) : e.1 ∈ targets.keys ∧ 0 < targets.getD e.1 0 := by
  obtain ⟨hkey, hwanted⟩ := mem_investment hsells hv he
  refine ⟨hkey, lt_of_le_of_ne (htargets.getD _) ?_⟩
  intro hzero
  rcases hwanted with hpos | hbehind
  · exact hpos.ne hzero
  · -- An asset whose target is zero is not behind it.
    rw [shortfall_eq hv hkey, ← hzero] at hbehind
    have hworth := worth_nonneg hholdings hprices hkey
    linarith

theorem cash_applyLegs {legs : List Leg} (hbuys : ∀ leg ∈ legs, leg.side = .buy) (p : Position) :
    (applyLegs prices legs p).cash = p.cash - (legs.map Leg.amountFiat).sum := by
  induction legs generalizing p with
  | nil => simp [applyLegs]
  | cons leg rest ih =>
    have hrest := ih (fun l hl => hbuys l (List.mem_cons_of_mem _ hl)) (applyLeg prices p leg)
    have hinflow : leg.inflow = leg.amountFiat := by rw [Leg.inflow, hbuys leg List.mem_cons_self]
    have hcash : (applyLeg prices p leg).cash = p.cash - leg.amountFiat := by rw [applyLeg, hinflow]
    rw [hcash] at hrest
    rw [List.map_cons, List.sum_cons, ← sub_sub]
    exact hrest

end Investment

/-! ## The free cash -/

/-- An investment with no smallest order is a list of buys of assets with a positive target, which come
to the cash above the cash target. It divides by no zero. Trading every leg at the given prices leaves the
cash target in cash, if there was anything to spend, and another investment of the result has no legs. -/
theorem investment_spends_free_cash {policy : Policy} (hsells : policy.allowSells = false)
    (hmin : policy.minOrderFiat = 0) {prices targets : Dict String Rat} {p : Position}
    (hholdings : Nonneg p.holdings) (htargets : Nonneg targets)
    (hprices : ∀ asset ∈ targets.keys, ∃ price, prices.get? asset = some price ∧ 0 < price) :
    ∃ v legs, valuePortfolio p.holdings prices targets p.cash = .ok v ∧
      reconcile p.holdings prices targets p.cash policy = .ok legs ∧
      Raising.reconcile p.holdings prices targets p.cash policy = .ok legs ∧
      (∀ leg ∈ legs, leg.side = .buy ∧ leg.asset ∈ targets.keys ∧ 0 < targets.getD leg.asset 0) ∧
      (legs.map Leg.amountFiat).sum = max 0 (p.cash - cashTargetValue v targets) ∧
      ∃ q v', q = applyLegs prices legs p ∧
        valuePortfolio q.holdings prices targets q.cash = .ok v' ∧ v'.managedValue = v.managedValue ∧
        (cashTargetValue v targets < p.cash → q.cash = cashTargetValue v targets) ∧
        reconcile q.holdings prices targets q.cash policy = .ok [] := by
  have hpriced : Priced prices targets := by
    intro asset hkey
    obtain ⟨price, hprice, -⟩ := hprices asset hkey
    rw [hprice]
    rfl
  have hnonzero : ∀ asset ∈ targets.keys, prices.getD asset 0 ≠ 0 := by
    intro asset hkey
    obtain ⟨price, hprice, hpos⟩ := hprices asset hkey
    simpa [Dict.getD, hprice] using hpos.ne'
  obtain ⟨v, hv, hcash, -, -, -⟩ := valuePortfolio_ok hpriced p
  have hlegs := reconcile_of_value hv policy
  have hsum : ((((amounts policy v targets).entries.filterMap fun e =>
      legOf policy e.1 e.2).insertionSort legBefore).map Leg.amountFiat).sum = investableCash v targets := by
    rw [((List.perm_insertionSort legBefore _).map Leg.amountFiat).sum_eq,
      sum_legs_eq hmin fun e he => amounts_pos hsells he]
    exact sum_amounts hsells htargets hholdings hprices hv
  generalize ((amounts policy v targets).entries.filterMap fun e =>
    legOf policy e.1 e.2).insertionSort legBefore = legs at hlegs hsum
  have hbuys := reconcile_buys hsells hlegs
  have htargeted : ∀ leg ∈ legs, leg.asset ∈ targets.keys ∧ 0 < targets.getD leg.asset 0 := by
    intro leg hleg
    obtain ⟨e, he, hof⟩ := (mem_legs hv hlegs).mp hleg
    rw [legOf_asset hof]
    exact bought_target hsells htargets hholdings hprices hv he
  have hraising : Raising.reconcile p.holdings prices targets p.cash policy = .ok legs := by
    rw [Raising.reconcile_eq, hlegs]
    rfl
  obtain ⟨v', hv', hcash', hmanaged', -⟩ := bought_value hpriced hnonzero (reconcile_legs hlegs).2
    (fun leg hleg => (htargeted leg hleg).1) hbuys hv
  have hspent : (applyLegs prices legs p).cash = p.cash - investableCash v targets := by
    rw [cash_applyLegs hbuys, hsum]
  rw [investableCash_eq, hcash] at hsum hspent
  -- What the first investment spends, the second finds missing: the cash is at its target or below.
  have hleft : investableCash v' targets = 0 := by
    rw [investableCash_eq, hcash', hspent, hmanaged']
    refine max_eq_left ?_
    have hmax := le_max_right 0 (p.cash - v.managedValue * cashTargetPct targets / 100)
    linarith
  refine ⟨v, legs, hv, hlegs, hraising, ?_, hsum, _, v', rfl, hv', hmanaged', ?_, ?_⟩
  · intro leg hleg
    exact ⟨hbuys leg hleg, htargeted leg hleg⟩
  · intro habove
    rw [cashTargetValue] at habove ⊢
    rw [hspent, max_eq_right (sub_nonneg.mpr habove.le), sub_sub_cancel]
  · rw [reconcile_of_value hv' policy, amounts_empty hsells hleft]
    rfl

def inProportion : Policy := ⟨false, .prorata, 0, 0⟩

/-- The free cash of 100 is split in the proportion of 5 to 3, and nothing is left to invest. -/
theorem investment_spends_free_cash_inProportion :
    reconcile oneBehind.holdings twoPrices halfAndThird oneBehind.cash inProportion =
        .ok [⟨"ETH", .buy, 75 / 2⟩, ⟨"XBT", .buy, 125 / 2⟩] ∧
      ∃ q, q = applyLegs twoPrices [⟨"ETH", .buy, 75 / 2⟩, ⟨"XBT", .buy, 125 / 2⟩] oneBehind ∧
        reconcile q.holdings twoPrices halfAndThird q.cash inProportion = .ok [] := by
  have hholdings : Nonneg oneBehind.holdings := by
    rw [Nonneg]
    decide +kernel
  have htargets : Nonneg halfAndThird := by
    rw [Nonneg]
    decide +kernel
  have hprices : ∀ asset ∈ halfAndThird.keys, ∃ price, twoPrices.get? asset = some price ∧ 0 < price := by
    intro asset hkey
    have hsome : ∀ asset ∈ halfAndThird.keys, ∃ price ∈ twoPrices.get? asset, 0 < price := by decide +kernel
    exact hsome asset hkey
  have hbuys : reconcile oneBehind.holdings twoPrices halfAndThird oneBehind.cash inProportion =
      .ok [⟨"ETH", .buy, 75 / 2⟩, ⟨"XBT", .buy, 125 / 2⟩] := by decide +kernel
  obtain ⟨v, legs, -, hlegs, -, -, -, q, v', rfl, -, -, -, hempty⟩ :=
    investment_spends_free_cash (show inProportion.allowSells = false from rfl) rfl hholdings htargets hprices
  obtain rfl := Except.ok.inj (hbuys.symm.trans hlegs)
  exact ⟨hbuys, _, rfl, hempty⟩

end Coinpilot.Engine
