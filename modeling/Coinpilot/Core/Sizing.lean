import Coinpilot.Core.Balances
import Coinpilot.Engine.Funding

/-!
# What a sell takes

A sell of the engine's plan is of what an asset is worth above its target value, so its price is positive
and its volume is the excess over the price, rounded down to the pair's lots (`sellVolume_eq`): the cap at
what is held never binds, and an exit sells all but less than one lot. Planning a sound reading therefore
never raises (`planLegs_total`), and no sell takes an asset below its target (`sells_within_holdings`).
-/

set_option autoImplicit false

namespace Coinpilot.Core

open Coinpilot.Lib Coinpilot.Exchange Coinpilot.Engine

/-- What Kraken and the configuration promise of a reading: no balance, price or target is below zero, and no
asset is configured twice. -/
structure SoundReading (account : Account) (balances prices : Dict String Decimal) : Prop where
  balances : ∀ e ∈ balances.entries, 0 ≤ e.2.value
  prices : ∀ e ∈ prices.entries, 0 ≤ e.2.value
  targets : ∀ t ∈ account.targets, 0 ≤ t.targetPct.value
  distinct : (account.targets.map Target.asset).Nodup

/-- What a plan looks up of a configured asset. -/
structure Found (account : Account) (view : PortfolioView) (asset : String) (target : Target)
    (holding : Holding) (price : Decimal) : Prop where
  targetFound : account.targets.find? (fun t => t.asset = asset) = some target
  holdingFound : (managedHoldings view).get? asset = some holding
  priceFound : holding.price = some price

/-! ## The configured assets -/

theorem entries_targetWeights {configured : List Target} (h : (configured.map Target.asset).Nodup) :
    (targetWeights configured).entries = configured.map fun t => (t.asset, t.targetPct.value) := by
  refine Dict.entries_ofList ?_
  rw [List.map_map]
  exact h

theorem mem_targetWeights {configured : List Target} (h : (configured.map Target.asset).Nodup)
    {asset : String} : asset ∈ (targetWeights configured).keys ↔ asset ∈ configured.map Target.asset := by
  rw [Dict.keys, entries_targetWeights h, List.map_map]
  rfl

/-- A configured asset has one target, whose weight the engine takes. -/
theorem find_target {configured : List Target} (h : (configured.map Target.asset).Nodup) {asset : String}
    (hmem : asset ∈ configured.map Target.asset) :
    ∃ target ∈ configured, configured.find? (fun t => t.asset = asset) = some target ∧
      target.asset = asset ∧ (targetWeights configured).getD asset 0 = target.targetPct.value := by
  cases hfind : configured.find? fun t => t.asset = asset with
  | none =>
    obtain ⟨t, ht, rfl⟩ := List.mem_map.mp hmem
    have hnot := List.find?_eq_none.mp hfind t ht
    simp at hnot
  | some target =>
    have htarget := List.mem_of_find?_eq_some hfind
    have hasset : target.asset = asset := by simpa using List.find?_some hfind
    refine ⟨target, htarget, rfl, hasset, ?_⟩
    have hentry : (asset, target.targetPct.value) ∈ (targetWeights configured).entries := by
      rw [entries_targetWeights h]
      exact List.mem_map.mpr ⟨target, htarget, by rw [hasset]⟩
    rw [Dict.getD, Dict.get?_of_mem hentry]
    rfl

section Reading

variable {account : Account} {balances prices : Dict String Decimal} {names : Dict String String}
  {fiat : String} {view : PortfolioView}

/-- The engine values a sound reading, and at no less than nothing. -/
theorem engineValuation_ok (hreading : SoundReading account balances prices)
    (hview : buildView balances names fiat (configuredTargets account.targets) prices = .ok view)
    (hunpriced : view.unpriced = []) :
    ∃ v, engineValuation account.targets view = .ok v ∧ 0 ≤ v.managedValue ∧
      ∀ asset ∈ account.targets.map Target.asset, ∃ target holding price,
        Found account view asset target holding price ∧ 0 ≤ target.targetPct.value ∧
        0 ≤ holding.amount.value ∧ 0 ≤ price.value ∧
        (targetWeights account.targets).getD asset 0 = target.targetPct.value ∧
        v.assetValues.getD asset 0 = holding.amount.value * price.value := by
  obtain ⟨v, rest, hbuilt, hcash, -, -⟩ := buildView_built hview
  have hv : engineValuation account.targets view = .ok v := by
    rw [engineValuation, targetWeights_eq]
    exact same_valuation hbuilt hunpriced
  obtain ⟨-, hmanaged, hworth⟩ := value_facts hv
  have hfound : ∀ asset ∈ account.targets.map Target.asset, ∃ target holding price,
      Found account view asset target holding price ∧ 0 ≤ target.targetPct.value ∧
      0 ≤ holding.amount.value ∧ 0 ≤ price.value ∧
      (targetWeights account.targets).getD asset 0 = target.targetPct.value ∧
      v.assetValues.getD asset 0 = holding.amount.value * price.value := by
    intro asset hmem
    obtain ⟨target, htarget, hfind, -, hweight⟩ := find_target hreading.distinct hmem
    have hkey : asset ∈ (configuredTargets account.targets).keys := by
      have hweights := (mem_targetWeights hreading.distinct).mpr hmem
      rwa [targetWeights_eq, Dict.keys_map] at hweights
    obtain ⟨price, hprice⟩ := hbuilt.priced hunpriced hkey
    have hholding := hbuilt.get? hkey
    refine ⟨target, _, price, ⟨hfind, hholding, hprice⟩, hreading.targets target htarget, ?_,
      hreading.prices _ (Dict.mem_of_get? hprice), hweight, ?_⟩
    · change 0 ≤ (((splitBalances balances names).1.erase fiat).getD asset .zero).value
      rw [tradable_counted]
      exact counted_nonneg hreading.balances names fiat _
    · rw [hworth asset ((mem_targetWeights hreading.distinct).mpr hmem), worth]
      simp [Dict.getD, Dict.get?_map, Dict.get?_filterMap, hholding, managedHolding, hprice]
  refine ⟨v, hv, ?_, hfound⟩
  rw [hmanaged, managedWorth]
  refine add_nonneg (List.sum_nonneg ?_) ?_
  · intro x hx
    obtain ⟨asset, hkey, rfl⟩ := List.mem_map.mp hx
    obtain ⟨target, holding, price, -, -, hamount, hprice, -, hvalue⟩ :=
      hfound asset ((mem_targetWeights hreading.distinct).mp hkey)
    rw [← hworth asset hkey, hvalue]
    exact mul_nonneg hamount hprice
  · change 0 ≤ view.cash.value
    rw [hcash, cash_counted]
    exact counted_nonneg hreading.balances names fiat _

end Reading

/-! ## The volume of a sell -/

/-- What is sold of an asset is what it is worth above its target value, at a positive price. -/
structure Excess (target : Target) (holding : Holding) (price : Decimal) (wanted amountFiat : Rat) :
    Prop where
  pricePos : 0 < price.value
  held : 0 ≤ holding.amount.value
  wantedNonneg : 0 ≤ wanted
  amountEq : amountFiat = holding.amount.value * price.value - wanted
  pos : 0 < amountFiat
  exit : target.targetPct.value = 0 → wanted = 0

section Volume

variable {target : Target} {holding : Holding} {price : Decimal} {wanted amountFiat : Rat}

theorem Excess.volume_le (h : Excess target holding price wanted amountFiat) :
    amountFiat / price.value ≤ holding.amount.value := by
  rw [div_le_iff₀ h.pricePos, h.amountEq]
  linarith [h.wantedNonneg]

theorem Excess.volume_nonneg (h : Excess target holding price wanted amountFiat) :
    0 ≤ amountFiat / price.value := div_nonneg h.pos.le h.pricePos.le

/-- The volume of a sell is the excess at the price, rounded down: nothing else is ever less. -/
theorem sellVolume_eq (m : PairMeta) (h : Excess target holding price wanted amountFiat) :
    sellVolume m target.targetPct amountFiat holding price =
      .ok (roundVolume m (amountFiat / price.value)) := by
  rw [sellVolume]
  split
  · -- An exit: the excess is all that is held.
    rename_i hexit
    have hall : amountFiat / price.value = holding.amount.value := by
      rw [h.amountEq, h.exit hexit, sub_zero, mul_div_cancel_right₀ _ h.pricePos.ne']
    rw [hall]
  · have hfits : (roundVolume m (amountFiat / price.value)).value ≤
        (roundVolume m holding.amount.value).value :=
      Decimal.quantize_down_mono h.volume_nonneg h.volume_le m.volumeDecimals
    rw [volumeFromFiat, if_neg (not_le.mpr h.pricePos)]
    exact congrArg Except.ok (if_neg (not_lt.mpr hfits))

/-- What a rounded volume leaves is at least the target value. -/
theorem Excess.keeps (h : Excess target holding price wanted amountFiat) (m : PairMeta) :
    wanted ≤ (holding.amount.value - (roundVolume m (amountFiat / price.value)).value) * price.value := by
  have hround : (roundVolume m (amountFiat / price.value)).value ≤ amountFiat / price.value :=
    Decimal.quantize_down_le h.volume_nonneg _
  have hsold := mul_le_mul_of_nonneg_right hround h.pricePos.le
  rw [div_mul_cancel₀ _ h.pricePos.ne'] at hsold
  have hamount := h.amountEq
  rw [sub_mul]
  linarith

end Volume

theorem againstMinimum_fields (account : Account) (leg : Leg) (pair : String) (m : PairMeta)
    (least : Decimal) (volume : Option Decimal) (hv : leg.side = .sell → volume.isSome) :
    (againstMinimum account leg pair m least volume hv).asset = leg.asset ∧
      (againstMinimum account leg pair m least volume hv).side = leg.side ∧
      ((againstMinimum account leg pair m least volume hv).note = none ↔
        least.value ≤ (roundCost m leg.amountFiat).value) ∧
      (againstMinimum account leg pair m least volume hv).minimum = some least ∧
      (againstMinimum account leg pair m least volume hv).volume = volume ∧
      (againstMinimum account leg pair m least volume hv).pairMeta = some m := by
  rw [againstMinimum]
  split
  · rename_i hsmall
    refine ⟨rfl, rfl, ?_, rfl, rfl, rfl⟩
    constructor
    · intro hnote
      cases hnote
    · intro hle
      exact absurd hle (not_le.mpr hsmall)
  · rename_i hlarge
    exact ⟨rfl, rfl, ⟨fun _ => not_lt.mp hlarge, fun _ => rfl⟩, rfl, rfl, rfl⟩

/-! ## The legs of a plan -/

section Plan

variable {account : Account} {balances prices : Dict String Decimal} {names : Dict String String}
  {fiat : String} {view : PortfolioView} {v : Valuation} {plan : List Leg}

/-- Every leg of the engine's plan is of a configured asset. -/
theorem leg_configured (hdistinct : (account.targets.map Target.asset).Nodup)
    (hv : engineValuation account.targets view = .ok v) (hplan : enginePlan account view = .ok plan)
    {leg : Leg} (hleg : leg ∈ plan) : leg.asset ∈ account.targets.map Target.asset := by
  rw [← mem_targetWeights hdistinct]
  cases hsells : account.policy.allowSells with
  | true => exact (leg_moves hsells hv hplan hleg).1.1
  | false =>
    obtain ⟨e, he, hof⟩ := (mem_legs hv hplan).mp hleg
    rw [legOf_asset hof]
    exact (mem_investment (p := ⟨(managedHoldings view).map fun _ h => h.amount.value, view.cash.value⟩)
      hsells hv he).1

/-- A sell of the engine's plan is of the excess over the target value. -/
theorem sell_excess (hvalue : 0 ≤ v.managedValue) (hv : engineValuation account.targets view = .ok v)
    (hplan : enginePlan account view = .ok plan) {leg : Leg} (hleg : leg ∈ plan) (hsell : leg.side = .sell)
    {target : Target} {holding : Holding} {price : Decimal} (htarget : 0 ≤ target.targetPct.value)
    (hheld : 0 ≤ holding.amount.value) (hprice : 0 ≤ price.value)
    (hweight : (targetWeights account.targets).getD leg.asset 0 = target.targetPct.value)
    (hworth : v.assetValues.getD leg.asset 0 = holding.amount.value * price.value) :
    Excess target holding price (v.managedValue * target.targetPct.value / 100) leg.amountFiat := by
  have hsells : account.policy.allowSells = true := by
    by_contra hno
    rw [reconcile_buys (Bool.eq_false_iff.mpr hno) hplan leg hleg] at hsell
    cases hsell
  obtain ⟨⟨hkey, -, -⟩, -, hinflow⟩ := leg_moves hsells hv hplan hleg
  have hpos : 0 < leg.amountFiat := (reconcile_legs hplan).1 leg hleg
  have hout : leg.inflow = -leg.amountFiat := by rw [Leg.inflow, hsell]
  rw [hout, getD_deltas v hkey, gap, hweight, hworth] at hinflow
  have hwanted : 0 ≤ v.managedValue * target.targetPct.value / 100 :=
    div_nonneg (mul_nonneg hvalue htarget) (by norm_num)
  -- What is sold is worth something, so the price is not zero.
  have hnonzero : 0 < price.value := by
    refine lt_of_le_of_ne hprice ?_
    intro hzero
    rw [← hzero, mul_zero] at hinflow
    linarith
  refine ⟨hnonzero, hheld, hwanted, by linarith, hpos, ?_⟩
  intro hexit
  rw [hexit]
  ring

/-- A sized leg and the leg of the engine's plan that it comes from. -/
structure SizedFrom (account : Account) (view : PortfolioView) (v : Valuation) (metas : Dict String PairMeta)
    (leg : Leg) (target : Target) (holding : Holding) (price : Decimal) (p : PlannedLeg) : Prop where
  asset : p.asset = leg.asset
  side : p.side = leg.side
  found : Found account view leg.asset target holding price
  positive : 0 < leg.amountFiat
  excess : leg.side = .sell →
    Excess target holding price (v.managedValue * target.targetPct.value / 100) leg.amountFiat
  pairMeta : p.pairMeta = (metas.get? target.pair).filter PairMeta.tradable
  traded : ∀ m, p.pairMeta = some m → p.minimum = some ((minimumFiat m price).max account.floor) ∧
    (p.note = none ↔ ((minimumFiat m price).max account.floor).value ≤ (roundCost m leg.amountFiat).value) ∧
    (leg.side = .sell → p.volume = some (roundVolume m (leg.amountFiat / price.value)))

/-- Sizing a leg of the engine's plan does not raise, and a sell gets the volume of its excess. -/
theorem sizeLeg_total (hvalue : 0 ≤ v.managedValue) (hv : engineValuation account.targets view = .ok v)
    (hplan : enginePlan account view = .ok plan) (metas : Dict String PairMeta) {leg : Leg}
    (hleg : leg ∈ plan) {target : Target} {holding : Holding} {price : Decimal}
    (hfound : Found account view leg.asset target holding price) (htarget : 0 ≤ target.targetPct.value)
    (hheld : 0 ≤ holding.amount.value) (hprice : 0 ≤ price.value)
    (hweight : (targetWeights account.targets).getD leg.asset 0 = target.targetPct.value)
    (hworth : v.assetValues.getD leg.asset 0 = holding.amount.value * price.value) :
    ∃ p, sizeLeg account metas (managedHoldings view) leg = .ok p ∧
      SizedFrom account view v metas leg target holding price p := by
  have hpos : 0 < leg.amountFiat := (reconcile_legs hplan).1 leg hleg
  have hexcess : leg.side = .sell →
      Excess target holding price (v.managedValue * target.targetPct.value / 100) leg.amountFiat :=
    fun hsell => sell_excess hvalue hv hplan hleg hsell htarget hheld hprice hweight hworth
  rw [sizeLeg, hfound.targetFound]
  cases hmeta : (metas.get? target.pair).filter PairMeta.tradable with
  | none =>
    refine ⟨_, by simp only [required, bind, Except.bind, hmeta]; rfl, rfl, rfl, hfound, hpos, hexcess,
      hmeta.symm, ?_⟩
    intro m hm
    cases hm
  | some m =>
    simp only [required, bind, Except.bind, hmeta, hfound.holdingFound, hfound.priceFound]
    split
    · rename_i hsell
      rw [sellVolume_eq m (hexcess hsell)]
      refine ⟨_, rfl, ?_⟩
      obtain ⟨hasset, hside, hnote, hleast, hvolume, hpair⟩ := againstMinimum_fields account leg target.pair m
        ((minimumFiat m price).max account.floor) (some (roundVolume m (leg.amountFiat / price.value)))
        fun _ => rfl
      refine ⟨hasset, hside, hfound, hpos, hexcess, hpair.trans hmeta.symm, ?_⟩
      intro m' hm'
      obtain rfl : m = m' := Option.some.inj (hpair.symm.trans hm')
      exact ⟨hleast, hnote, fun _ => hvolume⟩
    · rename_i hbuy
      refine ⟨_, rfl, ?_⟩
      obtain ⟨hasset, hside, hnote, hleast, -, hpair⟩ := againstMinimum_fields account leg target.pair m
        ((minimumFiat m price).max account.floor) none fun hsell => by rw [hbuy] at hsell; cases hsell
      refine ⟨hasset, hside, hfound, hpos, hexcess, hpair.trans hmeta.symm, ?_⟩
      intro m' hm'
      obtain rfl : m = m' := Option.some.inj (hpair.symm.trans hm')
      refine ⟨hleast, hnote, ?_⟩
      intro hsell
      rw [hbuy] at hsell
      cases hsell

/-- Legs that can each be sized can be sized together. -/
theorem sizeLegs_total {metas : Dict String PairMeta} {managed : Dict String Holding} {legs : List Leg}
    (h : ∀ leg ∈ legs, ∃ p, sizeLeg account metas managed leg = .ok p) :
    ∃ ps, sizeLegs account metas managed legs = .ok ps := by
  induction legs with
  | nil => exact ⟨[], rfl⟩
  | cons leg legs ih =>
    obtain ⟨p, hp⟩ := h leg List.mem_cons_self
    obtain ⟨ps, hps⟩ := ih fun x hx => h x (List.mem_cons_of_mem _ hx)
    refine ⟨p :: ps, ?_⟩
    rw [sizeLegs, hp, hps]
    rfl

/-- Each leg of the engine's plan is sized. -/
theorem mem_of_sizeLegs {metas : Dict String PairMeta} {managed : Dict String Holding} {legs : List Leg}
    {ps : List PlannedLeg} (h : sizeLegs account metas managed legs = .ok ps) :
    ∀ leg ∈ legs, ∃ p ∈ ps, sizeLeg account metas managed leg = .ok p := by
  have hall := sizeLegs_ok h
  clear h
  induction hall with
  | nil => simp
  | cons hp _ ih =>
    intro leg hmem
    rcases List.mem_cons.mp hmem with rfl | hmem
    · exact ⟨_, List.mem_cons_self, hp⟩
    · obtain ⟨p, hin, hok⟩ := ih leg hmem
      exact ⟨p, List.mem_cons_of_mem _ hin, hok⟩

/-- Planning a sound reading does not raise: every leg of the engine's plan is sized. -/
theorem planLegs_total (hreading : SoundReading account balances prices)
    (hview : buildView balances names fiat (configuredTargets account.targets) prices = .ok view)
    (hunpriced : view.unpriced = []) (metas : Dict String PairMeta) (places : Int) :
    ∃ planned v plan, planLegs account view metas places = .ok planned ∧
      engineValuation account.targets view = .ok v ∧ enginePlan account view = .ok plan ∧
      (∀ p ∈ planned.legs, p.asset ∈ account.targets.map Target.asset ∧
        ∃ leg ∈ plan, ∃ target holding price,
          SizedFrom account view v metas leg target holding price p) ∧
      ∀ leg ∈ plan, ∃ p ∈ planned.legs, ∃ target holding price,
        SizedFrom account view v metas leg target holding price p := by
  obtain ⟨v, hv, hvalue, hfound⟩ := engineValuation_ok hreading hview hunpriced
  obtain ⟨plan, hplan⟩ : ∃ plan, enginePlan account view = .ok plan :=
    ⟨_, reconcile_of_value hv account.policy⟩
  have hsize : ∀ leg ∈ plan, leg.asset ∈ account.targets.map Target.asset ∧ ∃ target holding price p,
      sizeLeg account metas (managedHoldings view) leg = .ok p ∧
        SizedFrom account view v metas leg target holding price p := by
    intro leg hleg
    have hmem := leg_configured hreading.distinct hv hplan hleg
    obtain ⟨target, holding, price, hlooked, htarget, hheld, hprice, hweight, hworth⟩ := hfound _ hmem
    obtain ⟨p, hp, hsized⟩ :=
      sizeLeg_total hvalue hv hplan metas hleg hlooked htarget hheld hprice hweight hworth
    exact ⟨hmem, target, holding, price, p, hp, hsized⟩
  have hone : ∀ leg ∈ plan, ∃ p, sizeLeg account metas (managedHoldings view) leg = .ok p := by
    intro leg hleg
    obtain ⟨-, target, holding, price, p, hp, -⟩ := hsize leg hleg
    exact ⟨p, hp⟩
  obtain ⟨ps, hps⟩ := sizeLegs_total hone
  rw [planLegs]
  split
  · rename_i e he
    rw [hplan] at he
    cases he
  · rename_i plan' hplan'
    obtain rfl := Except.ok.inj (hplan.symm.trans hplan')
    split
    · rename_i e he
      rw [hps] at he
      cases he
    · rename_i legs hlegs
      obtain rfl := Except.ok.inj (hps.symm.trans hlegs)
      refine ⟨_, v, plan, rfl, hv, hplan, ?_, ?_⟩
      · intro p hp
        obtain ⟨leg, hleg, hof⟩ := mem_sizeLegs hps p hp
        obtain ⟨hmem, target, holding, price, p', hp', hsized⟩ := hsize leg hleg
        obtain rfl := Except.ok.inj (hof.symm.trans hp')
        exact ⟨hsized.asset ▸ hmem, leg, hleg, target, holding, price, hsized⟩
      · intro leg hleg
        obtain ⟨p, hp, hof⟩ := mem_of_sizeLegs hps leg hleg
        obtain ⟨-, target, holding, price, p', hp', hsized⟩ := hsize leg hleg
        obtain rfl := Except.ok.inj (hof.symm.trans hp')
        exact ⟨p, hp, target, holding, price, hsized⟩

end Plan

/-! ## What a sell leaves -/

/-- Of a sound reading, the plan has at most one leg for each configured asset and none for any other. The
volume of a sell is on the pair's lots and at most what is held: it is what the engine's amount comes to at
the price, so the cap does not bind and the price is not refused. What is left of an asset with a target is
worth the target at least, and of an asset that is exited it is less than one lot. -/
theorem sells_within_holdings {account : Account} {balances prices : Dict String Decimal}
    (hreading : SoundReading account balances prices) {names : Dict String String} {fiat : String}
    {view : PortfolioView}
    (hview : buildView balances names fiat (configuredTargets account.targets) prices = .ok view)
    (hunpriced : view.unpriced = []) (metas : Dict String PairMeta) (places : Int) :
    ∃ planned v plan, planLegs account view metas places = .ok planned ∧
      engineValuation account.targets view = .ok v ∧ enginePlan account view = .ok plan ∧
      (planned.legs.map PlannedLeg.asset).Nodup ∧
      (∀ p ∈ planned.legs, p.asset ∈ account.targets.map Target.asset) ∧
      ∀ p ∈ planned.legs, p.side = .sell → ∀ m, p.pairMeta = some m →
        ∃ leg ∈ plan, ∃ target holding price volume, leg.asset = p.asset ∧
          Found account view p.asset target holding price ∧ p.volume = some volume ∧
          Decimal.OnGrid m.volumeDecimals volume.value ∧ volume.value ≤ holding.amount.value ∧
          volumeFromFiat m leg.amountFiat price.value = .ok volume ∧
          volume.value ≤ (roundVolume m holding.amount.value).value ∧
          (0 < target.targetPct.value → v.managedValue * target.targetPct.value / 100 ≤
            (holding.amount.value - volume.value) * price.value) ∧
          (target.targetPct.value = 0 →
            holding.amount.value - volume.value < (10 : Rat) ^ (-m.volumeDecimals)) := by
  obtain ⟨planned, v, plan, hplanned, hv, hplan, hlegs, -⟩ :=
    planLegs_total hreading hview hunpriced metas places
  refine ⟨planned, v, plan, hplanned, hv, hplan, planned.distinct, fun p hp => (hlegs p hp).1, ?_⟩
  intro p hp hsell m hm
  obtain ⟨-, leg, hleg, target, holding, price, hsized⟩ := hlegs p hp
  have hside : leg.side = .sell := hsized.side.symm.trans hsell
  have hexcess := hsized.excess hside
  have hvolume := (hsized.traded m hm).2.2 hside
  have hround : (roundVolume m (leg.amountFiat / price.value)).value ≤ leg.amountFiat / price.value :=
    Decimal.quantize_down_le hexcess.volume_nonneg _
  refine ⟨leg, hleg, target, holding, price, _, hsized.asset.symm, hsized.asset ▸ hsized.found, hvolume,
    Decimal.onGrid_quantize _ _ _, hround.trans hexcess.volume_le, ?_, ?_, fun _ => hexcess.keeps m, ?_⟩
  · rw [volumeFromFiat, if_neg (not_le.mpr hexcess.pricePos)]
  · exact Decimal.quantize_down_mono hexcess.volume_nonneg hexcess.volume_le _
  · intro hexit
    -- An exit sells what the holding comes to, so only the rounding is left.
    have hall : leg.amountFiat / price.value = holding.amount.value := by
      rw [hexcess.amountEq, hexcess.exit hexit, sub_zero, mul_div_cancel_right₀ _ hexcess.pricePos.ne']
    rw [hall]
    exact Decimal.sub_quantize_down_lt hexcess.held _

/-- An account that asks for half its value in dogecoin. -/
def halfDoge : Account where
  fiat := "EUR"
  policy := ⟨true, .prorata, 0, 0⟩
  floor := .zero
  targets := [⟨"XDG", "XDGEUR", ⟨50, 0⟩⟩]
  sealed := ⟨[], [], 1⟩

def dogeNames : Dict String String := Dict.ofList [("XXDG", "XDG"), ("ZEUR", "EUR")]

/-- 100 dogecoin at 0.06 and 5 euros. -/
def dogeBalances : Dict String Decimal := Dict.ofList [("XXDG", ⟨100, 0⟩), ("ZEUR", ⟨5, 0⟩)]

def dogePrices : Dict String Decimal := Dict.ofList [("XDG", ⟨6, -2⟩)]

def dogePair : PairMeta where
  pair := "XDGEUR"
  altname := "XDGEUR"
  base := "XXDG"
  quote := "ZEUR"
  priceDecimals := 7
  volumeDecimals := 8
  orderMin := ⟨5, 0⟩
  costMin := ⟨5, -1⟩
  status := "online"
  costDecimals := 5

def dogePairs : Dict String PairMeta := Dict.ofList [("XDGEUR", dogePair)]

/-- 6 of 11 euros are dogecoin. -/
def dogeView : PortfolioView where
  fiat := "EUR"
  cash := ⟨5, 0⟩
  cashTargetPct := 50
  cashWeightPct := 500 / 11
  managedValue := 11
  holdings := [{
    asset := "XDG"
    amount := ⟨100, 0⟩
    price := some ⟨6, -2⟩
    value := some 6
    managed := true
    locked := false
    targetPct := some ⟨50, 0⟩
    weightPct := some (600 / 11) }]

theorem dogeView_built : buildView dogeBalances dogeNames "EUR" (configuredTargets halfDoge.targets) dogePrices =
    .ok dogeView := by decide +kernel

theorem doge_sound : SoundReading halfDoge dogeBalances dogePrices where
  balances := by decide +kernel
  prices := by decide +kernel
  targets := by decide +kernel
  distinct := by decide +kernel

/-- The sell of the 0.50 euros above the target. -/
theorem doge_planned : (planLegs halfDoge dogeView dogePairs 4).toOption.map
    (fun planned => planned.legs.map fun p => ((p.side, p.note), p.volume, p.pairMeta)) =
      some [((.sell, none), some ⟨833333333, -8⟩, some dogePair)] := by decide +kernel

/-- 8.33333333 dogecoin of the 100 are sold, which leaves the target value of 5.50 euros. -/
theorem sells_within_holdings_doge :
    ∃ planned, planLegs halfDoge dogeView dogePairs 4 = .ok planned ∧
      (planned.legs.map PlannedLeg.asset).Nodup ∧
      ∃ p ∈ planned.legs, p.side = .sell ∧ ∃ holding volume,
        (managedHoldings dogeView).get? p.asset = some holding ∧ p.volume = some volume ∧
        Decimal.OnGrid 8 volume.value ∧ volume.value ≤ holding.amount.value := by
  obtain ⟨planned, v, plan, hplanned, -, -, hdistinct, -, hsells⟩ :=
    sells_within_holdings doge_sound dogeView_built (by decide +kernel) dogePairs 4
  have hlegs := doge_planned
  rw [hplanned] at hlegs
  obtain ⟨p, hp, hfields⟩ := List.mem_map.mp (Option.some.inj hlegs ▸ List.mem_cons_self)
  simp only [Prod.mk.injEq] at hfields
  obtain ⟨⟨hside, -⟩, -, hpair⟩ := hfields
  obtain ⟨leg, -, target, holding, price, volume, -, hfound, hvolume, hgrid, hle, -⟩ :=
    hsells p hp hside dogePair hpair
  exact ⟨planned, hplanned, hdistinct, p, hp, hside, holding, volume, hfound.holdingFound, hvolume, hgrid, hle⟩

end Coinpilot.Core
