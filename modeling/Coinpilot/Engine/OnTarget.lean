import Coinpilot.Engine.Reconcile
import Mathlib.Tactic.Ring

/-!
# A rebalance lands on target

What the legs of a rebalance do to a position when each is traded at the given prices (`applyLegs`), and
that this is the fixed point of the engine (`rebalance_on_target`): the managed value stays, each
asset with a leg reaches its target, the others stay where they were, and another rebalance of the result
has nothing to do.
-/

set_option autoImplicit false

namespace Coinpilot.Engine

open Coinpilot.Lib

/-- What is held of each asset, and the cash. -/
structure Position where
  holdings : Dict String Rat
  cash : Rat

/-- The fiat that a leg moves into its asset. -/
def Leg.inflow (leg : Leg) : Rat :=
  match leg.side with
  | .buy => leg.amountFiat
  | .sell => -leg.amountFiat

/-- Trade one leg at the given prices. -/
def applyLeg (prices : Dict String Rat) (p : Position) (leg : Leg) : Position where
  holdings := p.holdings.set leg.asset
    (p.holdings.getD leg.asset 0 + leg.inflow / prices.getD leg.asset 0)
  cash := p.cash - leg.inflow

/-- Trade every leg in order. -/
def applyLegs (prices : Dict String Rat) (legs : List Leg) (p : Position) : Position :=
  legs.foldl (applyLeg prices) p

/-! ## The value of a position -/

/-- What is held of one asset is worth. -/
def worth (prices : Dict String Rat) (p : Position) (asset : String) : Rat :=
  p.holdings.getD asset 0 * prices.getD asset 0

/-- Every configured asset has a price. -/
def Priced (prices targets : Dict String Rat) : Prop := ∀ asset ∈ targets.keys, (prices.get? asset).isSome

/-- What the configured assets and the cash are worth. -/
def managedWorth (prices targets : Dict String Rat) (p : Position) : Rat :=
  (targets.keys.map (worth prices p)).sum + p.cash

theorem valuePortfolio_error {holdings prices targets : Dict String Rat} {cash : Rat}
    (h : ¬Priced prices targets) : ∃ e, valuePortfolio holdings prices targets cash = .error e := by
  unfold valuePortfolio
  cases hfind : targets.keys.find? fun asset => prices.get? asset = none with
  | some asset => exact ⟨⟨asset⟩, rfl⟩
  | none =>
    refine absurd ?_ h
    intro asset hmem
    have hnone := List.find?_eq_none.mp hfind asset hmem
    simpa [Option.isSome_iff_ne_none] using hnone

/-- The valuation of a position whose assets are priced. -/
theorem valuePortfolio_ok {prices targets : Dict String Rat} (h : Priced prices targets) (p : Position) :
    ∃ v, valuePortfolio p.holdings prices targets p.cash = .ok v ∧ v.cash = p.cash ∧
      v.managedValue = managedWorth prices targets p ∧
      (∀ asset ∈ targets.keys, v.assetValues.getD asset 0 = worth prices p asset) ∧
      ∀ asset ∈ targets.keys, v.managedValue ≠ 0 →
        v.weights.getD asset 0 = worth prices p asset / v.managedValue * 100 := by
  have hfind : targets.keys.find? (fun asset => prices.get? asset = none) = none := by
    refine List.find?_eq_none.mpr ?_
    intro asset hmem
    obtain ⟨price, hprice⟩ := Option.isSome_iff_exists.mp (h asset hmem)
    simp [hprice]
  have hvalues : (targets.filterMap fun asset _ =>
      (prices.get? asset).map fun price => p.holdings.getD asset 0 * price) =
      targets.map fun asset _ => worth prices p asset := by
    refine Dict.filterMap_eq_map ?_
    intro asset hmem _
    obtain ⟨price, hprice⟩ := Option.isSome_iff_exists.mp (h asset hmem)
    simp [hprice, worth, Dict.getD]
  have hsum : (targets.map fun asset _ => worth prices p asset).values =
      targets.keys.map (worth prices p) := Dict.values_map targets _ 0
  have hvalue : ∀ asset ∈ targets.keys,
      (targets.map fun asset _ => worth prices p asset).getD asset 0 = worth prices p asset := by
    intro asset hmem
    exact Dict.getD_map _ hmem 0 0
  unfold valuePortfolio
  rw [hfind]
  dsimp only
  rw [hvalues, hsum]
  refine ⟨_, rfl, rfl, rfl, hvalue, ?_⟩
  intro asset hmem hne
  have hkeys : asset ∈ (targets.map fun asset _ => worth prices p asset).keys := by simpa using hmem
  rw [Dict.getD_map _ hkeys 0 0, hvalue asset hmem]
  exact if_neg hne

/-! ## Trading the legs -/

section Trading

variable {prices targets : Dict String Rat}

theorem applyLeg_other (p : Position) {leg : Leg} {asset : String} (h : asset ≠ leg.asset) :
    (applyLeg prices p leg).holdings.get? asset = p.holdings.get? asset := by
  simp [applyLeg, Dict.get?_set, h]

theorem worth_applyLeg_other (p : Position) {leg : Leg} {asset : String} (h : asset ≠ leg.asset) :
    worth prices (applyLeg prices p leg) asset = worth prices p asset := by
  simp [worth, Dict.getD, applyLeg_other p h]

theorem worth_applyLeg_self (p : Position) {leg : Leg} (h : prices.getD leg.asset 0 ≠ 0) :
    worth prices (applyLeg prices p leg) leg.asset = worth prices p leg.asset + leg.inflow := by
  have hheld : (applyLeg prices p leg).holdings.getD leg.asset 0 =
      p.holdings.getD leg.asset 0 + leg.inflow / prices.getD leg.asset 0 := by
    simp [applyLeg, Dict.getD, Dict.get?_set]
  rw [worth, hheld, add_mul, div_mul_cancel₀ _ h]
  rfl

/-- Trading one leg moves as much between cash and its asset. -/
theorem managedWorth_applyLeg (p : Position) {leg : Leg} (hmem : leg.asset ∈ targets.keys)
    (h : prices.getD leg.asset 0 ≠ 0) :
    managedWorth prices targets (applyLeg prices p leg) = managedWorth prices targets p := by
  have hothers : (targets.keys.erase leg.asset).map (worth prices (applyLeg prices p leg)) =
      (targets.keys.erase leg.asset).map (worth prices p) := by
    refine List.map_congr_left ?_
    intro asset hasset
    exact worth_applyLeg_other p (targets.nodup.mem_erase_iff.mp hasset).1
  have hsum := List.sum_map_erase (worth prices (applyLeg prices p leg)) hmem
  have hsum' := List.sum_map_erase (worth prices p) hmem
  rw [hothers, worth_applyLeg_self p h] at hsum
  have hcash : (applyLeg prices p leg).cash = p.cash - leg.inflow := rfl
  unfold managedWorth
  rw [hcash]
  linarith

/-- The legs are of configured assets with a price. -/
def Tradable (prices targets : Dict String Rat) (legs : List Leg) : Prop :=
  ∀ leg ∈ legs, leg.asset ∈ targets.keys ∧ prices.getD leg.asset 0 ≠ 0

theorem applyLegs_other {legs : List Leg} (p : Position) {asset : String}
    (h : ∀ leg ∈ legs, leg.asset ≠ asset) :
    (applyLegs prices legs p).holdings.get? asset = p.holdings.get? asset := by
  induction legs generalizing p with
  | nil => rfl
  | cons leg rest ih =>
    have hrest := ih (applyLeg prices p leg) fun l hl => h l (List.mem_cons_of_mem _ hl)
    exact hrest.trans (applyLeg_other p (h leg List.mem_cons_self).symm)

theorem worth_applyLegs_other {legs : List Leg} (p : Position) {asset : String}
    (h : ∀ leg ∈ legs, leg.asset ≠ asset) :
    worth prices (applyLegs prices legs p) asset = worth prices p asset := by
  simp [worth, Dict.getD, applyLegs_other p h]

/-- Trading legs of distinct assets moves each asset by its own leg. -/
theorem worth_applyLegs {legs : List Leg} (p : Position) (hd : (legs.map Leg.asset).Nodup)
    (ht : Tradable prices targets legs) {leg : Leg} (hleg : leg ∈ legs) :
    worth prices (applyLegs prices legs p) leg.asset = worth prices p leg.asset + leg.inflow := by
  induction legs generalizing p with
  | nil => cases hleg
  | cons l rest ih =>
    obtain ⟨hnew, hd'⟩ := List.nodup_cons.mp hd
    rcases List.mem_cons.mp hleg with rfl | hrest
    · have hothers : ∀ l ∈ rest, l.asset ≠ leg.asset := by
        intro l hl heq
        exact hnew (heq ▸ List.mem_map_of_mem hl)
      have hkept : worth prices (applyLegs prices rest (applyLeg prices p leg)) leg.asset =
          worth prices (applyLeg prices p leg) leg.asset := worth_applyLegs_other _ hothers
      exact hkept.trans (worth_applyLeg_self p (ht leg List.mem_cons_self).2)
    · have hne : leg.asset ≠ l.asset := by
        intro heq
        exact hnew (heq ▸ List.mem_map_of_mem hrest)
      have hmoved := ih (applyLeg prices p l) hd' (fun x hx => ht x (List.mem_cons_of_mem _ hx)) hrest
      rw [worth_applyLeg_other p hne] at hmoved
      exact hmoved

/-- Trading legs at the given prices keeps the managed value. -/
theorem managedWorth_applyLegs {legs : List Leg} (p : Position) (ht : Tradable prices targets legs) :
    managedWorth prices targets (applyLegs prices legs p) = managedWorth prices targets p := by
  induction legs generalizing p with
  | nil => rfl
  | cons leg rest ih =>
    obtain ⟨hmem, hprice⟩ := ht leg List.mem_cons_self
    have hrest := ih (applyLeg prices p leg) fun l hl => ht l (List.mem_cons_of_mem _ hl)
    exact hrest.trans (managedWorth_applyLeg p hmem hprice)

end Trading

/-! ## The legs of a rebalance -/

/-- The fiat that brings one asset to its target. -/
def gap (targets : Dict String Rat) (managedValue value : Rat) (asset : String) : Rat :=
  managedValue * targets.getD asset 0 / 100 - value

/-- A configured asset that has drifted as far as the policy asks, and is not on target. -/
def Moves (policy : Policy) (valuation : Valuation) (targets : Dict String Rat) (asset : String) : Prop :=
  asset ∈ targets.keys ∧ policy.minDriftPct ≤ |(drifts valuation targets).getD asset 0| ∧
    (deltas valuation targets).getD asset 0 ≠ 0

theorem getD_deltas (v : Valuation) {targets : Dict String Rat} {asset : String} (h : asset ∈ targets.keys) :
    (deltas v targets).getD asset 0 = gap targets v.managedValue (v.assetValues.getD asset 0) asset := by
  rw [deltas, Dict.getD_map _ h 0 0, targetValues, Dict.getD_map _ h 0 0, gap]

theorem getD_drifts (v : Valuation) {targets : Dict String Rat} {asset : String} (h : asset ∈ targets.keys) :
    (drifts v targets).getD asset 0 = v.weights.getD asset 0 - targets.getD asset 0 := by
  rw [drifts, Dict.getD_map _ h 0 0]

theorem reconcile_of_value {holdings prices targets : Dict String Rat} {cash : Rat} {v : Valuation}
    (h : valuePortfolio holdings prices targets cash = .ok v) (policy : Policy) :
    reconcile holdings prices targets cash policy =
      .ok (((amounts policy v targets).entries.filterMap fun e => legOf policy e.1 e.2).insertionSort
        legBefore) := by
  unfold reconcile
  rw [h]
  rfl

/-- With no smallest order, an amount has a leg unless it is nothing, and the leg moves the amount. -/
theorem legOf_some {policy : Policy} (h : policy.minOrderFiat = 0) {asset : String} {amount : Rat}
    (hne : amount ≠ 0) : ∃ leg, legOf policy asset amount = some leg ∧ leg.asset = asset ∧
      leg.inflow = amount := by
  have hlarge : ¬(|amount| < policy.minOrderFiat ∨ |amount| = 0) := by
    rw [h, not_or, not_lt]
    exact ⟨abs_nonneg _, fun h0 => hne (abs_eq_zero.mp h0)⟩
  refine ⟨_, if_neg hlarge, rfl, ?_⟩
  by_cases hpos : 0 < amount
  · simp [Leg.inflow, hpos, abs_of_pos hpos]
  · simp [Leg.inflow, hpos, abs_of_nonpos (not_lt.mp hpos)]

theorem legOf_zero (policy : Policy) (asset : String) : legOf policy asset 0 = none :=
  if_pos (Or.inr abs_zero)

/-- The amounts of a rebalance are the gaps of the assets that drifted. -/
theorem mem_amounts {policy : Policy} (h : policy.allowSells = true) {v : Valuation}
    {targets : Dict String Rat} {e : String × Rat} :
    e ∈ (amounts policy v targets).entries ↔ e.1 ∈ targets.keys ∧
      policy.minDriftPct ≤ |(drifts v targets).getD e.1 0| ∧ e.2 = (deltas v targets).getD e.1 0 := by
  have hdelta : ∀ d, (e.1, d) ∈ (deltas v targets).entries ↔
      e.1 ∈ targets.keys ∧ d = (deltas v targets).getD e.1 0 := by
    intro d
    constructor
    · intro hmem
      refine ⟨?_, by simp [Dict.getD, Dict.get?_of_mem hmem]⟩
      have hkey : e.1 ∈ (deltas v targets).keys := List.mem_map.mpr ⟨_, hmem, rfl⟩
      simpa [deltas] using hkey
    · rintro ⟨hkey, rfl⟩
      have hkey' : e.1 ∈ (deltas v targets).keys := by simpa [deltas] using hkey
      obtain ⟨d, hd⟩ := Dict.mem_keys_iff.mp hkey'
      simpa [Dict.getD, hd] using Dict.mem_of_get? hd
  simp only [amounts, h, if_true, Dict.mem_filterMap, hdelta]
  constructor
  · rintro ⟨d, ⟨hkey, hd⟩, hkept⟩
    split at hkept
    · rename_i hdrift
      exact ⟨hkey, hdrift, (Option.some.inj hkept).symm.trans hd⟩
    · cases hkept
  · rintro ⟨hkey, hdrift, hd⟩
    exact ⟨e.2, ⟨hkey, hd⟩, if_pos hdrift⟩

instance : IsTrans Leg legBefore where
  trans a b c hab hbc := by
    rcases hab with ⟨ha, hb⟩ | ⟨hab, hle⟩
    · rcases hbc with ⟨hb', -⟩ | ⟨hbc, -⟩
      · rw [hb] at hb'
        cases hb'
      · exact Or.inl ⟨ha, hbc ▸ hb⟩
    · rcases hbc with ⟨hb, hc⟩ | ⟨hbc, hle'⟩
      · exact Or.inl ⟨hab.trans hb, hc⟩
      · exact Or.inr ⟨hab.trans hbc, String.le_trans hle hle'⟩

instance : Std.Total legBefore where
  total a b := by
    rcases String.le_total a.asset b.asset with hle | hle
    · cases ha : a.side <;> cases hb : b.side <;> simp [legBefore, ha, hb, hle]
    · cases ha : a.side <;> cases hb : b.side <;> simp [legBefore, ha, hb, hle]

/-- Every sell stands before every buy. -/
def SellsFirst (legs : List Leg) : Prop :=
  legs.Pairwise fun a b => a.side = .buy → b.side = .buy

theorem sellsFirst_insertionSort (legs : List Leg) : SellsFirst (legs.insertionSort legBefore) := by
  refine (List.pairwise_insertionSort legBefore legs).imp ?_
  rintro a b (⟨hsell, -⟩ | ⟨hsame, -⟩) hbuy
  · rw [hsell] at hbuy
    cases hbuy
  · exact hsame ▸ hbuy

/-- The legs of a rebalance: one for each asset that moves, over its gap. -/
theorem mem_rebalance {policy : Policy} (hsells : policy.allowSells = true)
    (hmin : policy.minOrderFiat = 0) {holdings prices targets : Dict String Rat} {cash : Rat}
    {v : Valuation} (hv : valuePortfolio holdings prices targets cash = .ok v) {legs : List Leg}
    (h : reconcile holdings prices targets cash policy = .ok legs) :
    (∀ leg ∈ legs, Moves policy v targets leg.asset ∧
      leg.inflow = (deltas v targets).getD leg.asset 0) ∧
    (∀ asset, Moves policy v targets asset → ∃ leg ∈ legs, leg.asset = asset) ∧ SellsFirst legs := by
  rw [reconcile_of_value hv] at h
  obtain rfl := Except.ok.inj h
  refine ⟨?_, ?_, sellsFirst_insertionSort _⟩
  · intro leg hleg
    rw [List.mem_insertionSort, List.mem_filterMap] at hleg
    obtain ⟨⟨asset, amount⟩, hmem, hleg⟩ := hleg
    obtain ⟨hkey, hdrift, hamount⟩ := (mem_amounts hsells).mp hmem
    dsimp only at hkey hdrift hamount hleg
    subst hamount
    have hne : (deltas v targets).getD asset 0 ≠ 0 := by
      intro hzero
      rw [hzero, legOf_zero] at hleg
      cases hleg
    obtain ⟨leg', hleg', rfl, hinflow⟩ := @legOf_some _ hmin asset _ hne
    obtain rfl : leg' = leg := Option.some.inj (hleg'.symm.trans hleg)
    exact ⟨⟨hkey, hdrift, hne⟩, hinflow⟩
  · rintro asset ⟨hkey, hdrift, hne⟩
    obtain ⟨leg, hleg, hasset, -⟩ := @legOf_some _ hmin asset _ hne
    refine ⟨leg, ?_, hasset⟩
    rw [List.mem_insertionSort, List.mem_filterMap]
    exact ⟨(asset, _), (mem_amounts hsells).mpr ⟨hkey, hdrift, rfl⟩, hleg⟩

/-- A rebalance in which no asset moves has no legs. -/
theorem rebalance_nil {policy : Policy} (hsells : policy.allowSells = true)
    (hmin : policy.minOrderFiat = 0) {holdings prices targets : Dict String Rat} {cash : Rat}
    {v : Valuation} (hv : valuePortfolio holdings prices targets cash = .ok v)
    (hstill : ∀ asset, ¬Moves policy v targets asset) :
    reconcile holdings prices targets cash policy = .ok [] := by
  have hlegs := reconcile_of_value hv policy
  obtain ⟨hmoves, -, -⟩ := mem_rebalance hsells hmin hv hlegs
  rw [hlegs, List.eq_nil_iff_forall_not_mem.mpr fun leg hleg => hstill _ (hmoves leg hleg).1]

/-! ## The fixed point -/

/-- A rebalance of a portfolio with a positive managed value has exactly one leg for each configured asset
that drifted far enough and is off target, sells first. Trading every leg at the given prices keeps the
managed value, brings each asset with a leg to its target value and leaves the others as they were, and a
rebalance of the result is empty. -/
theorem rebalance_on_target {policy : Policy} (hsells : policy.allowSells = true)
    (hmin : policy.minOrderFiat = 0) {prices targets : Dict String Rat} {p : Position}
    (hprices : ∀ asset ∈ targets.keys, ∀ price, prices.get? asset = some price → 0 < price)
    {v : Valuation} (hv : valuePortfolio p.holdings prices targets p.cash = .ok v)
    (hvalue : 0 < v.managedValue) :
    ∃ legs, reconcile p.holdings prices targets p.cash policy = .ok legs ∧
      (∀ asset, (∃ leg ∈ legs, leg.asset = asset) ↔ Moves policy v targets asset) ∧
      (legs.map Leg.asset).Nodup ∧ SellsFirst legs ∧
      ∃ q v', q = applyLegs prices legs p ∧
        valuePortfolio q.holdings prices targets q.cash = .ok v' ∧ v'.managedValue = v.managedValue ∧
        (∀ leg ∈ legs, v'.assetValues.getD leg.asset 0 = (targetValues v targets).getD leg.asset 0) ∧
        (∀ asset, (∀ leg ∈ legs, leg.asset ≠ asset) → q.holdings.get? asset = p.holdings.get? asset) ∧
        reconcile q.holdings prices targets q.cash policy = .ok [] := by
  have hpriced : Priced prices targets := by
    by_contra hunpriced
    obtain ⟨e, he⟩ := @valuePortfolio_error p.holdings _ _ p.cash hunpriced
    rw [he] at hv
    cases hv
  have hlegs := reconcile_of_value hv policy
  obtain ⟨hmoves, hall, hfirst⟩ := mem_rebalance hsells hmin hv hlegs
  have hdistinct := (reconcile_legs hlegs).2
  generalize hl : ((amounts policy v targets).entries.filterMap fun e =>
    legOf policy e.1 e.2).insertionSort legBefore = legs at hlegs hmoves hall hfirst hdistinct
  refine ⟨legs, hlegs, ?_, hdistinct, hfirst, applyLegs prices legs p, ?_⟩
  · intro asset
    refine ⟨?_, hall asset⟩
    rintro ⟨leg, hleg, rfl⟩
    exact (hmoves leg hleg).1
  · obtain ⟨w, hw, -, hmanaged, hworth, hweight⟩ := valuePortfolio_ok hpriced p
    obtain rfl : v = w := Except.ok.inj (hv.symm.trans hw)
    obtain ⟨v', hv', -, hmanaged', hworth', hweight'⟩ :=
      valuePortfolio_ok hpriced (applyLegs prices legs p)
    have htradable : Tradable prices targets legs := by
      intro leg hleg
      have hkey := (hmoves leg hleg).1.1
      obtain ⟨price, hprice⟩ := Option.isSome_iff_exists.mp (hpriced _ hkey)
      refine ⟨hkey, ?_⟩
      simpa [Dict.getD, hprice] using (hprices _ hkey price hprice).ne'
    have hkept : v'.managedValue = v.managedValue := by
      rw [hmanaged', managedWorth_applyLegs p htradable, hmanaged]
    have honTarget : ∀ leg ∈ legs,
        v'.assetValues.getD leg.asset 0 = (targetValues v targets).getD leg.asset 0 := by
      intro leg hleg
      obtain ⟨⟨hkey, -, -⟩, hinflow⟩ := hmoves leg hleg
      rw [hworth' _ hkey, worth_applyLegs p hdistinct htradable hleg, hinflow, getD_deltas v hkey, gap,
        hworth _ hkey, targetValues, Dict.getD_map _ hkey 0 0]
      ring
    have hstays : ∀ asset, (∀ leg ∈ legs, leg.asset ≠ asset) →
        (applyLegs prices legs p).holdings.get? asset = p.holdings.get? asset := by
      intro asset h
      exact applyLegs_other p h
    refine ⟨v', rfl, hv', hkept, honTarget, hstays, rebalance_nil hsells hmin hv' ?_⟩
    rintro asset ⟨hkey, hdrift, hne⟩
    by_cases hmoved : ∃ leg ∈ legs, leg.asset = asset
    · -- An asset with a leg is on target: nothing is left of its gap.
      obtain ⟨leg, hleg, rfl⟩ := hmoved
      refine hne ?_
      rw [getD_deltas v' hkey, honTarget leg hleg, hkept, targetValues, Dict.getD_map _ hkey 0 0, gap]
      ring
    · -- An asset without one is as far from its target as before.
      have hothers : ∀ leg ∈ legs, leg.asset ≠ asset := fun leg hleg heq => hmoved ⟨leg, hleg, heq⟩
      have hsame : worth prices (applyLegs prices legs p) asset = worth prices p asset :=
        worth_applyLegs_other p hothers
      refine hmoved (hall asset ⟨hkey, ?_, ?_⟩)
      · have hne' : v'.managedValue ≠ 0 := by
          rw [hkept]
          exact hvalue.ne'
        rw [getD_drifts v' hkey, hweight' _ hkey hne', hsame, hkept] at hdrift
        rw [getD_drifts v hkey, hweight _ hkey hvalue.ne']
        exact hdrift
      · rw [getD_deltas v' hkey, hworth' _ hkey, hsame, hkept] at hne
        rw [getD_deltas v hkey, hworth _ hkey]
        exact hne

/-- Two assets worth 600 and 300, and 100 in cash. -/
def overweight : Position := ⟨Dict.ofList [("XBT", 2), ("ETH", 30)], 100⟩

def halfAndThird : Dict String Rat := Dict.ofList [("XBT", 50), ("ETH", 30)]

def twoPrices : Dict String Rat := Dict.ofList [("XBT", 300), ("ETH", 10)]

/-- A rebalance of any drift of one point. -/
def onePoint : Policy := ⟨true, .prorata, 1, 0⟩

/-- A rebalance that sells the overweight asset and leaves the other, which has not drifted. -/
theorem rebalance_on_target_overweight :
    reconcile overweight.holdings twoPrices halfAndThird overweight.cash onePoint =
        .ok [⟨"XBT", .sell, 100⟩] ∧
      reconcile (applyLegs twoPrices [⟨"XBT", .sell, 100⟩] overweight).holdings twoPrices halfAndThird
        (applyLegs twoPrices [⟨"XBT", .sell, 100⟩] overweight).cash onePoint = .ok [] := by
  have hprices : ∀ asset ∈ halfAndThird.keys, ∀ price, twoPrices.get? asset = some price → 0 < price := by
    decide +kernel
  have hpriced : ∀ asset ∈ halfAndThird.keys, (twoPrices.get? asset).isSome := by decide +kernel
  have hsell : reconcile overweight.holdings twoPrices halfAndThird overweight.cash onePoint =
      .ok [⟨"XBT", .sell, 100⟩] := by decide +kernel
  obtain ⟨v, hv, -, hmanaged, -, -⟩ := valuePortfolio_ok hpriced overweight
  have hvalue : 0 < v.managedValue := by
    rw [hmanaged]
    decide +kernel
  obtain ⟨legs, hlegs, -, -, -, q, v', rfl, -, -, -, -, hempty⟩ :=
    rebalance_on_target (show onePoint.allowSells = true from rfl) rfl hprices hv hvalue
  obtain rfl := Except.ok.inj (hsell.symm.trans hlegs)
  exact ⟨hsell, hempty⟩

end Coinpilot.Engine
