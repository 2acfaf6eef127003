import Coinpilot.Lib.Rounding
import Coinpilot.Web.Allocation
import Coinpilot.Core.Balances

/-!
# The screen and the engine on drift

The engine compares exact weights with the targets, and the dashboard the weights that the platform
wrote, rounded to two places. Rounding keeps to its side of every target and threshold of the grid, so
the two part in three ways only (`SameVerdict`): a weight that is rounded up to the threshold, a weight
that is rounded onto its target where there is no threshold, and a portfolio that is worth nothing, whose
weights are zero although there is nothing to move.
-/

set_option autoImplicit false

namespace Coinpilot.Web

open Coinpilot.Lib Coinpilot.Api Coinpilot.Core Coinpilot.Engine

/-- Where the mark of a row and the leg of a rebalance agree: on an asset of this value, weight and
target, in a portfolio of this value. -/
def SameVerdict (managedValue value weight target minDrift : Rat) : Prop :=
  if managedValue = 0 then
    if value = 0 then target = 0 ∨ target < minDrift else target ≠ 0 ∨ 0 < minDrift
  else if minDrift = 0 then weight = target ∨ (pct weight).value ≠ target
  else minDrift ≤ |weight - target| ∨ |(pct weight).value - target| < minDrift

/-! ## Rounding and thresholds -/

section Rounding

variable {weight target minDrift : Rat}

/-- A drift that reaches a threshold of the grid reaches it once the weight is rounded. -/
theorem reaches_rounded (ht : Decimal.OnGrid 2 target) (hm : Decimal.OnGrid 2 minDrift)
    (h : minDrift ≤ |weight - target|) : minDrift ≤ |(pct weight).value - target| := by
  rw [le_abs] at h ⊢
  rcases h with h | h
  · have hle := Decimal.le_quantize .halfEven (ht.add hm) (show target + minDrift ≤ weight by linarith)
    exact .inl (by rw [pct]; linarith)
  · have hle := Decimal.quantize_le .halfEven (ht.sub hm) (show weight ≤ target - minDrift by linarith)
    exact .inr (by rw [pct]; linarith)

/-- What the screen says of a drift against what the engine says of it, in a portfolio that is worth
something. -/
theorem drifted_iff (ht : Decimal.OnGrid 2 target) (hm : Decimal.OnGrid 2 minDrift) (hpos : 0 ≤ minDrift) :
    (((pct weight).value - target ≠ 0 ∧ minDrift ≤ |(pct weight).value - target|) ↔
      (minDrift ≤ |weight - target| ∧ weight ≠ target)) ↔
      if minDrift = 0 then weight = target ∨ (pct weight).value ≠ target
      else minDrift ≤ |weight - target| ∨ |(pct weight).value - target| < minDrift := by
  have hfixed : weight = target → (pct weight).value = target := by
    rintro rfl
    exact Decimal.quantize_onGrid .halfEven ht
  by_cases hzero : minDrift = 0
  · rw [if_pos hzero, hzero, sub_ne_zero]
    have habs : ∀ x : Rat, 0 ≤ |x| := abs_nonneg
    simp only [habs, and_true, true_and]
    by_cases heq : weight = target
    · have hshown := hfixed heq
      simp [heq, heq ▸ hshown]
    · simp [heq]
  · have hlt : 0 < minDrift := lt_of_le_of_ne hpos (Ne.symm hzero)
    rw [if_neg hzero]
    have hoff : minDrift ≤ |(pct weight).value - target| → (pct weight).value - target ≠ 0 := by
      intro h h0
      rw [h0, abs_zero] at h
      exact absurd hlt (not_lt.mpr h)
    have hoff' : minDrift ≤ |weight - target| → weight ≠ target := by
      rintro h rfl
      rw [sub_self, abs_zero] at h
      exact absurd hlt (not_lt.mpr h)
    by_cases hexact : minDrift ≤ |weight - target|
    · have hshown := reaches_rounded ht hm hexact
      simp [hexact, hshown, hoff hshown, hoff' hexact]
    · by_cases hshown : minDrift ≤ |(pct weight).value - target|
      · simp [hexact, hshown, hoff hshown]
      · simp [hexact, hshown, not_le.mp hshown]

end Rounding

/-! ## The engine's leg -/

theorem weights_eq {holdings prices targets : Dict String Rat} {cash : Rat} {v : Valuation}
    (h : valuePortfolio holdings prices targets cash = .ok v) :
    v.weights = v.assetValues.map fun _ value =>
      if v.managedValue = 0 then 0 else value / v.managedValue * 100 := by
  rw [valuePortfolio] at h
  split at h
  · cases h
  · cases h
    rfl

/-- An asset moves where its drift reaches the threshold and is not nothing, or, in a portfolio that is
worth nothing, where the asset itself is worth something. -/
theorem moves_iff {policy : Policy} {holdings prices targets : Dict String Rat} {cash value weight target : Rat}
    {v : Valuation} (h : valuePortfolio holdings prices targets cash = .ok v) {asset : String}
    (hvalue : v.assetValues.get? asset = some value) (hweight : v.weights.get? asset = some weight)
    (htarget : targets.get? asset = some target) :
    Moves policy v targets asset ↔ policy.minDriftPct ≤ |weight - target| ∧
      if v.managedValue = 0 then value ≠ 0 else weight ≠ target := by
  have hkey : asset ∈ targets.keys := Dict.mem_keys_iff.mpr ⟨target, htarget⟩
  have hat : ∀ {d : Dict String Rat} {x : Rat}, d.get? asset = some x → d.getD asset 0 = x := by
    intro d x hget
    rw [Dict.getD, hget, Option.getD_some]
  rw [Moves, getD_drifts v hkey, getD_deltas v hkey, gap, hat hvalue, hat hweight, hat htarget]
  rw [weights_eq h, Dict.get?_map, hvalue, Option.map_some, Option.some.injEq] at hweight
  by_cases hzero : v.managedValue = 0
  · rw [if_pos hzero, hzero]
    simp [hkey]
  · rw [if_neg hzero] at hweight ⊢
    have hgap : v.managedValue * target / 100 - value = v.managedValue / 100 * (target - weight) := by
      rw [← hweight]
      field_simp
    rw [hgap, Ne, mul_eq_zero, not_or, sub_eq_zero, eq_comm (a := target)]
    have hscale : v.managedValue / 100 ≠ 0 := div_ne_zero hzero (by norm_num)
    simp [hkey, hscale]

/-- In a portfolio that is worth nothing every weight is zero. -/
theorem weight_zero {holdings prices targets : Dict String Rat} {cash weight : Rat} {v : Valuation}
    (h : valuePortfolio holdings prices targets cash = .ok v) {asset : String}
    (hweight : v.weights.get? asset = some weight) (hzero : v.managedValue = 0) : weight = 0 := by
  rw [weights_eq h, Dict.get?_map] at hweight
  obtain ⟨value, -, hvalue⟩ := Option.map_eq_some_iff.mp hweight
  rw [← hvalue, if_pos hzero]

/-- The two verdicts on one asset. -/
theorem verdicts_iff {managedValue value weight target minDrift : Rat} (ht : Decimal.OnGrid 2 target)
    (htpos : 0 ≤ target) (hm : Decimal.OnGrid 2 minDrift) (hpos : 0 ≤ minDrift)
    (hzero : managedValue = 0 → weight = 0) :
    (((pct weight).value - target ≠ 0 ∧ minDrift ≤ |(pct weight).value - target|) ↔
      (minDrift ≤ |weight - target| ∧ if managedValue = 0 then value ≠ 0 else weight ≠ target)) ↔
      SameVerdict managedValue value weight target minDrift := by
  rw [SameVerdict]
  by_cases hm0 : managedValue = 0
  · have hweight := hzero hm0
    have hrounded : (pct weight).value = 0 := by
      rw [hweight]
      exact Decimal.quantize_onGrid .halfEven ⟨0, by simp⟩
    rw [if_pos hm0, if_pos hm0, hrounded, hweight, zero_sub, abs_neg, abs_of_nonneg htpos, neg_ne_zero]
    by_cases hvalue : value = 0
    · rw [if_pos hvalue]
      simp only [hvalue, ne_eq, not_true_eq_false, and_false, iff_false, not_and_or, not_not, not_le]
    · rw [if_neg hvalue]
      by_cases ht0 : target = 0
      · simp [hvalue, ht0]
      · simp [hvalue, ht0]
  · rw [if_neg hm0, if_neg hm0]
    exact drifted_iff ht hm hpos

/-! ## The rows -/

section Rows

/-- Steps that all succeed give the results of each. -/
theorem mapM_ok {α β ε : Type} {f : α → Except ε β} {l : List α} (h : ∀ a ∈ l, ∃ b, f a = .ok b) :
    ∃ bs, l.mapM f = .ok bs ∧ ∀ b, b ∈ bs ↔ ∃ a ∈ l, f a = .ok b := by
  induction l with
  | nil => exact ⟨[], rfl, by simp⟩
  | cons a l ih =>
    obtain ⟨b, hb⟩ := h a List.mem_cons_self
    obtain ⟨bs, hbs, hall⟩ := ih fun x hx => h x (List.mem_cons_of_mem _ hx)
    refine ⟨b :: bs, by rw [List.mapM_cons, hb, hbs]; rfl, fun c => ?_⟩
    rw [List.mem_cons, hall, List.exists_mem_cons_iff, hb, Except.ok.injEq, eq_comm]

theorem reads_pctText (value : Rat) : Reads (pctText value) (pct value).value := reads_fixed (pct value)

/-- The drift of two percentages that the platform wrote. -/
theorem driftOf_pctText (weight target : Rat) :
    ∃ d : Decimal, driftOf (some (pctText weight)) (some (pctText target)) = .ok (some (canonical d)) ∧
      d.value = (pct weight).value - (pct target).value := by
  obtain ⟨d, hd, hvalue⟩ := reads_subtract (reads_pctText weight) (reads_pctText target)
  refine ⟨d, ?_, hvalue⟩
  rw [driftOf, drift, hd]
  rfl

/-- The row of a managed holding with a weight and a target. -/
theorem assetRow_ok {minDrift : String} {m : Rat} (hm : Reads minDrift m) (h : HoldingOut)
    {weight target : Rat} (hweight : h.weightPct = some (pctText weight))
    (htarget : h.targetPct = some (pctText target)) :
    ∃ row, assetRow minDrift h = .ok row ∧ row.kind = .asset ∧ row.asset = h.asset ∧
      (row.drifted = true ↔ (pct weight).value - (pct target).value ≠ 0 ∧
        m ≤ |(pct weight).value - (pct target).value|) := by
  obtain ⟨d, hd, hvalue⟩ := driftOf_pctText weight target
  rw [← hvalue]
  rw [assetRow, hweight, htarget, hd]
  refine ⟨{ kind := .asset, asset := h.asset, amount := some h.amount, value := h.value
            weight := some (pctText weight), target := some (pctText target), drift := some (canonical d)
            drifted := decide (d.value ≠ 0 ∧ m ≤ |d.value|) }, ?_, rfl, rfl, decide_eq_true_iff⟩
  simp [bind, Except.bind, pure, Except.pure, isDrifted_canonical d hm]

/-- The rows of an answer whose managed holdings have a weight and a target: one for each of these, and
the cash. -/
theorem allocationRows_ok {portfolio : PortfolioOut} {minDrift : String} {m : Rat} (hm : Reads minDrift m)
    {cashWeight cashTarget : Rat} (hcashWeight : portfolio.cashWeightPct = some (pctText cashWeight))
    (hcashTarget : portfolio.cashTargetPct = some (pctText cashTarget))
    (h : ∀ holding ∈ portfolio.holdings, holding.managed = true → ∃ weight target,
      holding.weightPct = some (pctText weight) ∧ holding.targetPct = some (pctText target)) :
    ∃ rows, allocationRows portfolio minDrift = .ok rows ∧
      (∀ row ∈ rows, row.kind = .asset → ∃ holding ∈ portfolio.holdings, holding.managed = true ∧
        assetRow minDrift holding = .ok row) ∧
      ∀ holding ∈ portfolio.holdings, holding.managed = true → ∃ row ∈ rows,
        assetRow minDrift holding = .ok row := by
  have hrows : ∀ holding ∈ portfolio.holdings.filter (fun h => h.managed), ∃ row,
      assetRow minDrift holding = .ok row := by
    intro holding hmem
    obtain ⟨hmem, hmanaged⟩ := List.mem_filter.mp hmem
    obtain ⟨weight, target, hweight, htarget⟩ := h holding hmem hmanaged
    obtain ⟨row, hrow, -⟩ := assetRow_ok hm holding hweight htarget
    exact ⟨row, hrow⟩
  obtain ⟨assets, hassets, hall⟩ := mapM_ok hrows
  obtain ⟨d, hd, -⟩ := driftOf_pctText cashWeight cashTarget
  refine ⟨_, by rw [allocationRows, hassets, hcashWeight, hcashTarget, hd]; rfl, ?_, ?_⟩
  · intro row hrow hkind
    rcases List.mem_append.mp hrow with hrow | hrow
    · obtain ⟨holding, hmem, hok⟩ := (hall row).mp hrow
      obtain ⟨hmem, hmanaged⟩ := List.mem_filter.mp hmem
      exact ⟨holding, hmem, hmanaged, hok⟩
    · rw [List.mem_singleton.mp hrow] at hkind
      cases hkind
  · intro holding hmem hmanaged
    have hin := List.mem_filter.mpr ⟨hmem, hmanaged⟩
    obtain ⟨row, hok⟩ := hrows holding hin
    exact ⟨row, List.mem_append_left _ ((hall row).mpr ⟨holding, hin, hok⟩), hok⟩

end Rows

/-! ## The dashboard of a reading -/

/-- A key of a list of entries is one of the dictionary that it leaves. -/
theorem mem_keys_ofList {α : Type} {es : List (String × α)} {k : String} :
    k ∈ (Dict.ofList es).keys ↔ ∃ e ∈ es, e.1 = k := by
  constructor
  · intro h
    obtain ⟨e, he, rfl⟩ := List.mem_map.mp h
    exact ⟨e, Dict.mem_of_mem_ofList he, rfl⟩
  · rintro ⟨e, he, rfl⟩
    rw [Dict.mem_keys_iff, Dict.ofList, Dict.get?_foldl_set]
    cases hfind : es.reverse.find? fun x => decide (x.1 = e.1) with
    | some hit => exact ⟨hit.2, rfl⟩
    | none =>
      exact absurd (decide_eq_true rfl) (List.find?_eq_none.mp hfind e (List.mem_reverse.mpr he))

section Reading

variable {balances : Dict String Decimal} {names : Dict String String} {prices : Dict String Decimal}
  {account : Core.Account} {view : PortfolioView}

/-- A fully priced reading of an account whose rebalance has no smallest order. Its targets and its least
drift are ones that the platform admits. -/
structure FullReading (balances : Dict String Decimal) (names : Dict String String)
    (prices : Dict String Decimal) (account : Core.Account) (view : PortfolioView) : Prop where
  built : buildView balances names account.fiat (configuredTargets account.targets) prices = .ok view
  priced : view.unpriced = []
  targets : ∀ t ∈ account.targets, 0 ≤ t.targetPct.value ∧ Decimal.OnGrid 2 t.targetPct.value
  sells : account.policy.allowSells = true
  minOrderFiat : account.policy.minOrderFiat = 0
  minDriftPct : 0 ≤ account.policy.minDriftPct ∧ Decimal.OnGrid 1 account.policy.minDriftPct

/-- A managed holding has the value and the weight of its valuation, and an admitted target. -/
structure ManagedAs (account : Core.Account) (v : Valuation) (holding : Holding) (value weight : Rat)
    (target : Decimal) : Prop where
  valued : holding.value = some value ∧ v.assetValues.get? holding.asset = some value
  weighed : holding.weightPct = some weight ∧ v.weights.get? holding.asset = some weight
  targeted : holding.targetPct = some target ∧
    (targetWeights account.targets).get? holding.asset = some target.value
  admitted : 0 ≤ target.value ∧ Decimal.OnGrid 2 target.value

theorem FullReading.valuation (h : FullReading balances names prices account view) :
    ∃ v, engineValuation account.targets view = .ok v ∧ v.managedValue = view.managedValue ∧
      (∀ holding ∈ view.holdings, holding.managed = true → ∃ value weight target,
        ManagedAs account v holding value weight target) ∧
      ∀ t ∈ account.targets, ∃ holding ∈ view.holdings, holding.asset = t.asset := by
  obtain ⟨v, rest, hbuilt, -, -, -⟩ := buildView_built h.built
  have hv := same_valuation hbuilt h.priced
  rw [← targetWeights_eq] at hv
  obtain ⟨-, hvalues, -, hweightKeys, -⟩ := valuePortfolio_sums hv
  refine ⟨v, hv, hbuilt.managedValue.symm, ?_, ?_⟩
  · intro holding hmem hmanaged
    rw [hbuilt.holdings] at hmem
    rcases List.mem_append.mp hmem with hmem | hmem
    · obtain ⟨asset, hasset, rfl⟩ := List.mem_map.mp hmem
      have hkey : asset ∈ (configuredTargets account.targets).keys := mem_sortedKeys.mp hasset
      obtain ⟨target, htarget⟩ := Dict.mem_keys_iff.mp hkey
      have hkey' : asset ∈ (targetWeights account.targets).keys := by
        rwa [targetWeights_eq, Dict.keys_map]
      obtain ⟨value, hvalue⟩ : ∃ value, v.assetValues.get? asset = some value := by
        apply Dict.mem_keys_iff.mp
        rwa [hvalues, Dict.keys_map]
      obtain ⟨weight, hweight⟩ : ∃ weight, v.weights.get? asset = some weight := by
        apply Dict.mem_keys_iff.mp
        rwa [hweightKeys]
      refine ⟨value, weight, target, ⟨hvalue, hvalue⟩, ⟨hweight, hweight⟩, ⟨htarget, ?_⟩, ?_⟩
      · change (targetWeights account.targets).get? asset = _
        rw [targetWeights_eq, Dict.get?_map, htarget]
        rfl
      · obtain ⟨t, ht, heq⟩ := List.mem_map.mp (Dict.mem_of_mem_ofList (Dict.mem_of_get? htarget))
        cases heq
        exact h.targets t ht
    · rw [hbuilt.others holding hmem] at hmanaged
      cases hmanaged
  · intro t ht
    have hkey : t.asset ∈ (configuredTargets account.targets).keys :=
      mem_keys_ofList.mpr ⟨_, List.mem_map_of_mem ht, rfl⟩
    have hmem : managedHolding ((splitBalances balances names).1.erase account.fiat) prices
        (configuredTargets account.targets) v t.asset ∈ view.holdings := by
      rw [hbuilt.holdings]
      exact List.mem_append_left _ (List.mem_map_of_mem (mem_sortedKeys.mpr hkey))
    exact ⟨_, hmem, rfl⟩

/-- The rows of the assets are marked exactly where the engine has legs. -/
def Agrees (account : Core.Account) (view : PortfolioView) (minDrift : String) : Prop :=
  ∀ legs rows, enginePlan account view = .ok legs →
    allocationRows (out view.cash view.snapshotJson) minDrift = .ok rows →
    ∀ row ∈ rows, row.kind = .asset → (row.drifted = true ↔ ∃ leg ∈ legs, leg.asset = row.asset)

end Reading

/-! ## Half in bitcoin, with a threshold of one point -/

def halfBitcoin : Core.Account where
  fiat := "EUR"
  policy := ⟨true, .prorata, 1, 0⟩
  floor := Decimal.zero
  targets := [⟨"XBT", "XXBTZEUR", ⟨50, 0⟩⟩]
  sealed := ⟨[], [], 0⟩

def bitcoinBalances (amount cash : Decimal) : Dict String Decimal :=
  Dict.ofList [("XXBT", amount), ("ZEUR", cash)]

def tenEuros : Dict String Decimal := Dict.ofList [("XBT", ⟨10, 0⟩)]

/-- The view of bitcoin at ten euros. -/
def bitcoinView (amount cash : Decimal) : PortfolioView :=
  let value := amount.value * 10
  let managedValue := value + cash.value
  { fiat := "EUR"
    cash
    cashTargetPct := 50
    cashWeightPct := if managedValue = 0 then 0 else cash.value / managedValue * 100
    managedValue
    holdings := [
      { asset := "XBT", amount, price := some ⟨10, 0⟩, value := some value, managed := true, locked := false
        targetPct := some ⟨50, 0⟩
        weightPct := some (if managedValue = 0 then 0 else value / managedValue * 100) }] }

theorem bitcoin_reading (amount cash : Decimal)
    (h : buildView (bitcoinBalances amount cash) someNames "EUR"
      (configuredTargets halfBitcoin.targets) tenEuros = .ok (bitcoinView amount cash)) :
    FullReading (bitcoinBalances amount cash) someNames tenEuros halfBitcoin (bitcoinView amount cash) where
  built := h
  priced := rfl
  targets := by
    intro t ht
    obtain rfl := List.mem_singleton.mp ht
    exact ⟨by simp [Decimal.value], 5000, by norm_num [Decimal.value]⟩
  sells := rfl
  minOrderFiat := rfl
  minDriftPct := ⟨by simp [halfBitcoin], 10, by norm_num [halfBitcoin]⟩

end Coinpilot.Web
