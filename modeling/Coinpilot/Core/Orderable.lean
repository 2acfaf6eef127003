import Coinpilot.Core.Sizing

/-!
# What Kraken takes as large enough

A leg is checked in fiat and a sell is sent as a volume, which is rounded down on another grid. A buy that is
sent is orderable, also after it was shrunk (`buy_orderable`). A sell is orderable where what is above the
target reaches Kraken's two minimums rounded up to the pair's lots (`sell_orderable_iff`), and the check in
fiat does not say that it does (`small_sell_sent`).
-/

set_option autoImplicit false

namespace Coinpilot.Core

open Coinpilot.Lib Coinpilot.Exchange Coinpilot.Engine

/-- Kraken takes the leg as it is sent: a buy as an amount of fiat, a sell as a volume. -/
def PlannedLeg.Orderable (p : PlannedLeg) (m : PairMeta) (price : Decimal) : Prop :=
  match p.side with
  | .buy => 0 < price.value → isOrderable m (p.amount.value / price.value) p.amount.value = true
  | .sell => ∃ volume, p.volume = some volume ∧
      isOrderable m volume.value (volume.value * price.value) = true

/-- What is held of an asset above its target value. -/
def surplus (v : Valuation) (target : Target) (holding : Holding) (price : Decimal) : Rat :=
  holding.amount.value - v.managedValue * target.targetPct.value / 100 / price.value

/-- The surplus reaches both of Kraken's minimums, each rounded up to the lots of the pair. -/
def LotsReach (v : Valuation) (m : PairMeta) (target : Target) (holding : Holding) (price : Decimal) : Prop :=
  Decimal.gridCeil m.volumeDecimals m.orderMin.value ≤ surplus v target holding price ∧
    Decimal.gridCeil m.volumeDecimals (m.costMin.value / price.value) ≤ surplus v target holding price

/-! ## One leg -/

theorem isOrderable_iff {m : PairMeta} {volume cost : Rat} :
    isOrderable m volume cost = true ↔ m.orderMin.value ≤ volume ∧ m.costMin.value ≤ cost := by
  rw [isOrderable, decide_eq_true_iff]

/-- A buy that reaches the minimum in fiat is orderable at a positive price. -/
theorem buy_orderable {p : PlannedLeg} (hbuy : p.side = .buy) (hnote : p.note = none) {m : PairMeta}
    {price floor : Decimal} (hm : p.minimum = some ((minimumFiat m price).max floor)) :
    p.Orderable m price := by
  obtain ⟨m', least, -, hleast, hle, -, -⟩ := p.sized hnote
  obtain rfl := Option.some.inj (hm.symm.trans hleast)
  rw [Decimal.value_max, minimumFiat, Decimal.value_max, Decimal.value_mul] at hle
  have hcost : m.costMin.value ≤ p.amount.value := (le_max_left _ _).trans ((le_max_left _ _).trans hle)
  have horder : m.orderMin.value * price.value ≤ p.amount.value :=
    (le_max_right _ _).trans ((le_max_left _ _).trans hle)
  rw [PlannedLeg.Orderable, hbuy]
  intro hprice
  rw [isOrderable_iff, le_div_iff₀ hprice]
  exact ⟨horder, hcost⟩

section Sell

variable {account : Account} {view : PortfolioView} {v : Valuation} {metas : Dict String PairMeta}
  {leg : Leg} {target : Target} {holding : Holding} {price : Decimal} {p : PlannedLeg}

/-- A sell is orderable exactly when the surplus reaches the minimums in lots. -/
theorem sell_orderable_iff (h : SizedFrom account view v metas leg target holding price p)
    (hsell : p.side = .sell) {m : PairMeta} (hm : p.pairMeta = some m) :
    p.Orderable m price ↔ LotsReach v m target holding price := by
  have hside : leg.side = .sell := h.side.symm.trans hsell
  have hexcess := h.excess hside
  have hsurplus : leg.amountFiat / price.value = surplus v target holding price := by
    rw [surplus, hexcess.amountEq, sub_div, mul_div_cancel_right₀ _ hexcess.pricePos.ne']
  have hnonneg : 0 ≤ surplus v target holding price := hsurplus ▸ hexcess.volume_nonneg
  rw [PlannedLeg.Orderable, hsell, (h.traded m hm).2.2 hside, hsurplus]
  simp only [Option.some.injEq, exists_eq_left']
  -- The cost reaches its minimum where the volume reaches the minimum over the price.
  rw [isOrderable_iff, ← div_le_iff₀ hexcess.pricePos, roundVolume,
    Decimal.le_quantize_down_iff hnonneg, Decimal.le_quantize_down_iff hnonneg, LotsReach]

end Sell

/-! ## The legs that are sent -/

/-- Shrinking a leg keeps what it is of and its minimum. -/
theorem shrink_keeps (factor : Rat) (fiat : String) (leg : PlannedLeg) :
    (shrink factor fiat leg).asset = leg.asset ∧ (shrink factor fiat leg).side = leg.side ∧
      (shrink factor fiat leg).pairMeta = leg.pairMeta ∧ (shrink factor fiat leg).minimum = leg.minimum := by
  unfold shrink
  split
  · dsimp only
    split
    · exact ⟨rfl, rfl, rfl, rfl⟩
    · exact ⟨rfl, rfl, rfl, rfl⟩
  · exact ⟨rfl, rfl, rfl, rfl⟩

/-- Every leg inside the budget is one of the buys, perhaps shrunk. -/
theorem mem_within {buys fitted : List PlannedLeg} {budget : Option Rat} {fiat : String}
    (h : within buys budget fiat = .ok fitted) {p : PlannedLeg} (hp : p ∈ fitted) :
    ∃ leg ∈ buys, p.asset = leg.asset ∧ p.side = leg.side ∧ p.pairMeta = leg.pairMeta ∧
      p.minimum = leg.minimum := by
  rw [within.eq_def] at h
  split at h
  · cases h
  · split at h
    · obtain rfl := Except.ok.inj h
      exact ⟨p, hp, rfl, rfl, rfl, rfl⟩
    · split at h
      · cases h
      · obtain rfl := Except.ok.inj h
        obtain ⟨leg, hleg, rfl⟩ := List.mem_map.mp hp
        exact ⟨leg, hleg, shrink_keeps _ fiat leg⟩

/-- The legs that an executor may send of a plan: as planned, or the buys inside a budget. -/
def Planned.MaySend (planned : Planned) (fiat : String) (p : PlannedLeg) : Prop :=
  p.note = none ∧ (p ∈ planned.legs ∨
    ∃ budget fitted, within (planned.ofSide .buy) budget fiat = .ok fitted ∧ p ∈ fitted)

/-- The sells of the engine's plan that pass the check in fiat reach the minimums in lots. -/
def SellsReach (account : Account) (view : PortfolioView) (v : Valuation) (metas : Dict String PairMeta)
    (plan : List Leg) : Prop :=
  ∀ leg ∈ plan, leg.side = .sell → ∀ target holding price m,
    Found account view leg.asset target holding price →
    (metas.get? target.pair).filter PairMeta.tradable = some m →
    ((minimumFiat m price).max account.floor).value ≤ (roundCost m leg.amountFiat).value →
    LotsReach v m target holding price

theorem Found.unique {account : Account} {view : PortfolioView} {asset : String} {target target' : Target}
    {holding holding' : Holding} {price price' : Decimal}
    (h : Found account view asset target holding price)
    (h' : Found account view asset target' holding' price') :
    target' = target ∧ holding' = holding ∧ price' = price := by
  obtain rfl := Option.some.inj (h.targetFound.symm.trans h'.targetFound)
  obtain rfl := Option.some.inj (h.holdingFound.symm.trans h'.holdingFound)
  obtain rfl := Option.some.inj (h.priceFound.symm.trans h'.priceFound)
  exact ⟨rfl, rfl, rfl⟩

/-- Of a sound reading, every leg that may be sent is orderable exactly when the sells that pass the check in
fiat reach Kraken's minimums in lots. -/
theorem orderable_iff {account : Account} {balances prices : Dict String Decimal}
    (hreading : SoundReading account balances prices) {names : Dict String String} {fiat : String}
    {view : PortfolioView}
    (hview : buildView balances names fiat (configuredTargets account.targets) prices = .ok view)
    (hunpriced : view.unpriced = []) (metas : Dict String PairMeta) (places : Int) :
    ∃ planned v plan, planLegs account view metas places = .ok planned ∧
      engineValuation account.targets view = .ok v ∧ enginePlan account view = .ok plan ∧
      ((∀ p, planned.MaySend account.fiat p → ∀ m target holding price, p.pairMeta = some m →
          Found account view p.asset target holding price → p.Orderable m price) ↔
        SellsReach account view v metas plan) := by
  obtain ⟨planned, v, plan, hplanned, hv, hplan, hlegs, hall⟩ :=
    planLegs_total hreading hview hunpriced metas places
  refine ⟨planned, v, plan, hplanned, hv, hplan, ?_⟩
  constructor
  · intro horderable leg hleg hsell target holding price m hfound hm hlarge
    obtain ⟨p, hp, target', holding', price', hsized⟩ := hall leg hleg
    obtain ⟨rfl, rfl, rfl⟩ := hsized.found.unique hfound
    have hpair : p.pairMeta = some m := hsized.pairMeta.trans hm
    have hnote : p.note = none := (hsized.traded m hpair).2.1.mpr hlarge
    rw [← sell_orderable_iff hsized (hsized.side.trans hsell) hpair]
    exact horderable p ⟨hnote, Or.inl hp⟩ m target holding price hpair (hsized.asset ▸ hfound)
  · rintro hreach p ⟨hnote, hp⟩ m target holding price hm hfound
    rcases hp with hp | ⟨budget, fitted, hwithin, hp⟩
    · obtain ⟨-, leg, hleg, target', holding', price', hsized⟩ := hlegs p hp
      obtain ⟨rfl, rfl, rfl⟩ := hsized.found.unique (hsized.asset ▸ hfound)
      cases hside : p.side with
      | buy => exact buy_orderable hside hnote (hsized.traded m hm).1
      | sell =>
        rw [sell_orderable_iff hsized hside hm]
        exact hreach leg hleg (hsized.side.symm.trans hside) target holding price m hsized.found
          (hsized.pairMeta.symm.trans hm) ((hsized.traded m hm).2.1.mp hnote)
    · -- A buy that was shrunk is still not below its minimum.
      obtain ⟨buy, hbuy, hasset, hside, hpair, hleast⟩ := mem_within hwithin hp
      obtain ⟨hmem, hof⟩ := List.mem_filter.mp hbuy
      have hofBuy : buy.side = .buy := of_decide_eq_true hof
      obtain ⟨-, leg, hleg, target', holding', price', hsized⟩ := hlegs buy hmem
      obtain ⟨rfl, rfl, rfl⟩ := hsized.found.unique (hsized.asset ▸ hasset ▸ hfound)
      exact buy_orderable (hside.trans hofBuy) hnote
        (hleast.trans (hsized.traded m (hpair.symm.trans hm)).1)

/-- The half euro of dogecoin above the target is 8.33... of it, and the minimum 8.33333334 in lots. -/
theorem orderable_iff_doge :
    ∃ planned, planLegs halfDoge dogeView dogePairs 4 = .ok planned ∧
      ¬∀ p, planned.MaySend halfDoge.fiat p → ∀ m target holding price, p.pairMeta = some m →
        Found halfDoge dogeView p.asset target holding price → p.Orderable m price := by
  obtain ⟨planned, v, plan, hplanned, hv, hplan, hiff⟩ :=
    orderable_iff doge_sound dogeView_built (by decide +kernel) dogePairs 4
  refine ⟨planned, hplanned, ?_⟩
  rw [hiff]
  intro hreach
  have hsell : enginePlan halfDoge dogeView = .ok [⟨"XDG", .sell, 1 / 2⟩] := by decide +kernel
  obtain rfl := Except.ok.inj (hsell.symm.trans hplan)
  have hvalue : (engineValuation halfDoge.targets dogeView).map Valuation.managedValue = .ok 11 := by
    decide +kernel
  rw [hv] at hvalue
  have hmanaged : v.managedValue = 11 := Except.ok.inj hvalue
  have hlots := hreach _ List.mem_cons_self rfl ⟨"XDG", "XDGEUR", ⟨50, 0⟩⟩ (dogeView.holdings.head (by decide))
    ⟨6, -2⟩ dogePair ⟨by decide +kernel, by decide +kernel, by decide +kernel⟩ (by decide +kernel)
    (by decide +kernel)
  rw [LotsReach, surplus, hmanaged] at hlots
  revert hlots
  decide +kernel

/-- The sell of 0.50 euros of dogecoin passes the check in fiat. Its 8.33333333 dogecoin come to less than
Kraken's 0.50. -/
theorem small_sell_sent :
    ∃ planned, planLegs halfDoge dogeView dogePairs 4 = .ok planned ∧
      ∃ p ∈ planned.legs, p.side = .sell ∧ p.note = none ∧ p.pairMeta = some dogePair ∧
        p.volume = some ⟨833333333, -8⟩ ∧ ¬p.Orderable dogePair ⟨6, -2⟩ := by
  have hlegs := doge_planned
  cases hplanned : planLegs halfDoge dogeView dogePairs 4 with
  | error e =>
    rw [hplanned] at hlegs
    cases hlegs
  | ok planned =>
    rw [hplanned] at hlegs
    obtain ⟨p, hp, hfields⟩ := List.mem_map.mp (Option.some.inj hlegs ▸ List.mem_cons_self)
    simp only [Prod.mk.injEq] at hfields
    obtain ⟨⟨hside, hnote⟩, hvolume, hpair⟩ := hfields
    refine ⟨planned, rfl, p, hp, hside, hnote, hpair, hvolume, ?_⟩
    rw [PlannedLeg.Orderable, hside, hvolume]
    rintro ⟨volume, hsome, horderable⟩
    obtain rfl := Option.some.inj hsome
    revert horderable
    decide +kernel

end Coinpilot.Core
