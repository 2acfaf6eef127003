import Coinpilot.Engine.OnTarget
import Coinpilot.Engine.Allocation
import Coinpilot.Lib.Greedy

/-!
# Spending on the shortfalls

The loop of `allocateReduceDrift` grants the shortfalls in their order (`spend_eq`). The deltas of a
portfolio come to its cash above the cash target (`sum_deltas`), so the shortfalls are at least what there
is to spend and nothing is left over (`leftover_eq`): no asset is bought past its target, all that are
bought but one reach it, and none is bought before one that is further behind
(`reduceDrift_within_targets`).
-/

set_option autoImplicit false

namespace Coinpilot.Engine

open Coinpilot.Lib Coinpilot.Lib.Greedy

/-! ## The order of the shortfalls -/

instance : IsTrans (String × Rat) shortfallBefore where
  trans a b c hab hbc := by
    rcases hab with hlt | ⟨heq, hle⟩
    · rcases hbc with hlt' | ⟨heq', -⟩
      · exact Or.inl (hlt'.trans hlt)
      · exact Or.inl (heq' ▸ hlt)
    · rcases hbc with hlt' | ⟨heq', hle'⟩
      · exact Or.inl (heq ▸ hlt')
      · exact Or.inr ⟨heq.trans heq', String.le_trans hle hle'⟩

instance : Std.Total shortfallBefore where
  total a b := by
    rcases lt_trichotomy a.2 b.2 with hlt | heq | hlt
    · exact Or.inr (Or.inl hlt)
    · rcases String.le_total a.1 b.1 with hle | hle
      · exact Or.inl (Or.inr ⟨heq, hle⟩)
      · exact Or.inr (Or.inr ⟨heq.symm, hle⟩)
    · exact Or.inl (Or.inl hlt)

/-- The assets behind their targets and by how much, the furthest first. -/
def shortfallsOf (assetDeltas : Dict String Rat) : List (String × Rat) :=
  (assetDeltas.filterMap fun _ d => if 0 < d then some d else none).entries.insertionSort shortfallBefore

theorem mem_shortfallsOf {assetDeltas : Dict String Rat} {x : String × Rat} :
    x ∈ shortfallsOf assetDeltas ↔ x ∈ assetDeltas.entries ∧ 0 < x.2 := by
  rw [shortfallsOf, List.mem_insertionSort, Dict.mem_filterMap]
  constructor
  · rintro ⟨d, hd, hkept⟩
    split at hkept
    · rename_i hpos
      obtain rfl := Option.some.inj hkept
      exact ⟨hd, hpos⟩
    · cases hkept
  · rintro ⟨hx, hpos⟩
    exact ⟨x.2, hx, if_pos hpos⟩

theorem shortfallsOf_sorted (assetDeltas : Dict String Rat) :
    (shortfallsOf assetDeltas).Pairwise fun x y => y.2 ≤ x.2 := by
  refine (List.pairwise_insertionSort shortfallBefore _).imp ?_
  rintro x y (hlt | ⟨heq, -⟩)
  · exact hlt.le
  · exact heq.ge

theorem shortfallsOf_nodup (assetDeltas : Dict String Rat) :
    ((shortfallsOf assetDeltas).map Prod.fst).Nodup := by
  rw [shortfallsOf, ((List.perm_insertionSort shortfallBefore _).map Prod.fst).nodup_iff]
  exact Dict.nodup _

/-- The shortfalls are at least the deltas: what is ahead of its target is left out. -/
theorem sum_deltas_le_shortfalls (assetDeltas : Dict String Rat) :
    assetDeltas.values.sum ≤ total (shortfallsOf assetDeltas) := by
  have hperm := (List.perm_insertionSort shortfallBefore
    (assetDeltas.filterMap fun _ d => if 0 < d then some d else none).entries).map Prod.snd
  rw [total, shortfallsOf, hperm.sum_eq]
  simp only [Dict.values, Dict.filterMap]
  induction assetDeltas.entries with
  | nil => exact le_rfl
  | cons e es ih =>
    simp only [Dict.keepEntries, List.filterMap_cons, List.map_cons, List.sum_cons] at ih ⊢
    by_cases hpos : 0 < e.2
    · simp only [hpos, if_true, Option.map_some, List.map_cons, List.sum_cons]
      linarith
    · simp only [hpos, if_false, Option.map_none]
      linarith

/-! ## The loop -/

/-- Spending in order grants the shortfalls in order, after what was allocated before. -/
theorem spend_eq (xs : List (String × Rat)) (remaining : Rat) (allocated : Dict String Rat)
    (hdistinct : ((allocated.entries ++ xs).map Prod.fst).Nodup) :
    (spend xs remaining allocated).1.entries = allocated.entries ++ (grant xs remaining).1 ∧
      (spend xs remaining allocated).2 = (grant xs remaining).2 := by
  induction xs generalizing remaining allocated with
  | nil => simp [spend, grant]
  | cons x xs ih =>
    obtain ⟨asset, shortfall⟩ := x
    rw [spend, grant]
    split
    · simp
    · dsimp only
      generalize (if shortfall ≤ remaining then shortfall else remaining) = take
      -- The asset is new, so it is written after the others.
      have hnew : asset ∉ allocated.entries.map Prod.fst := by
        intro hmem
        rw [List.map_append, List.map_cons] at hdistinct
        exact (List.nodup_append.mp hdistinct).2.2 _ hmem _ List.mem_cons_self rfl
      have hset : (allocated.set asset take).entries = allocated.entries ++ [(asset, take)] :=
        Dict.setEntry_of_notMem hnew
      obtain ⟨hentries, hleft⟩ := ih (remaining - take) (allocated.set asset take) (by
        rw [hset]
        simpa using hdistinct)
      refine ⟨?_, hleft⟩
      rw [hentries, hset, List.append_assoc, List.singleton_append]

/-- What the shortfalls leave of an amount: what is spread in proportion to the targets. -/
def leftover (amount : Rat) (assetDeltas : Dict String Rat) : Rat :=
  (spend (shortfallsOf assetDeltas) amount Dict.empty).2

theorem spend_shortfalls (amount : Rat) (assetDeltas : Dict String Rat) :
    (spend (shortfallsOf assetDeltas) amount Dict.empty).1.entries =
        (grant (shortfallsOf assetDeltas) amount).1 ∧
      leftover amount assetDeltas = (grant (shortfallsOf assetDeltas) amount).2 :=
  spend_eq (shortfallsOf assetDeltas) amount Dict.empty (shortfallsOf_nodup assetDeltas)

theorem granted_shortfalls {amount : Rat} (hamount : 0 ≤ amount) (assetDeltas : Dict String Rat) :
    Granted (shortfallsOf assetDeltas) amount (grant (shortfallsOf assetDeltas) amount).1
      (leftover amount assetDeltas) := by
  rw [(spend_shortfalls amount assetDeltas).2]
  exact granted_grant (fun x hx => (mem_shortfallsOf.mp hx).2) hamount

/-- Without a leftover, the allocation is what was granted of the shortfalls. -/
theorem allocateReduceDrift_eq {amount : Rat} (hamount : 0 ≤ amount) {assetDeltas : Dict String Rat}
    (hleft : leftover amount assetDeltas = 0) (targets : Dict String Rat) :
    (allocateReduceDrift amount assetDeltas targets).entries =
      (grant (shortfallsOf assetDeltas) amount).1 := by
  rw [allocateReduceDrift]
  split
  · rename_i hle
    obtain rfl : amount = 0 := le_antisymm hle hamount
    cases shortfallsOf assetDeltas with
    | nil => rfl
    | cons x xs => simp [grant, Dict.empty]
  · change (if 0 < leftover amount assetDeltas then _ else _ : Dict String Rat).entries = _
    rw [hleft, if_neg (lt_irrefl 0)]
    exact (spend_shortfalls amount assetDeltas).1

/-! ## The deltas of a portfolio -/

/-- What is missing of an asset to its target. Below zero, it is past its target. -/
def shortfall (v : Valuation) (targets : Dict String Rat) (asset : String) : Rat :=
  (targetValues v targets).getD asset 0 - v.assetValues.getD asset 0

theorem mem_deltas {v : Valuation} {targets : Dict String Rat} {x : String × Rat} :
    x ∈ (deltas v targets).entries ↔ x.1 ∈ targets.keys ∧ x.2 = shortfall v targets x.1 := by
  rw [deltas, Dict.mem_map]
  constructor
  · rintro ⟨pct, hmem, hx⟩
    exact ⟨List.mem_map.mpr ⟨_, hmem, rfl⟩, hx.symm⟩
  · rintro ⟨hkey, hx⟩
    obtain ⟨pct, hpct⟩ := Dict.mem_keys_iff.mp hkey
    exact ⟨pct, Dict.mem_of_get? hpct, hx.symm⟩

theorem mem_shortfalls {v : Valuation} {targets : Dict String Rat} {x : String × Rat} :
    x ∈ shortfallsOf (deltas v targets) ↔
      x.1 ∈ targets.keys ∧ x.2 = shortfall v targets x.1 ∧ 0 < x.2 := by
  rw [mem_shortfallsOf, mem_deltas, and_assoc]

section Deltas

variable {holdings prices targets : Dict String Rat} {cash : Rat} {v : Valuation}

theorem priced_of_value (hv : valuePortfolio holdings prices targets cash = .ok v) :
    Priced prices targets := by
  by_contra hunpriced
  obtain ⟨e, he⟩ := @valuePortfolio_error holdings prices targets cash hunpriced
  rw [he] at hv
  cases hv

/-- The managed value is the cash and the value of each configured asset. -/
theorem value_facts (hv : valuePortfolio holdings prices targets cash = .ok v) :
    v.cash = cash ∧ v.managedValue = managedWorth prices targets ⟨holdings, cash⟩ ∧
      ∀ asset ∈ targets.keys, v.assetValues.getD asset 0 = worth prices ⟨holdings, cash⟩ asset := by
  obtain ⟨w, hw, hcash, hmanaged, hworth, -⟩ := valuePortfolio_ok (priced_of_value hv) ⟨holdings, cash⟩
  obtain rfl : w = v := Except.ok.inj (hw.symm.trans hv)
  exact ⟨hcash, hmanaged, hworth⟩

theorem shortfall_eq (hv : valuePortfolio holdings prices targets cash = .ok v) {asset : String}
    (hkey : asset ∈ targets.keys) : shortfall v targets asset =
      v.managedValue * targets.getD asset 0 / 100 - worth prices ⟨holdings, cash⟩ asset := by
  rw [shortfall, targetValues, Dict.getD_map _ hkey 0 0, (value_facts hv).2.2 asset hkey]

/-- The deltas come to the cash above the cash target, or to minus what the cash is short of it. -/
theorem sum_deltas (hv : valuePortfolio holdings prices targets cash = .ok v) :
    (deltas v targets).values.sum = v.cash - v.managedValue * cashTargetPct targets / 100 := by
  obtain ⟨hcash, hmanaged, -⟩ := value_facts hv
  have hvalues : (deltas v targets).values = targets.keys.map fun asset =>
      v.managedValue * targets.getD asset 0 / 100 - worth prices ⟨holdings, cash⟩ asset := by
    rw [deltas, Dict.values_map _ _ 0]
    exact List.map_congr_left fun asset hkey => shortfall_eq hv hkey
  have hsum : ∀ keys : List String, (keys.map fun asset =>
      v.managedValue * targets.getD asset 0 / 100 - worth prices ⟨holdings, cash⟩ asset).sum =
        v.managedValue * (keys.map fun asset => targets.getD asset 0).sum / 100 -
          (keys.map (worth prices ⟨holdings, cash⟩)).sum := by
    intro keys
    induction keys with
    | nil => simp
    | cons k ks ih =>
      simp only [List.map_cons, List.sum_cons, ih]
      ring
  rw [hvalues, hsum, ← Dict.values_eq, cashTargetPct, hcash]
  -- What the assets are worth is the managed value without the cash.
  have hworth : (targets.keys.map (worth prices ⟨holdings, cash⟩)).sum = v.managedValue - cash := by
    rw [hmanaged, managedWorth]
    ring
  rw [hworth]
  ring

theorem investableCash_eq (v : Valuation) (targets : Dict String Rat) : investableCash v targets =
    max 0 (v.cash - v.managedValue * cashTargetPct targets / 100) := by
  rw [investableCash]
  split
  · rename_i hpos
    rw [max_eq_right hpos.le]
  · rename_i hneg
    rw [max_eq_left (not_lt.mp hneg)]

/-- The shortfalls use up the cash there is to spend: nothing is left to spread over the targets. -/
theorem leftover_eq (hv : valuePortfolio holdings prices targets cash = .ok v) :
    leftover (investableCash v targets) (deltas v targets) = 0 := by
  have hnonneg : 0 ≤ investableCash v targets := by
    rw [investableCash_eq]
    exact le_max_left _ _
  refine (granted_shortfalls hnonneg _).left_eq ?_
  have hdeltas := sum_deltas_le_shortfalls (deltas v targets)
  rw [sum_deltas hv] at hdeltas
  rw [investableCash_eq]
  refine max_le ?_ hdeltas
  refine List.sum_nonneg ?_
  intro d hd
  obtain ⟨x, hx, rfl⟩ := List.mem_map.mp hd
  exact (mem_shortfallsOf.mp hx).2.le

/-- With `REDUCE_DRIFT` and no sells, the amounts are what the investable cash grants of the shortfalls. -/
theorem granted_amounts (hv : valuePortfolio holdings prices targets cash = .ok v) {policy : Policy}
    (hsells : policy.allowSells = false) (hdrift : policy.cashPolicy = .reduceDrift) :
    Granted (shortfallsOf (deltas v targets)) (investableCash v targets)
      (amounts policy v targets).entries 0 := by
  have hnonneg : 0 ≤ investableCash v targets := by
    rw [investableCash_eq]
    exact le_max_left _ _
  have hgranted := granted_shortfalls hnonneg (deltas v targets)
  rw [leftover_eq hv, ← allocateReduceDrift_eq hnonneg (leftover_eq hv) targets] at hgranted
  simpa [amounts, hsells, hdrift] using hgranted

end Deltas

/-! ## The legs -/

theorem mem_legs {holdings prices targets : Dict String Rat} {cash : Rat} {v : Valuation} {policy : Policy}
    (hv : valuePortfolio holdings prices targets cash = .ok v) {legs : List Leg}
    (h : reconcile holdings prices targets cash policy = .ok legs) {leg : Leg} :
    leg ∈ legs ↔ ∃ e ∈ (amounts policy v targets).entries, legOf policy e.1 e.2 = some leg := by
  rw [reconcile_of_value hv] at h
  obtain rfl := Except.ok.inj h
  rw [List.mem_insertionSort, List.mem_filterMap]

/-- An amount that is bought has a leg if it is not below the smallest order. -/
theorem legOf_buy {policy : Policy} {asset : String} {amount : Rat} (hpos : 0 < amount)
    (hmin : policy.minOrderFiat ≤ amount) : legOf policy asset amount = some ⟨asset, .buy, amount⟩ := by
  have hlarge : ¬(|amount| < policy.minOrderFiat ∨ |amount| = 0) := by
    rw [abs_of_pos hpos, not_or, not_lt]
    exact ⟨hmin, hpos.ne'⟩
  rw [legOf, if_neg hlarge, if_pos hpos, abs_of_pos hpos]

theorem legOf_pos {policy : Policy} {asset : String} {amount : Rat} (hpos : 0 < amount) {leg : Leg}
    (h : legOf policy asset amount = some leg) :
    leg = ⟨asset, .buy, amount⟩ ∧ policy.minOrderFiat ≤ amount := by
  have hmin : policy.minOrderFiat ≤ amount := by
    by_contra hsmall
    rw [legOf, if_pos (Or.inl (by rw [abs_of_pos hpos]; exact not_le.mp hsmall))] at h
    cases h
  rw [legOf_buy hpos hmin] at h
  exact ⟨(Option.some.inj h).symm, hmin⟩

/-- Buying at the given prices keeps the managed value and adds each amount to its asset. -/
theorem bought_value {prices targets : Dict String Rat} {p : Position} {legs : List Leg}
    (hpriced : Priced prices targets) (hprices : ∀ asset ∈ targets.keys, prices.getD asset 0 ≠ 0)
    (hdistinct : (legs.map Leg.asset).Nodup) (hconfigured : ∀ leg ∈ legs, leg.asset ∈ targets.keys)
    (hbuys : ∀ leg ∈ legs, leg.side = .buy) {v : Valuation}
    (hv : valuePortfolio p.holdings prices targets p.cash = .ok v) :
    ∃ v', valuePortfolio (applyLegs prices legs p).holdings prices targets (applyLegs prices legs p).cash =
        .ok v' ∧ v'.cash = (applyLegs prices legs p).cash ∧ v'.managedValue = v.managedValue ∧
      ∀ leg ∈ legs, v'.assetValues.getD leg.asset 0 = v.assetValues.getD leg.asset 0 + leg.amountFiat := by
  have htradable : Tradable prices targets legs := fun leg hleg =>
    ⟨hconfigured leg hleg, hprices _ (hconfigured leg hleg)⟩
  obtain ⟨-, hmanaged, hworth⟩ := value_facts hv
  obtain ⟨v', hv', hcash', hmanaged', hworth', -⟩ := valuePortfolio_ok hpriced (applyLegs prices legs p)
  refine ⟨v', hv', hcash', ?_, ?_⟩
  · rw [hmanaged', managedWorth_applyLegs p htradable, hmanaged]
  · intro leg hleg
    have hkey := hconfigured leg hleg
    have hinflow : leg.inflow = leg.amountFiat := by rw [Leg.inflow, hbuys leg hleg]
    rw [hworth' _ hkey, worth_applyLegs p hdistinct htradable hleg, hinflow, hworth _ hkey]

/-- An investment with `REDUCE_DRIFT` buys only assets behind their targets and none past its target, all
but one of the bought assets end on target, and an asset that is not bought is no further behind than one
that is. The shortfalls take all there is to spend, so nothing is left over to spread. -/
theorem reduceDrift_within_targets {policy : Policy} (hsells : policy.allowSells = false)
    (hdrift : policy.cashPolicy = .reduceDrift) {prices targets : Dict String Rat} {p : Position}
    {legs : List Leg} (h : reconcile p.holdings prices targets p.cash policy = .ok legs) :
    ∃ v, valuePortfolio p.holdings prices targets p.cash = .ok v ∧
      (∀ leg ∈ legs, leg.side = .buy ∧ leg.asset ∈ targets.keys ∧
        leg.amountFiat ≤ shortfall v targets leg.asset) ∧
      (∀ asset, shortfall v targets asset ≤ 0 → ∀ leg ∈ legs, leg.asset ≠ asset) ∧
      (∀ leg ∈ legs, ∀ other ∈ legs,
        v.assetValues.getD leg.asset 0 + leg.amountFiat ≠ (targetValues v targets).getD leg.asset 0 →
        v.assetValues.getD other.asset 0 + other.amountFiat ≠ (targetValues v targets).getD other.asset 0 →
        leg = other) ∧
      (∀ leg ∈ legs, ∀ asset ∈ targets.keys, (∀ other ∈ legs, other.asset ≠ asset) →
        shortfall v targets asset ≤ shortfall v targets leg.asset) ∧
      leftover (investableCash v targets) (deltas v targets) = 0 ∧
      ((∀ asset ∈ targets.keys, prices.getD asset 0 ≠ 0) → ∃ q v', q = applyLegs prices legs p ∧
        valuePortfolio q.holdings prices targets q.cash = .ok v' ∧ v'.managedValue = v.managedValue ∧
        ∀ leg ∈ legs, v'.assetValues.getD leg.asset 0 =
          v.assetValues.getD leg.asset 0 + leg.amountFiat) := by
  obtain ⟨v, hv⟩ : ∃ v, valuePortfolio p.holdings prices targets p.cash = .ok v := by
    cases hv : valuePortfolio p.holdings prices targets p.cash with
    | ok v => exact ⟨v, rfl⟩
    | error e =>
      rw [reconcile, hv] at h
      cases h
  have hgranted := granted_amounts hv hsells hdrift
  have hpos : ∀ x ∈ shortfallsOf (deltas v targets), 0 < x.2 := fun x hx => (mem_shortfallsOf.mp hx).2
  have hdistinct := (reconcile_legs h).2
  -- The amount of a leg, and where its asset stands among the shortfalls.
  have hleg : ∀ leg ∈ legs, leg.side = .buy ∧ leg.asset ∈ targets.keys ∧
      (leg.asset, leg.amountFiat) ∈ (amounts policy v targets).entries ∧
      policy.minOrderFiat ≤ leg.amountFiat ∧ leg.amountFiat ≤ shortfall v targets leg.asset ∧
      0 < leg.amountFiat ∧ ∀ y ∈ shortfallsOf (deltas v targets), shortfall v targets leg.asset < y.2 →
        y ∈ (amounts policy v targets).entries := by
    intro leg hmem
    obtain ⟨e, he, hof⟩ := (mem_legs hv h).mp hmem
    obtain ⟨d, hd, hegt, hle, hfirst⟩ := hgranted.first hpos (shortfallsOf_sorted _) he
    obtain ⟨rfl, hmin⟩ := legOf_pos hegt hof
    obtain ⟨hkey, hd, -⟩ := mem_shortfalls.mp hd
    dsimp only at hkey hd
    subst hd
    exact ⟨rfl, hkey, he, hmin, hle, hegt, hfirst⟩
  refine ⟨v, hv, ?_, ?_, ?_, ?_, leftover_eq hv, ?_⟩
  · intro leg hmem
    obtain ⟨hbuy, hkey, -, -, hle, -, -⟩ := hleg leg hmem
    exact ⟨hbuy, hkey, hle⟩
  · rintro asset hbehind leg hmem rfl
    obtain ⟨-, -, -, -, hle, hgt, -⟩ := hleg leg hmem
    exact absurd (hgt.trans_le hle) (not_lt.mpr hbehind)
  · -- Two legs off target would both be the demand that was granted in part.
    intro leg hmem other hother hoff hoff'
    have hoffgoal : ∀ l ∈ legs, v.assetValues.getD l.asset 0 + l.amountFiat ≠
        (targetValues v targets).getD l.asset 0 →
        (l.asset, l.amountFiat) ∉ shortfallsOf (deltas v targets) := by
      intro l hl hne hin
      have hamount : l.amountFiat = shortfall v targets l.asset := (mem_shortfalls.mp hin).2.1
      rw [hamount, shortfall, add_sub_cancel] at hne
      exact hne rfl
    have hsame := hgranted.one_short (hleg leg hmem).2.2.1 (hleg other hother).2.2.1
      (hoffgoal leg hmem hoff) (hoffgoal other hother hoff')
    have hside : leg.side = other.side := (hleg leg hmem).1.trans (hleg other hother).1.symm
    cases leg
    cases other
    simp_all
  · intro leg hmem asset hkey hunbought
    by_contra hfurther
    rw [not_le] at hfurther
    obtain ⟨-, -, -, hmin, hle, hgt, hfirst⟩ := hleg leg hmem
    have hfar : 0 < shortfall v targets asset := hgt.trans (hle.trans_lt hfurther)
    have hbought := hfirst (asset, shortfall v targets asset)
      (mem_shortfalls.mpr ⟨hkey, rfl, hfar⟩) hfurther
    refine hunbought ⟨asset, .buy, shortfall v targets asset⟩ ?_ rfl
    exact (mem_legs hv h).mpr ⟨_, hbought, legOf_buy hfar (hmin.trans (hle.trans hfurther.le))⟩
  · intro hprices
    obtain ⟨v', hv', -, hmanaged', hvalues'⟩ := bought_value (priced_of_value hv) hprices hdistinct
      (fun leg hmem => (hleg leg hmem).2.1) (fun leg hmem => (hleg leg hmem).1) hv
    exact ⟨_, v', rfl, hv', hmanaged', hvalues'⟩

/-- An asset worth 600 of a target of 500, one worth 100 of a target of 300, and 300 in cash. -/
def oneBehind : Position := ⟨Dict.ofList [("XBT", 2), ("ETH", 10)], 300⟩

def furthestFirst : Policy := ⟨false, .reduceDrift, 0, 0⟩

/-- The asset that is behind gets the free cash and stays short of its target. -/
theorem reduceDrift_within_targets_oneBehind :
    reconcile oneBehind.holdings twoPrices halfAndThird oneBehind.cash furthestFirst =
        .ok [⟨"ETH", .buy, 100⟩] ∧
      ∃ v, valuePortfolio oneBehind.holdings twoPrices halfAndThird oneBehind.cash = .ok v ∧
        100 ≤ shortfall v halfAndThird "ETH" ∧
        leftover (investableCash v halfAndThird) (deltas v halfAndThird) = 0 := by
  have hbuy : reconcile oneBehind.holdings twoPrices halfAndThird oneBehind.cash furthestFirst =
      .ok [⟨"ETH", .buy, 100⟩] := by decide +kernel
  obtain ⟨v, hv, hlegs, -, -, -, hleft, -⟩ :=
    reduceDrift_within_targets (show furthestFirst.allowSells = false from rfl) rfl hbuy
  exact ⟨hbuy, v, hv, (hlegs _ List.mem_cons_self).2.2, hleft⟩

end Coinpilot.Engine
