import Coinpilot.Engine.Invested

/-!
# What pays for the buys of a rebalance

The gaps of all assets come to the cash above the cash target (`sum_deltas`), so a rebalance that closes
every gap pays for itself. One that leaves assets out does not close their gaps: its buys less its sells
are the cash above the target less the gaps left out (`bought_sub_sold`). An asset is left out where it has
drifted too little or its leg would be too small (`mem_leftOut`).
-/

set_option autoImplicit false

namespace Coinpilot.Engine

open Coinpilot.Lib

/-- What the buys of a plan come to. -/
def bought (legs : List Leg) : Rat := ((legs.filter fun leg => leg.side = .buy).map Leg.amountFiat).sum

/-- What the sells of a plan come to. -/
def sold (legs : List Leg) : Rat := ((legs.filter fun leg => leg.side = .sell).map Leg.amountFiat).sum

theorem bought_sub_sold_eq (legs : List Leg) : bought legs - sold legs = (legs.map Leg.inflow).sum := by
  induction legs with
  | nil => simp [bought, sold]
  | cons leg legs ih =>
    rw [bought, sold] at ih ⊢
    rw [List.map_cons, List.sum_cons, ← ih]
    cases hside : leg.side with
    | buy =>
      simp only [List.filter_cons, hside, Leg.inflow, decide_true, if_true, List.map_cons, List.sum_cons,
        reduceCtorEq, decide_false, Bool.false_eq_true, if_false]
      ring
    | sell =>
      simp only [List.filter_cons, hside, Leg.inflow, decide_true, if_true, List.map_cons, List.sum_cons,
        reduceCtorEq, decide_false, Bool.false_eq_true, if_false]
      ring

/-- The configured assets that a plan leaves as they are. -/
def leftOut (targets : Dict String Rat) (legs : List Leg) : List String :=
  targets.keys.filter fun asset => asset ∉ legs.map Leg.asset

/-- What is missing of the assets left out to their targets, those past their targets as less than
nothing. -/
def gapsLeft (v : Valuation) (targets : Dict String Rat) (legs : List Leg) : Rat :=
  ((leftOut targets legs).map fun asset => (deltas v targets).getD asset 0).sum

section Plan

variable {holdings prices targets : Dict String Rat} {cash : Rat} {v : Valuation} {policy : Policy}
  {legs : List Leg}

/-- A leg of a rebalance closes the gap of an asset that has drifted far enough and is far enough off. -/
theorem leg_moves (hsells : policy.allowSells = true)
    (hv : valuePortfolio holdings prices targets cash = .ok v)
    (h : reconcile holdings prices targets cash policy = .ok legs) {leg : Leg} (hleg : leg ∈ legs) :
    Moves policy v targets leg.asset ∧ policy.minOrderFiat ≤ |(deltas v targets).getD leg.asset 0| ∧
      leg.inflow = (deltas v targets).getD leg.asset 0 := by
  obtain ⟨e, he, hof⟩ := (mem_legs hv h).mp hleg
  obtain ⟨hkey, hdrift, hamount⟩ := (mem_amounts hsells).mp he
  rw [legOf] at hof
  split at hof
  · cases hof
  · rename_i hlarge
    obtain rfl := Option.some.inj hof
    rw [not_or, not_lt] at hlarge
    dsimp only
    rw [← hamount]
    refine ⟨⟨hkey, hdrift, ?_⟩, hlarge.1, ?_⟩
    · rw [← hamount]
      exact fun hzero => hlarge.2 (abs_eq_zero.mpr hzero)
    · by_cases hpos : 0 < e.2
      · simp [Leg.inflow, hpos, abs_of_pos hpos]
      · simp [Leg.inflow, hpos, abs_of_nonpos (not_lt.mp hpos)]

theorem leg_of_moves (hsells : policy.allowSells = true)
    (hv : valuePortfolio holdings prices targets cash = .ok v)
    (h : reconcile holdings prices targets cash policy = .ok legs) {asset : String}
    (hmoves : Moves policy v targets asset)
    (hlarge : policy.minOrderFiat ≤ |(deltas v targets).getD asset 0|) : asset ∈ legs.map Leg.asset := by
  obtain ⟨hkey, hdrift, hne⟩ := hmoves
  have hamount : (asset, (deltas v targets).getD asset 0) ∈ (amounts policy v targets).entries :=
    (mem_amounts hsells).mpr ⟨hkey, hdrift, rfl⟩
  generalize (deltas v targets).getD asset 0 = gap at hamount hlarge hne
  have hsome : ¬(|gap| < policy.minOrderFiat ∨ |gap| = 0) := by
    rw [not_or, not_lt]
    exact ⟨hlarge, fun hzero => hne (abs_eq_zero.mp hzero)⟩
  refine List.mem_map.mpr ⟨⟨asset, if 0 < gap then .buy else .sell, |gap|⟩, ?_, rfl⟩
  exact (mem_legs hv h).mpr ⟨_, hamount, if_neg hsome⟩

/-- An asset is left out where its drift is below the least drift or its gap below the smallest order, or
where it is on target. -/
theorem mem_leftOut (hsells : policy.allowSells = true)
    (hv : valuePortfolio holdings prices targets cash = .ok v)
    (h : reconcile holdings prices targets cash policy = .ok legs) {asset : String} :
    asset ∈ leftOut targets legs ↔ asset ∈ targets.keys ∧
      (|(drifts v targets).getD asset 0| < policy.minDriftPct ∨
        |(deltas v targets).getD asset 0| < policy.minOrderFiat ∨ (deltas v targets).getD asset 0 = 0) := by
  rw [leftOut, List.mem_filter, decide_eq_true_iff]
  refine and_congr_right ?_
  intro hkey
  constructor
  · intro hout
    by_contra hkept
    rw [not_or, not_or, not_lt, not_lt] at hkept
    exact hout (leg_of_moves hsells hv h ⟨hkey, hkept.1, hkept.2.2⟩ hkept.2.1)
  · intro hdropped hin
    obtain ⟨leg, hleg, rfl⟩ := List.mem_map.mp hin
    obtain ⟨⟨-, hdrift, hne⟩, hlarge, -⟩ := leg_moves hsells hv h hleg
    rcases hdropped with hsmall | hsmall | hzero
    · exact absurd hdrift (not_le.mpr hsmall)
    · exact absurd hlarge (not_le.mpr hsmall)
    · exact hne hzero

/-- The buys less the sells are the cash above its target less the gaps left out. -/
theorem bought_sub_sold (hsells : policy.allowSells = true)
    (hv : valuePortfolio holdings prices targets cash = .ok v)
    (h : reconcile holdings prices targets cash policy = .ok legs) :
    bought legs - sold legs = cash - cashTargetValue v targets - gapsLeft v targets legs := by
  have hinflow : (legs.map Leg.inflow).sum =
      ((legs.map Leg.asset).map fun asset => (deltas v targets).getD asset 0).sum := by
    rw [List.map_map]
    refine congrArg List.sum (List.map_congr_left ?_)
    intro leg hleg
    exact (leg_moves hsells hv h hleg).2.2
  -- The assets with a leg are the configured ones that are not left out.
  have hperm : (legs.map Leg.asset).Perm (targets.keys.filter fun asset => asset ∈ legs.map Leg.asset) := by
    have hkeys : targets.keys.Nodup := targets.nodup
    rw [List.perm_ext_iff_of_nodup (reconcile_legs h).2 (hkeys.filter _)]
    intro asset
    rw [List.mem_filter, decide_eq_true_iff]
    constructor
    · intro hin
      obtain ⟨leg, hleg, rfl⟩ := List.mem_map.mp hin
      exact ⟨(leg_moves hsells hv h hleg).1.1, hin⟩
    · rintro ⟨-, hin⟩
      exact hin
  have hsplit : ((targets.keys.filter fun asset => asset ∈ legs.map Leg.asset).map fun asset =>
      (deltas v targets).getD asset 0).sum + gapsLeft v targets legs =
      (targets.keys.map fun asset => (deltas v targets).getD asset 0).sum := by
    rw [gapsLeft, leftOut, ← List.sum_append, ← List.map_append]
    refine List.Perm.sum_eq (List.Perm.map _ ?_)
    simpa only [decide_not] using
      List.filter_append_perm (fun asset => decide (asset ∈ legs.map Leg.asset)) targets.keys
  have hall := sum_deltas hv
  have hkeys : (deltas v targets).keys = targets.keys := by rw [deltas, Dict.keys_map]
  rw [Dict.values_eq _ 0, hkeys, (value_facts hv).1] at hall
  rw [bought_sub_sold_eq, hinflow, (hperm.map _).sum_eq, cashTargetValue, ← hall]
  linarith

/-- The buys are paid by the free cash and the sells where the gaps left out are at least what the cash is
short of its target. -/
theorem pays_iff (hsells : policy.allowSells = true)
    (hv : valuePortfolio holdings prices targets cash = .ok v)
    (h : reconcile holdings prices targets cash policy = .ok legs) :
    bought legs ≤ investableCash v targets + sold legs ↔
      min 0 (cash - cashTargetValue v targets) ≤ gapsLeft v targets legs := by
  have hbalance := bought_sub_sold hsells hv h
  have hfree : investableCash v targets = max 0 (cash - cashTargetValue v targets) := by
    rw [investableCash_eq, (value_facts hv).1, cashTargetValue]
  -- A number is what it is above zero and what it is below zero.
  have hparts := min_add_max 0 (cash - cashTargetValue v targets)
  rw [hfree]
  constructor
  · intro hle
    linarith
  · intro hle
    linarith

/-- Where no asset off target is left out, the buys are paid. -/
theorem pays_of_complete (hsells : policy.allowSells = true)
    (hv : valuePortfolio holdings prices targets cash = .ok v)
    (h : reconcile holdings prices targets cash policy = .ok legs)
    (hcomplete : ∀ asset ∈ leftOut targets legs, (deltas v targets).getD asset 0 = 0) :
    bought legs ≤ investableCash v targets + sold legs := by
  have hzero : gapsLeft v targets legs = 0 := by
    rw [gapsLeft, List.map_congr_left hcomplete]
    simp
  rw [pays_iff hsells hv h, hzero]
  exact min_le_left _ _

end Plan

end Coinpilot.Engine
