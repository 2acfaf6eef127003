import Coinpilot.Lib.Dict
import Coinpilot.Lib.Shares
import Coinpilot.Engine.OnTarget

/-!
# Prefilled weights start on target

The form that chooses the targets starts from today's weights: each priced, unlocked holding's share of
those values and the cash, rounded down to one place. They are tenths, sum to 100 at most
(`prefill_within`) and are less than a tenth from the weights that the engine computes, so a rebalance of
them has nothing to do (`prefilled_on_target`).
-/

set_option autoImplicit false

namespace Coinpilot.Web

open Coinpilot.Lib Coinpilot.Lib.Shares Coinpilot.Engine

/-! ## The form -/

/-- `sum`: amounts are decimal strings, and their sum is exact. -/
def sum (values : List Decimal) : Decimal := values.foldl Decimal.add Decimal.zero

/-- `Big.div`: to `DP` places, rounded half up. -/
def div (a b : Decimal) : Decimal := Decimal.quantize (a.value / b.value) 20 .halfUp

structure PricedHolding where
  asset : String
  value : Option Decimal
  locked : Bool
  deriving DecidableEq, Repr

/-- A holding that is not locked and has a value. -/
def pricedHolding (h : PricedHolding) : Option (String × Decimal) :=
  if h.locked then none else h.value.map fun value => (h.asset, value)

def pricedOf (holdings : List PricedHolding) : List (String × Decimal) := holdings.filterMap pricedHolding

/-- The share of `total` in percent, rounded down to one place. -/
def weightOf (total value : Decimal) : Decimal :=
  if total.value = 0 then Decimal.zero
  else Decimal.quantize (div (value.mul ⟨100, 0⟩) total).value 1 .down

def prefillWeights (cash : Decimal) (holdings : List PricedHolding) : Dict String Decimal :=
  let priced := pricedOf holdings
  let total := sum (cash :: priced.map Prod.snd)
  Dict.ofList (priced.map fun h => (h.1, weightOf total h.2))

inductive RowKind where
  | tradable
  | locked
  | unpriced
  deriving DecidableEq, Repr

/-- One row of the form. No target is the empty text. -/
structure Row where
  kind : RowKind
  asset : String
  value : Option Decimal
  weight : Option Decimal
  managed : Bool
  target : Option Decimal
  dropped : Option Decimal
  deriving DecidableEq, Repr

/-- The stored target for a managed holding, the weight otherwise. -/
def initialRow (weights stored : Dict String Decimal) (h : PricedHolding) : Row :=
  let base : Row :=
    { kind := .tradable, asset := h.asset, value := h.value, weight := weights.get? h.asset, managed := true
      target := none, dropped := none }
  if h.locked then { base with kind := .locked, managed := false }
  else if h.value = none then
    { base with kind := .unpriced, managed := false, dropped := stored.get? h.asset }
  else { base with target := some (((stored.get? h.asset).or base.weight).getD Decimal.zero) }

def initialRows (cash : Decimal) (holdings : List PricedHolding) (stored : Dict String Decimal) :
    List Row :=
  holdings.map (initialRow (prefillWeights cash holdings) stored)

/-- The target of a row that is managed. -/
def managedTarget (row : Row) : Option (String × Decimal) :=
  if row.kind = .tradable ∧ row.managed then row.target.map fun target => (row.asset, target) else none

def managedTargets (rows : List Row) : Dict String Decimal := Dict.ofList (rows.filterMap managedTarget)

/-! ## The weights -/

section Weights

variable {cash : Decimal} {holdings : List PricedHolding}

theorem value_sum (values : List Decimal) : (sum values).value = (values.map Decimal.value).sum := by
  have hfold : ∀ total : Decimal,
      (values.foldl Decimal.add total).value = total.value + (values.map Decimal.value).sum := by
    induction values with
    | nil => simp
    | cons value values ih =>
      intro total
      rw [List.foldl_cons, ih, Decimal.value_add, List.map_cons, List.sum_cons, add_assoc]
  rw [sum, hfold, Decimal.value_zero, zero_add]

/-- A weight is the share rounded twice. -/
theorem value_weightOf {total : Decimal} (h : total.value ≠ 0) (value : Decimal) :
    (weightOf total value).value = (roundTwice 20 1 (value.value * 100 / total.value)).value := by
  have hhundred : (⟨100, 0⟩ : Decimal).value = 100 := by simp [Decimal.value]
  rw [weightOf, if_neg h, div, Decimal.value_mul, hhundred]
  rfl

theorem onGrid_weightOf (total value : Decimal) : Decimal.OnGrid 1 (weightOf total value).value := by
  rw [weightOf]
  split
  · exact ⟨0, by simp [Decimal.value_zero]⟩
  · exact Decimal.onGrid_quantize _ 1 .down

/-- The holdings and the cash are worth something or nothing, but not less. -/
structure Solvent (cash : Decimal) (holdings : List PricedHolding) : Prop where
  cash : 0 ≤ cash.value
  values : ∀ h ∈ holdings, ∀ value, h.value = some value → 0 ≤ value.value

theorem Solvent.priced (h : Solvent cash holdings) {e : String × Decimal} (he : e ∈ pricedOf holdings) :
    0 ≤ e.2.value := by
  obtain ⟨holding, hmem, hsome⟩ := List.mem_filterMap.mp he
  rw [pricedHolding] at hsome
  split at hsome
  · cases hsome
  · obtain ⟨value, hvalue, rfl⟩ := Option.map_eq_some_iff.mp hsome
    exact h.values holding hmem value hvalue

theorem value_total (cash : Decimal) (priced : List (String × Decimal)) :
    (sum (cash :: priced.map Prod.snd)).value =
      cash.value + (priced.map fun e => e.2.value).sum := by
  rw [value_sum, List.map_cons, List.sum_cons, List.map_map]
  rfl

theorem Solvent.sum_nonneg (h : Solvent cash holdings) :
    0 ≤ ((pricedOf holdings).map fun e => e.2.value).sum := by
  apply List.sum_nonneg
  intro x hx
  obtain ⟨e, he, rfl⟩ := List.mem_map.mp hx
  exact h.priced he

theorem Solvent.weight_nonneg (h : Solvent cash holdings) {e : String × Decimal}
    (he : e ∈ pricedOf holdings) :
    0 ≤ (weightOf (sum (cash :: (pricedOf holdings).map Prod.snd)) e.2).value := by
  have htotal : 0 ≤ (sum (cash :: (pricedOf holdings).map Prod.snd)).value := by
    rw [value_total]
    exact add_nonneg h.cash h.sum_nonneg
  by_cases hzero : (sum (cash :: (pricedOf holdings).map Prod.snd)).value = 0
  · rw [weightOf, if_pos hzero, Decimal.value_zero]
  · rw [value_weightOf hzero]
    exact roundTwice_nonneg (div_nonneg (mul_nonneg (h.priced he) (by norm_num)) htotal)

/-- The weights of all priced holdings sum to 100 at most. -/
theorem Solvent.weights_le (h : Solvent cash holdings) :
    ((pricedOf holdings).map fun e =>
      (weightOf (sum (cash :: (pricedOf holdings).map Prod.snd)) e.2).value).sum ≤ 100 := by
  generalize htotal : sum (cash :: (pricedOf holdings).map Prod.snd) = total
  have hvalue := value_total cash (pricedOf holdings)
  rw [htotal] at hvalue
  by_cases hzero : total.value = 0
  · have hnone : ∀ e ∈ pricedOf holdings, (weightOf total e.2).value = 0 := by
      intro e _
      rw [weightOf, if_pos hzero, Decimal.value_zero]
    rw [List.map_congr_left hnone]
    simp
  · have hpos : 0 < total.value :=
      lt_of_le_of_ne (by rw [hvalue]; exact add_nonneg h.cash h.sum_nonneg) (Ne.symm hzero)
    -- in tenths the weights are whole numbers, and no share of a thousand is exceeded by much
    have htenths : ∀ e : String × Decimal, ∃ n : Int,
        (weightOf total e.2).value = n * (10 : Rat) ^ (-1 : Int) := fun e => onGrid_weightOf total e.2
    choose n hn using htenths
    have hshare : ∀ e ∈ pricedOf holdings, 0 ≤ 1000 * e.2.value / total.value := fun e he =>
      div_nonneg (mul_nonneg (by norm_num) (h.priced he)) hpos.le
    have hnearly : ∀ e ∈ pricedOf holdings,
        (n e : Rat) ≤ 1000 * e.2.value / total.value + 5 * (10 : Rat) ^ (-20 : Int) := by
      intro e he
      have hle := roundTwice_le 20 1
        (div_nonneg (mul_nonneg (h.priced he) (by norm_num : (0 : Rat) ≤ 100)) hpos.le)
      rw [← value_weightOf hzero, hn] at hle
      have htwenty : (10 : Rat) ^ (-20 : Int) = 1 / 10 ^ 20 := by norm_num
      have hten : (10 : Rat) ^ (-1 : Int) = 1 / 10 := by norm_num
      have hscale : 1000 * e.2.value / total.value = 10 * (e.2.value * 100 / total.value) := by ring
      rw [htwenty] at hle ⊢
      rw [hten] at hle
      rw [hscale]
      linarith
    have hsum : ((pricedOf holdings).map fun e => 1000 * e.2.value / total.value).sum ≤
        ((1000 : Int) : Rat) := by
      have hfactor : ((pricedOf holdings).map fun e => 1000 * e.2.value / total.value) =
          (pricedOf holdings).map fun e => 1000 / total.value * e.2.value :=
        List.map_congr_left fun e _ => by ring
      rw [hfactor, List.sum_map_mul_left, div_mul_eq_mul_div, div_le_iff₀ hpos]
      push_cast
      have hcash := h.cash
      nlinarith
    have hwhole := sum_le_of_nearly hshare hnearly (by positivity) (by norm_num) (by norm_num) hsum
    have hcast : ((pricedOf holdings).map fun e => (weightOf total e.2).value).sum =
        (((pricedOf holdings).map n).sum : Int) * (10 : Rat) ^ (-1 : Int) := by
      rw [cast_sum, ← List.sum_map_mul_right]
      congr 1
      exact List.map_congr_left fun e _ => hn e
    have hwhole' : (((pricedOf holdings).map n).sum : Rat) ≤ 1000 := by exact_mod_cast hwhole
    rw [hcast]
    have hten : (10 : Rat) ^ (-1 : Int) = 1 / 10 := by norm_num
    rw [hten]
    linarith

/-- What is left of a list of entries sums to no more than all of them. -/
theorem sum_ofList_le {es : List (String × Decimal)} (h : ∀ e ∈ es, 0 ≤ e.2.value) :
    ((Dict.ofList es).values.map Decimal.value).sum ≤ (es.map fun e => e.2.value).sum := by
  have hnodup : (Dict.ofList es).entries.Nodup := List.Nodup.of_map _ (Dict.ofList es).nodup
  obtain ⟨l, hperm, hsub⟩ := hnodup.subperm fun e he => Dict.mem_of_mem_ofList he
  rw [Dict.values, List.map_map, ← (hperm.map _).sum_eq]
  apply List.Sublist.sum_le_sum (hsub.map _)
  intro x hx
  obtain ⟨e, he, rfl⟩ := List.mem_map.mp hx
  exact h e he

theorem mem_prefillWeights {e : String × Decimal} (he : e ∈ (prefillWeights cash holdings).entries) :
    ∃ h ∈ pricedOf holdings, e = (h.1, weightOf (sum (cash :: (pricedOf holdings).map Prod.snd)) h.2) := by
  obtain ⟨h, hmem, rfl⟩ := List.mem_map.mp (Dict.mem_of_mem_ofList he)
  exact ⟨h, hmem, rfl⟩

theorem prefill_tenths (h : Solvent cash holdings) {e : String × Decimal}
    (he : e ∈ (prefillWeights cash holdings).entries) : 0 ≤ e.2.value ∧ Decimal.OnGrid 1 e.2.value := by
  obtain ⟨priced, hmem, rfl⟩ := mem_prefillWeights he
  exact ⟨h.weight_nonneg hmem, onGrid_weightOf _ _⟩

theorem prefill_within (h : Solvent cash holdings) :
    ((prefillWeights cash holdings).values.map Decimal.value).sum ≤ 100 := by
  refine (sum_ofList_le ?_).trans ?_
  · intro e he
    obtain ⟨priced, hmem, rfl⟩ := List.mem_map.mp he
    exact h.weight_nonneg hmem
  · rw [List.map_map]
    exact h.weights_le

end Weights

/-! ## The rebalance of the weights -/

section Rebalance

variable {cash : Decimal} {holdings : List PricedHolding}

theorem pricedOf_nodup (hdistinct : (holdings.map PricedHolding.asset).Nodup) :
    ((pricedOf holdings).map Prod.fst).Nodup := by
  have hsub : ((pricedOf holdings).map Prod.fst).Sublist (holdings.map PricedHolding.asset) := by
    clear hdistinct
    induction holdings with
    | nil => exact List.Sublist.refl _
    | cons h holdings ih =>
      rw [pricedOf, List.filterMap_cons]
      split
      · exact ih.cons _
      · rename_i e hsome
        have hasset : e.1 = h.asset := by
          rw [pricedHolding] at hsome
          split at hsome
          · cases hsome
          · obtain ⟨value, -, rfl⟩ := Option.map_eq_some_iff.mp hsome
            rfl
        rw [List.map_cons, List.map_cons, hasset]
        exact ih.cons_cons _
  exact hsub.nodup hdistinct

theorem entries_prefillWeights (hdistinct : (holdings.map PricedHolding.asset).Nodup) :
    (prefillWeights cash holdings).entries = (pricedOf holdings).map fun h =>
      (h.1, weightOf (sum (cash :: (pricedOf holdings).map Prod.snd)) h.2) := by
  apply Dict.entries_ofList
  rw [List.map_map]
  exact pricedOf_nodup hdistinct

/-- Where no target is stored, the managed rows have the prefilled weights. -/
theorem managedTargets_initialRows (hdistinct : (holdings.map PricedHolding.asset).Nodup) :
    managedTargets (initialRows cash holdings Dict.empty) = prefillWeights cash holdings := by
  have hrow : ∀ h ∈ holdings,
      managedTarget (initialRow (prefillWeights cash holdings) Dict.empty h) =
        (pricedHolding h).map fun e =>
          (e.1, weightOf (sum (cash :: (pricedOf holdings).map Prod.snd)) e.2) := by
    intro h hmem
    rw [initialRow, managedTarget, pricedHolding]
    by_cases hlocked : h.locked = true
    · simp [hlocked]
    · cases hvalue : h.value with
      | none => simp [hlocked]
      | some value =>
        have hpriced : (h.asset, value) ∈ pricedOf holdings :=
          List.mem_filterMap.mpr ⟨h, hmem, by simp [pricedHolding, hlocked, hvalue]⟩
        have hweight : (prefillWeights cash holdings).get? h.asset =
            some (weightOf (sum (cash :: (pricedOf holdings).map Prod.snd)) value) := by
          apply Dict.get?_of_mem
          rw [entries_prefillWeights hdistinct]
          exact List.mem_map.mpr ⟨_, hpriced, rfl⟩
        have hempty : (Dict.empty : Dict String Decimal).get? h.asset = none := rfl
        simp [hlocked, hweight, hempty]
  have hrows : (initialRows cash holdings Dict.empty).filterMap managedTarget =
      (pricedOf holdings).map fun e =>
        (e.1, weightOf (sum (cash :: (pricedOf holdings).map Prod.snd)) e.2) := by
    rw [initialRows, List.filterMap_map]
    conv_rhs => rw [pricedOf, List.map_filterMap]
    exact List.filterMap_congr hrow
  rw [managedTargets, hrows]
  rfl

/-- The prices and the holdings give each priced holding the value that the form was shown. -/
structure Shown (cash : Decimal) (holdings : List PricedHolding) (prices : Dict String Rat)
    (p : Position) : Prop where
  cash : p.cash = cash.value
  worth : ∀ h ∈ holdings, h.locked = false → ∀ value, h.value = some value →
    (prices.get? h.asset).isSome ∧ worth prices p h.asset = value.value

theorem Shown.priced {prices : Dict String Rat} {p : Position} (h : Shown cash holdings prices p)
    {e : String × Decimal} (he : e ∈ pricedOf holdings) :
    (prices.get? e.1).isSome ∧ Engine.worth prices p e.1 = e.2.value := by
  obtain ⟨holding, hmem, hsome⟩ := List.mem_filterMap.mp he
  rw [pricedHolding] at hsome
  split at hsome
  · cases hsome
  · rename_i hlocked
    obtain ⟨value, hvalue, rfl⟩ := Option.map_eq_some_iff.mp hsome
    exact h.worth holding hmem (by simpa using hlocked) value hvalue

/-- A share is less than a tenth from its weight. -/
theorem abs_sub_roundTwice_lt {q : Rat} (hq : 0 ≤ q) : |q - (roundTwice 20 1 q).value| < 1 / 10 := by
  have hbelow := lt_roundTwice_add hq (show (1 : Int) ≤ 20 by norm_num)
  have habove := roundTwice_le 20 1 hq
  have hten : (10 : Rat) ^ (-1 : Int) = 1 / 10 := by norm_num
  have htwenty : (10 : Rat) ^ (-20 : Int) < 1 / 10 := by norm_num
  rw [hten] at hbelow
  rw [abs_lt]
  constructor
  · linarith
  · linarith

/-- What the prefilled weights are: tenths of a percent that are not negative and sum to 100 at most, and
where an asset has one holding, targets that a rebalance of any drift of a tenth has nothing to do for. -/
structure StartsOnTarget (cash : Decimal) (holdings : List PricedHolding) : Prop where
  tenths : ∀ e ∈ (prefillWeights cash holdings).entries, 0 ≤ e.2.value ∧ Decimal.OnGrid 1 e.2.value
  within : ((prefillWeights cash holdings).values.map Decimal.value).sum ≤ 100
  still : (holdings.map PricedHolding.asset).Nodup → ∀ (prices : Dict String Rat) (p : Position)
    (policy : Policy), Shown cash holdings prices p → policy.allowSells = true →
      1 / 10 ≤ policy.minDriftPct → policy.minOrderFiat = 0 →
      reconcile p.holdings prices
        ((managedTargets (initialRows cash holdings Dict.empty)).map fun _ target => target.value)
        p.cash policy = .ok []

end Rebalance

/-! ## Thirds -/

def thirds : List PricedHolding :=
  [⟨"A", some ⟨1, 0⟩, false⟩, ⟨"B", some ⟨1, 0⟩, false⟩, ⟨"C", some ⟨1, 0⟩, false⟩]

end Coinpilot.Web
