import Coinpilot.Core.FreeCash
import Coinpilot.Engine.Shortfalls

/-!
# Every balance is counted once

Each key of the balances has one place (`placeOf`): the cash, the asset it can be traded as, or what is
locked under its label. The view shows what the balances of a place come to, and each place once
(`view_counts_once`). Places that come to nothing are not shown unless their asset is configured.
-/

set_option autoImplicit false

namespace Coinpilot.Core

open Coinpilot.Lib Coinpilot.Exchange Coinpilot.Engine

/-! ## Places -/

/-- Where the amount under a balance key counts. -/
inductive Place where
  | cash
  | held (asset : String)
  | locked (label : String)
  deriving DecidableEq, Repr

def placeOf (names : Dict String String) (fiat key : String) : Place :=
  let (name, suffix) := splitBalanceKey key names
  if suffix ∈ TRADABLE_SUFFIXES then (if name = fiat then .cash else .held name)
  else .locked (name ++ "." ++ suffix)

section Place

variable {names : Dict String String} {key : String}

theorem placeOf_tradable (fiat : String) (h : (splitBalanceKey key names).2 ∈ TRADABLE_SUFFIXES) :
    placeOf names fiat key =
      if (splitBalanceKey key names).1 = fiat then .cash else .held (splitBalanceKey key names).1 := by
  rw [placeOf]
  generalize splitBalanceKey key names = split at h
  obtain ⟨name, suffix⟩ := split
  exact if_pos h

theorem placeOf_locked (fiat : String) (h : (splitBalanceKey key names).2 ∉ TRADABLE_SUFFIXES) :
    placeOf names fiat key =
      .locked ((splitBalanceKey key names).1 ++ "." ++ (splitBalanceKey key names).2) := by
  rw [placeOf]
  generalize splitBalanceKey key names = split at h
  obtain ⟨name, suffix⟩ := split
  exact if_neg h

theorem placeOf_ne_locked {fiat : String} (h : (splitBalanceKey key names).2 ∈ TRADABLE_SUFFIXES)
    (label : String) : placeOf names fiat key ≠ .locked label := by
  rw [placeOf_tradable fiat h]
  split
  · rintro ⟨⟩
  · rintro ⟨⟩

end Place

/-- What the balances of one place come to. -/
def counted (names : Dict String String) (fiat : String) (balances : Dict String Decimal) (place : Place) :
    Rat :=
  ((balances.entries.filter fun e => placeOf names fiat e.1 = place).map fun e => e.2.value).sum

theorem counted_nonneg {balances : Dict String Decimal} (h : ∀ e ∈ balances.entries, 0 ≤ e.2.value)
    (names : Dict String String) (fiat : String) (place : Place) : 0 ≤ counted names fiat balances place := by
  refine List.sum_nonneg ?_
  intro x hx
  obtain ⟨e, he, rfl⟩ := List.mem_map.mp hx
  exact h e (List.mem_of_mem_filter he)

/-! ## Adding up -/

theorem getD_addTo (d : Dict String Decimal) (key other : String) (amount : Decimal) :
    ((addTo d key amount).getD other .zero).value =
      (d.getD other .zero).value + if other = key then amount.value else 0 := by
  rw [addTo, Dict.getD, Dict.get?_set]
  by_cases hkey : other = key
  · subst hkey
    simp
  · simp [hkey, Dict.getD]

/-- One balance entry goes to the tradable amounts or to the locked ones. -/
def splitEntry (names : Dict String String) (split : Dict String Decimal × Dict String Decimal)
    (e : String × Decimal) : Dict String Decimal × Dict String Decimal :=
  let (name, suffix) := splitBalanceKey e.1 names
  if suffix ∈ TRADABLE_SUFFIXES then (addTo split.1 name e.2, split.2)
  else (split.1, addTo split.2 (name ++ "." ++ suffix) e.2)

theorem splitEntry_tradable {names : Dict String String} {e : String × Decimal}
    (h : (splitBalanceKey e.1 names).2 ∈ TRADABLE_SUFFIXES)
    (split : Dict String Decimal × Dict String Decimal) :
    splitEntry names split e = (addTo split.1 (splitBalanceKey e.1 names).1 e.2, split.2) := by
  rw [splitEntry]
  generalize splitBalanceKey e.1 names = found at h
  obtain ⟨name, suffix⟩ := found
  exact if_pos h

theorem splitEntry_locked {names : Dict String String} {e : String × Decimal}
    (h : (splitBalanceKey e.1 names).2 ∉ TRADABLE_SUFFIXES)
    (split : Dict String Decimal × Dict String Decimal) :
    splitEntry names split e = (split.1,
      addTo split.2 ((splitBalanceKey e.1 names).1 ++ "." ++ (splitBalanceKey e.1 names).2) e.2) := by
  rw [splitEntry]
  generalize splitBalanceKey e.1 names = found at h
  obtain ⟨name, suffix⟩ := found
  exact if_neg h

theorem splitBalances_eq (balances : Dict String Decimal) (names : Dict String String) :
    splitBalances balances names = balances.entries.foldl (splitEntry names) (Dict.empty, Dict.empty) := rfl

/-- The amount under which a tradable key is added up. -/
def tradableAs (names : Dict String String) (name key : String) : Prop :=
  (splitBalanceKey key names).2 ∈ TRADABLE_SUFFIXES ∧ (splitBalanceKey key names).1 = name

instance (names : Dict String String) (name key : String) : Decidable (tradableAs names name key) :=
  inferInstanceAs (Decidable (_ ∧ _))

theorem foldl_tradable (names : Dict String String) (name : String) (es : List (String × Decimal))
    (split : Dict String Decimal × Dict String Decimal) :
    ((es.foldl (splitEntry names) split).1.getD name .zero).value = (split.1.getD name .zero).value +
      ((es.filter fun e => tradableAs names name e.1).map fun e => e.2.value).sum := by
  induction es generalizing split with
  | nil => simp
  | cons e es ih =>
    rw [List.foldl_cons, ih, List.filter_cons]
    by_cases hsuffix : (splitBalanceKey e.1 names).2 ∈ TRADABLE_SUFFIXES
    · rw [splitEntry_tradable hsuffix, getD_addTo]
      by_cases hname : (splitBalanceKey e.1 names).1 = name
      · have hhere : tradableAs names name e.1 := ⟨hsuffix, hname⟩
        simp only [hhere, hname, decide_true, if_true, List.map_cons, List.sum_cons]
        ring
      · have hnot : ¬tradableAs names name e.1 := fun h => hname h.2
        have hne : name ≠ (splitBalanceKey e.1 names).1 := fun h => hname h.symm
        simp only [hnot, hne, decide_false, Bool.false_eq_true, if_false, add_zero]
    · have hnot : ¬tradableAs names name e.1 := fun h => hsuffix h.1
      rw [splitEntry_locked hsuffix]
      simp only [hnot, decide_false, Bool.false_eq_true, if_false]

theorem foldl_locked (names : Dict String String) (fiat label : String) (es : List (String × Decimal))
    (split : Dict String Decimal × Dict String Decimal) :
    ((es.foldl (splitEntry names) split).2.getD label .zero).value = (split.2.getD label .zero).value +
      ((es.filter fun e => placeOf names fiat e.1 = .locked label).map fun e => e.2.value).sum := by
  induction es generalizing split with
  | nil => simp
  | cons e es ih =>
    rw [List.foldl_cons, ih, List.filter_cons]
    by_cases hsuffix : (splitBalanceKey e.1 names).2 ∈ TRADABLE_SUFFIXES
    · rw [splitEntry_tradable hsuffix]
      simp only [placeOf_ne_locked hsuffix, decide_false, Bool.false_eq_true, if_false]
    · rw [splitEntry_locked hsuffix, placeOf_locked fiat hsuffix, getD_addTo]
      generalize (splitBalanceKey e.1 names).1 ++ "." ++ (splitBalanceKey e.1 names).2 = here
      by_cases hlabel : here = label
      · subst hlabel
        simp only [decide_true, if_true, List.map_cons, List.sum_cons]
        ring
      · have hne : label ≠ here := fun h => hlabel h.symm
        have hplace : Place.locked here ≠ .locked label := fun h => hlabel (Place.locked.inj h)
        simp only [hne, hplace, decide_false, Bool.false_eq_true, if_false, add_zero]

section Split

variable (balances : Dict String Decimal) (names : Dict String String) (fiat : String)

theorem cash_counted :
    ((splitBalances balances names).1.getD fiat .zero).value = counted names fiat balances .cash := by
  rw [splitBalances_eq, foldl_tradable, counted]
  have hsame : (fun e : String × Decimal => decide (tradableAs names fiat e.1)) =
      fun e => decide (placeOf names fiat e.1 = .cash) := by
    funext e
    rw [decide_eq_decide, tradableAs]
    by_cases hsuffix : (splitBalanceKey e.1 names).2 ∈ TRADABLE_SUFFIXES
    · rw [placeOf_tradable fiat hsuffix]
      by_cases hname : (splitBalanceKey e.1 names).1 = fiat
      · simp [hsuffix, hname]
      · simp [hname]
    · rw [placeOf_locked fiat hsuffix]
      simp [hsuffix]
  rw [hsame]
  simp [Dict.getD, Dict.get?, Dict.empty, Decimal.value_zero]

theorem held_counted {asset : String} (hasset : asset ≠ fiat) :
    ((splitBalances balances names).1.getD asset .zero).value =
      counted names fiat balances (.held asset) := by
  rw [splitBalances_eq, foldl_tradable, counted]
  have hsame : (fun e : String × Decimal => decide (tradableAs names asset e.1)) =
      fun e => decide (placeOf names fiat e.1 = .held asset) := by
    funext e
    rw [decide_eq_decide, tradableAs]
    by_cases hsuffix : (splitBalanceKey e.1 names).2 ∈ TRADABLE_SUFFIXES
    · rw [placeOf_tradable fiat hsuffix]
      by_cases hname : (splitBalanceKey e.1 names).1 = fiat
      · simp [hname, hasset.symm]
      · simp [hsuffix, hname]
    · rw [placeOf_locked fiat hsuffix]
      simp [hsuffix]
  rw [hsame]
  simp [Dict.getD, Dict.get?, Dict.empty, Decimal.value_zero]

theorem locked_counted (label : String) :
    ((splitBalances balances names).2.getD label .zero).value =
      counted names fiat balances (.locked label) := by
  rw [splitBalances_eq, foldl_locked names fiat, counted]
  simp [Dict.getD, Dict.get?, Dict.empty, Decimal.value_zero]

/-- No balance is held as the fiat: it is cash. -/
theorem counted_fiat : counted names fiat balances (.held fiat) = 0 := by
  have hnone : balances.entries.filter (fun e => placeOf names fiat e.1 = .held fiat) = [] := by
    refine List.filter_eq_nil_iff.mpr ?_
    intro e _
    rw [decide_eq_true_iff]
    by_cases hsuffix : (splitBalanceKey e.1 names).2 ∈ TRADABLE_SUFFIXES
    · rw [placeOf_tradable fiat hsuffix]
      by_cases hname : (splitBalanceKey e.1 names).1 = fiat
      · simp [hname]
      · simp [hname]
    · rw [placeOf_locked fiat hsuffix]
      simp
  rw [counted, hnone]
  rfl

end Split

/-! ## The valuation of a view -/

/-- The valuation of amounts whose assets are priced. -/
theorem valuePortfolio_sums {holdings prices targets : Dict String Rat} {cash : Rat} {v : Valuation}
    (hv : valuePortfolio holdings prices targets cash = .ok v) :
    v.cash = cash ∧ v.assetValues = (targets.map fun asset _ => worth prices ⟨holdings, cash⟩ asset) ∧
      v.managedValue = v.assetValues.values.sum + cash ∧ v.weights.keys = targets.keys ∧
      (v.managedValue ≠ 0 → v.weights.values.sum + v.cashWeight = 100) := by
  have hpriced := priced_of_value hv
  have hfind : targets.keys.find? (fun asset => prices.get? asset = none) = none := by
    refine List.find?_eq_none.mpr ?_
    intro asset hkey
    obtain ⟨price, hprice⟩ := Option.isSome_iff_exists.mp (hpriced asset hkey)
    simp [hprice]
  have hvalues : (targets.filterMap fun asset _ =>
      (prices.get? asset).map fun price => holdings.getD asset 0 * price) =
      targets.map fun asset _ => worth prices ⟨holdings, cash⟩ asset := by
    refine Dict.filterMap_eq_map ?_
    intro asset hkey _
    obtain ⟨price, hprice⟩ := Option.isSome_iff_exists.mp (hpriced asset hkey)
    simp [hprice, worth, Dict.getD]
  rw [valuePortfolio, hfind] at hv
  obtain rfl := Except.ok.inj hv
  refine ⟨rfl, hvalues, rfl, ?_, ?_⟩
  · rw [hvalues, Dict.keys_map, Dict.keys_map]
  · intro hne
    dsimp only at hne ⊢
    simp only [hne, if_false]
    generalize (targets.filterMap fun asset _ =>
      (prices.get? asset).map fun price => holdings.getD asset 0 * price) = assetValues at hne
    have hweights : (assetValues.map fun _ x => x / (assetValues.values.sum + cash) * 100).values.sum =
        assetValues.values.sum / (assetValues.values.sum + cash) * 100 := by
      generalize assetValues.values.sum + cash = total
      rw [Dict.values, Dict.entries_map, List.map_map, Dict.values]
      induction assetValues.entries with
      | nil => simp
      | cons e es ih =>
        simp only [List.map_cons, List.sum_cons, Function.comp_apply] at ih ⊢
        rw [ih]
        ring
    rw [hweights, ← add_mul, ← add_div, div_self hne, one_mul]

/-- Amounts and prices that agree on the configured assets have one valuation. -/
theorem valuePortfolio_congr {holdings holdings' prices prices' targets : Dict String Rat} {cash : Rat}
    (hprices : ∀ asset ∈ targets.keys, prices.get? asset = prices'.get? asset)
    (hholdings : ∀ asset ∈ targets.keys, holdings.getD asset 0 = holdings'.getD asset 0) :
    valuePortfolio holdings prices targets cash = valuePortfolio holdings' prices' targets cash := by
  have hfind : targets.keys.find? (fun asset => prices.get? asset = none) =
      targets.keys.find? fun asset => prices'.get? asset = none := by
    rw [← List.head?_filter, ← List.head?_filter]
    refine congrArg List.head? (List.filter_congr ?_)
    intro asset hkey
    rw [hprices asset hkey]
  have hvalues : (targets.filterMap fun asset _ =>
      (prices.get? asset).map fun price => holdings.getD asset 0 * price) =
      targets.filterMap fun asset _ =>
        (prices'.get? asset).map fun price => holdings'.getD asset 0 * price := by
    refine Dict.ext_entries (List.filterMap_congr ?_)
    intro e he
    have hkey : e.1 ∈ targets.keys := List.mem_map_of_mem he
    dsimp only
    rw [hprices e.1 hkey, hholdings e.1 hkey]
  rw [valuePortfolio, valuePortfolio, hfind, hvalues]

/-! ## What a view shows -/

/-- A tradable asset that is not configured. One that comes to nothing is not shown. -/
def otherHolding (tradable prices : Dict String Decimal) (asset : String) : Option Holding :=
  let amount := tradable.getD asset .zero
  if amount.value = 0 then none
  else some { asset, amount, price := prices.get? asset
              value := (prices.get? asset).map fun price => amount.value * price.value
              managed := false, locked := false, targetPct := none, weightPct := none }

/-- What is locked under a label. -/
def lockedHolding (locked : Dict String Decimal) (label : String) : Option Holding :=
  let amount := locked.getD label .zero
  if amount.value = 0 then none
  else some { asset := label, amount, price := none, value := none, managed := false
              locked := true, targetPct := none, weightPct := none }

/-- The holdings of one name that are locked, or that are not. -/
def shown (view : PortfolioView) (locked : Bool) (name : String) : List Holding :=
  view.holdings.filter fun h => h.locked = locked ∧ h.asset = name

/-- The configured assets with a price, and their weights. -/
def pricedTargets (targets prices : Dict String Decimal) : Dict String Rat :=
  targets.filterMap fun asset pct => if prices.get? asset = none then none else some pct.value

/-- A view is the valuation of what can be traded, at the prices there are. -/
theorem buildView_eq (balances : Dict String Decimal) (names : Dict String String) (fiat : String)
    (targets prices : Dict String Decimal) :
    ∃ v, valuePortfolio (((splitBalances balances names).1.erase fiat).map fun _ => Decimal.value)
        (prices.map fun _ => Decimal.value) (pricedTargets targets prices)
        ((splitBalances balances names).1.getD fiat .zero).value = .ok v ∧
      buildView balances names fiat targets prices = .ok {
        fiat
        cash := (splitBalances balances names).1.getD fiat .zero
        cashTargetPct := 100 - (targets.values.map Decimal.value).sum
        cashWeightPct := v.cashWeight
        managedValue := v.managedValue
        holdings := (sortedKeys targets.keys).map (managedHolding
              ((splitBalances balances names).1.erase fiat) prices targets v) ++
            (sortedKeys (((splitBalances balances names).1.erase fiat).keys.filter
              (· ∉ targets.keys))).filterMap
              (otherHolding ((splitBalances balances names).1.erase fiat) prices) ++
            (sortedKeys (splitBalances balances names).2.keys).filterMap
              (lockedHolding (splitBalances balances names).2) } := by
  have hpriced : Priced (prices.map fun _ => Decimal.value) (pricedTargets targets prices) := by
    intro asset hkey
    obtain ⟨e, he, rfl⟩ := List.mem_map.mp hkey
    obtain ⟨pct, -, hkept⟩ := Dict.mem_filterMap.mp he
    split at hkept
    · cases hkept
    · rename_i hsome
      rw [Dict.get?_map, Option.isSome_map]
      exact Option.isSome_iff_ne_none.mpr hsome
  obtain ⟨v, hv, -⟩ := valuePortfolio_ok hpriced
    ⟨((splitBalances balances names).1.erase fiat).map fun _ => Decimal.value,
      ((splitBalances balances names).1.getD fiat .zero).value⟩
  refine ⟨v, hv, ?_⟩
  rw [pricedTargets] at hv
  rw [buildView]
  generalize splitBalances balances names = split at hv ⊢
  obtain ⟨held, locked⟩ := split
  dsimp only at hv ⊢
  rw [hv]
  rfl

/-- Of the holdings made from distinct names, one name has at most its own. -/
theorem filter_made {names : List String} (hnames : names.Nodup) {made : String → Option Holding}
    {locked : Bool} (hmade : ∀ name h, made name = some h → h.asset = name ∧ h.locked = locked)
    (want : Bool) (name : String) :
    ((names.filterMap made).filter fun h => h.locked = want ∧ h.asset = name) =
      if name ∈ names ∧ locked = want then (made name).toList else [] := by
  induction names with
  | nil => simp
  | cons n names ih =>
    obtain ⟨hnew, hnames⟩ := List.nodup_cons.mp hnames
    have hrest := ih hnames
    rw [List.filterMap_cons]
    cases hn : made n with
    | none =>
      dsimp only
      rw [hrest]
      by_cases heq : name = n
      · subst heq
        simp [hnew, hn]
      · simp [heq]
    | some h =>
      dsimp only
      obtain ⟨hasset, hlocked⟩ := hmade n h hn
      rw [List.filter_cons, hrest, hasset, hlocked]
      by_cases heq : name = n
      · -- The name is new, so the rest has none of it.
        subst heq
        by_cases hwant : locked = want
        · simp [hwant, hnew, hn]
        · simp [hwant, hnew]
      · have hne : ¬n = name := fun hnn => heq hnn.symm
        simp [heq, hne]

section View

variable {tradable prices targets locked : Dict String Decimal} {v : Valuation}

theorem otherHolding_facts {name : String} {h : Holding} (hmade : otherHolding tradable prices name = some h) :
    h.asset = name ∧ h.locked = false := by
  rw [otherHolding] at hmade
  split at hmade
  · cases hmade
  · obtain rfl := Option.some.inj hmade
    exact ⟨rfl, rfl⟩

theorem lockedHolding_facts {name : String} {h : Holding} (hmade : lockedHolding locked name = some h) :
    h.asset = name ∧ h.locked = true := by
  rw [lockedHolding] at hmade
  split at hmade
  · cases hmade
  · obtain rfl := Option.some.inj hmade
    exact ⟨rfl, rfl⟩

theorem sortedKeys_nodup {keys : List String} (h : keys.Nodup) : (sortedKeys keys).Nodup :=
  (List.perm_insertionSort (· ≤ ·) keys).nodup_iff.mpr h

theorem mem_keys_of_value {d : Dict String Decimal} {name : String} (h : (d.getD name .zero).value ≠ 0) :
    name ∈ d.keys := by
  rw [Dict.mem_keys_iff]
  cases hg : d.get? name with
  | some a => exact ⟨a, rfl⟩
  | none =>
    rw [Dict.getD, hg] at h
    exact absurd Decimal.value_zero h

/-- The holdings that a view shows of what can be traded under a name. -/
theorem shown_tradable (view : PortfolioView) (hholdings : view.holdings =
      (sortedKeys targets.keys).map (managedHolding tradable prices targets v) ++
        (sortedKeys (tradable.keys.filter (· ∉ targets.keys))).filterMap (otherHolding tradable prices) ++
        (sortedKeys locked.keys).filterMap (lockedHolding locked)) (asset : String) :
    shown view false asset =
      if asset ∈ targets.keys then [managedHolding tradable prices targets v asset]
      else (otherHolding tradable prices asset).toList := by
  have htargets : targets.keys.Nodup := targets.nodup
  have htradable : tradable.keys.Nodup := tradable.nodup
  have hlocked : locked.keys.Nodup := locked.nodup
  have hmanaged := @filter_made _ (sortedKeys_nodup htargets)
    (fun name => some (managedHolding tradable prices targets v name)) false (by
      intro name h hmade
      obtain rfl := Option.some.inj hmade
      exact ⟨rfl, rfl⟩) false asset
  have hothers := filter_made (sortedKeys_nodup (htradable.filter fun k => k ∉ targets.keys))
    (fun _ _ => @otherHolding_facts tradable prices _ _) false asset
  have hlockedUp := filter_made (sortedKeys_nodup hlocked)
    (fun _ _ => @lockedHolding_facts locked _ _) false asset
  rw [List.filterMap_eq_map'] at hmanaged
  rw [shown, hholdings, List.filter_append, List.filter_append, hmanaged, hothers, hlockedUp]
  simp only [mem_sortedKeys, List.mem_filter, and_true, Bool.true_eq_false, and_false, if_false,
    List.append_nil, decide_eq_true_eq, Option.toList_some]
  by_cases hkey : asset ∈ targets.keys
  · simp [hkey]
  · by_cases hheld : asset ∈ tradable.keys
    · simp [hkey, hheld]
    · -- An asset that is not held comes to nothing.
      have hzero : (tradable.getD asset .zero).value = 0 := by
        by_contra hne
        exact hheld (mem_keys_of_value hne)
      simp [hkey, hheld, otherHolding, hzero]

/-- What a view shows as locked under a label. -/
theorem shown_locked (view : PortfolioView) (hholdings : view.holdings =
      (sortedKeys targets.keys).map (managedHolding tradable prices targets v) ++
        (sortedKeys (tradable.keys.filter (· ∉ targets.keys))).filterMap (otherHolding tradable prices) ++
        (sortedKeys locked.keys).filterMap (lockedHolding locked)) (label : String) :
    shown view true label = (lockedHolding locked label).toList := by
  have htargets : targets.keys.Nodup := targets.nodup
  have htradable : tradable.keys.Nodup := tradable.nodup
  have hlocked : locked.keys.Nodup := locked.nodup
  have hmanaged := @filter_made _ (sortedKeys_nodup htargets)
    (fun name => some (managedHolding tradable prices targets v name)) false (by
      intro name h hmade
      obtain rfl := Option.some.inj hmade
      exact ⟨rfl, rfl⟩) true label
  have hothers := filter_made (sortedKeys_nodup (htradable.filter fun k => k ∉ targets.keys))
    (fun _ _ => @otherHolding_facts tradable prices _ _) true label
  have hlockedUp := filter_made (sortedKeys_nodup hlocked)
    (fun _ _ => @lockedHolding_facts locked _ _) true label
  rw [List.filterMap_eq_map'] at hmanaged
  rw [shown, hholdings, List.filter_append, List.filter_append, hmanaged, hothers, hlockedUp]
  by_cases hheld : label ∈ locked.keys
  · simp [mem_sortedKeys, hheld]
  · have hzero : (locked.getD label .zero).value = 0 := by
      by_contra hne
      exact hheld (mem_keys_of_value hne)
    simp [mem_sortedKeys, hheld, lockedHolding, hzero]

end View

/-- A view is built of what can be traded and the cash. -/
theorem buildView_built {balances : Dict String Decimal} {names : Dict String String} {fiat : String}
    {targets prices : Dict String Decimal} {view : PortfolioView}
    (h : buildView balances names fiat targets prices = .ok view) :
    ∃ v rest, Built targets prices view ((splitBalances balances names).1.erase fiat) v rest ∧
      view.cash = (splitBalances balances names).1.getD fiat .zero ∧ view.cashWeightPct = v.cashWeight ∧
      rest = (sortedKeys (((splitBalances balances names).1.erase fiat).keys.filter
          (· ∉ targets.keys))).filterMap
          (otherHolding ((splitBalances balances names).1.erase fiat) prices) ++
        (sortedKeys (splitBalances balances names).2.keys).filterMap
          (lockedHolding (splitBalances balances names).2) := by
  obtain ⟨v, hv, hview⟩ := buildView_eq balances names fiat targets prices
  obtain rfl := Except.ok.inj (hview.symm.trans h)
  refine ⟨v, _, ⟨hv, rfl, rfl, List.append_assoc _ _ _, ?_⟩, rfl, rfl, rfl⟩
  intro holding hmem
  rcases List.mem_append.mp hmem with hother | hlocked
  · obtain ⟨name, -, hmade⟩ := List.mem_filterMap.mp hother
    rw [otherHolding] at hmade
    split at hmade
    · cases hmade
    · rw [← Option.some.inj hmade]
  · obtain ⟨name, -, hmade⟩ := List.mem_filterMap.mp hlocked
    rw [lockedHolding] at hmade
    split at hmade
    · cases hmade
    · rw [← Option.some.inj hmade]

section Counted

variable {balances : Dict String Decimal} {names : Dict String String} {fiat : String}
  {targets prices : Dict String Decimal} {view : PortfolioView}

/-- What can be traded of an asset is what is counted as held of it. Of the fiat it is nothing. -/
theorem tradable_counted (asset : String) :
    (((splitBalances balances names).1.erase fiat).getD asset .zero).value =
      counted names fiat balances (.held asset) := by
  by_cases heq : asset = fiat
  · subst heq
    have hnone : ((splitBalances balances names).1.erase asset).get? asset = none := by
      rw [Dict.erase, Dict.get?_filterMap]
      cases (splitBalances balances names).1.get? asset with
      | none => rfl
      | some a => simp
    rw [Dict.getD, hnone, counted_fiat]
    exact Decimal.value_zero
  · rw [Dict.getD_erase heq]
    exact held_counted balances names fiat heq

/-- The values and the weights that a view shows are those of its valuation. -/
theorem shown_values {tradable : Dict String Decimal} {v : Valuation} {rest : List Holding}
    (hbuilt : Built targets prices view tradable v rest) {f : Holding → Option Rat} (d : Dict String Rat)
    (hkeys : ∀ asset ∈ d.keys, asset ∈ targets.keys)
    (hf : ∀ asset, f (managedHolding tradable prices targets v asset) = d.get? asset) :
    ((view.holdings.filter fun h => h.managed).filterMap f).Perm d.values := by
  have hothers : rest.filter (fun h => h.managed) = [] := by
    refine List.filter_eq_nil_iff.mpr ?_
    intro holding hin
    simp [hbuilt.others holding hin]
  have hmanaged : ((sortedKeys targets.keys).map (managedHolding tradable prices targets v)).filter
      (fun h => h.managed) = (sortedKeys targets.keys).map (managedHolding tradable prices targets v) := by
    refine List.filter_eq_self.mpr ?_
    intro holding hin
    obtain ⟨asset, -, rfl⟩ := List.mem_map.mp hin
    rfl
  rw [hbuilt.holdings, List.filter_append, hothers, hmanaged, List.append_nil, List.filterMap_map]
  have hsame : f ∘ managedHolding tradable prices targets v = d.get? := funext hf
  rw [hsame]
  have htargets : targets.keys.Nodup := targets.nodup
  exact d.filterMap_get?_perm (sortedKeys_nodup htargets) fun asset hkey =>
    mem_sortedKeys.mpr (hkeys asset hkey)

/-- What a view shows of balances: each place once, with what is counted there, and the values and weights
of the configured assets. -/
structure CountsOnce (balances : Dict String Decimal) (names : Dict String String) (fiat : String)
    (targets prices : Dict String Decimal) (view : PortfolioView) : Prop where
  cash : view.cash.value = counted names fiat balances .cash
  configured : ∀ asset ∈ targets.keys, ∃ holding, shown view false asset = [holding] ∧
    holding.managed = true ∧ holding.amount.value = counted names fiat balances (.held asset) ∧
    holding.price = prices.get? asset ∧
    holding.value = (prices.get? asset).map fun price => holding.amount.value * price.value
  others : ∀ asset, asset ∉ targets.keys → counted names fiat balances (.held asset) ≠ 0 →
    ∃ holding, shown view false asset = [holding] ∧ holding.managed = false ∧
      holding.amount.value = counted names fiat balances (.held asset)
  locked : ∀ label, counted names fiat balances (.locked label) ≠ 0 →
    ∃ holding, shown view true label = [holding] ∧ holding.managed = false ∧
      holding.amount.value = counted names fiat balances (.locked label)
  nothing : (∀ asset, asset ∉ targets.keys → counted names fiat balances (.held asset) = 0 →
      shown view false asset = []) ∧
    ∀ label, counted names fiat balances (.locked label) = 0 → shown view true label = []
  managedValue : view.managedValue =
    view.cash.value + ((view.holdings.filter fun h => h.managed).filterMap Holding.value).sum
  weights : view.managedValue ≠ 0 →
    ((view.holdings.filter fun h => h.managed).filterMap Holding.weightPct).sum + view.cashWeightPct = 100

end Counted

section Once

variable {balances : Dict String Decimal} {names : Dict String String} {fiat : String}
  {targets prices : Dict String Decimal} {view : PortfolioView} {v : Valuation} {rest : List Holding}

theorem pricedTargets_keys {asset : String} (hkey : asset ∈ (pricedTargets targets prices).keys) :
    asset ∈ targets.keys := Dict.keys_filterMap_subset _ _ hkey

theorem counts_once
    (hbuilt : Built targets prices view ((splitBalances balances names).1.erase fiat) v rest)
    (hcash : view.cash = (splitBalances balances names).1.getD fiat .zero)
    (hcashWeight : view.cashWeightPct = v.cashWeight)
    (hholdings : view.holdings =
      (sortedKeys targets.keys).map
          (managedHolding ((splitBalances balances names).1.erase fiat) prices targets v) ++
        (sortedKeys (((splitBalances balances names).1.erase fiat).keys.filter
          (· ∉ targets.keys))).filterMap
          (otherHolding ((splitBalances balances names).1.erase fiat) prices) ++
        (sortedKeys (splitBalances balances names).2.keys).filterMap
          (lockedHolding (splitBalances balances names).2)) :
    CountsOnce balances names fiat targets prices view := by
  obtain ⟨-, hvalues, hmanaged, hweightKeys, hweights⟩ := valuePortfolio_sums hbuilt.valued
  -- What is not configured is shown where it comes to something.
  have hother : ∀ asset, asset ∉ targets.keys → shown view false asset =
      (otherHolding ((splitBalances balances names).1.erase fiat) prices asset).toList := by
    intro asset hkey
    rw [shown_tradable view hholdings, if_neg hkey]
  constructor
  · rw [hcash]
    exact cash_counted balances names fiat
  · intro asset hkey
    refine ⟨_, by rw [shown_tradable view hholdings, if_pos hkey], rfl, tradable_counted asset, rfl, ?_⟩
    change v.assetValues.get? asset = _
    rw [hvalues, Dict.get?_map, Dict.get?_filterMap]
    obtain ⟨pct, hpct⟩ := Dict.mem_keys_iff.mp hkey
    rw [hpct]
    cases hprice : prices.get? asset with
    | none => simp
    | some price =>
      have hheld : (((splitBalances balances names).1.erase fiat).map fun _ => Decimal.value).getD asset 0 =
          (((splitBalances balances names).1.erase fiat).getD asset .zero).value := by
        rw [Dict.getD, Dict.getD, Dict.get?_map]
        cases ((splitBalances balances names).1.erase fiat).get? asset with
        | none => simp [Decimal.value_zero]
        | some amount => rfl
      have hworth : worth (prices.map fun _ => Decimal.value)
          ⟨((splitBalances balances names).1.erase fiat).map fun _ => Decimal.value, view.cash.value⟩ asset =
          (((splitBalances balances names).1.erase fiat).getD asset .zero).value * price.value := by
        have hat : (prices.map fun _ => Decimal.value).getD asset 0 = price.value := by
          rw [Dict.getD, Dict.get?_map, hprice]
          rfl
        rw [worth, hheld, hat]
      simp [hworth, managedHolding]
  · intro asset hkey hsome
    rw [← tradable_counted] at hsome
    exact ⟨_, by rw [hother asset hkey, otherHolding, if_neg hsome]; rfl, rfl, tradable_counted asset⟩
  · intro label hsome
    rw [← locked_counted] at hsome
    exact ⟨_, by rw [shown_locked view hholdings, lockedHolding, if_neg hsome]; rfl, rfl,
      locked_counted balances names fiat label⟩
  · constructor
    · intro asset hkey hnone
      rw [← tradable_counted] at hnone
      rw [hother asset hkey, otherHolding, if_pos hnone]
      rfl
    · intro label hnone
      rw [← locked_counted] at hnone
      rw [shown_locked view hholdings, lockedHolding, if_pos hnone]
      rfl
  · have hshown := shown_values hbuilt (f := Holding.value) v.assetValues (by
      intro asset hkey
      rw [hvalues, Dict.keys_map] at hkey
      exact pricedTargets_keys hkey) fun _ => rfl
    rw [hshown.sum_eq, hbuilt.managedValue, hmanaged]
    ring
  · intro hne
    have hshown := shown_values hbuilt (f := Holding.weightPct) v.weights (by
      intro asset hkey
      rw [hweightKeys] at hkey
      exact pricedTargets_keys hkey) fun _ => rfl
    rw [hshown.sum_eq, hcashWeight]
    exact hweights (hbuilt.managedValue ▸ hne)

/-- The managed amounts and prices of a view have its valuation. -/
theorem same_valuation {tradable : Dict String Decimal} (hbuilt : Built targets prices view tradable v rest)
    (hunpriced : view.unpriced = []) :
    valuePortfolio ((managedHoldings view).map fun _ h => h.amount.value)
      ((managedHoldings view).filterMap fun _ h => h.price.map Decimal.value)
      (targets.map fun _ => Decimal.value) view.cash.value = .ok v := by
  have hall : pricedTargets targets prices = targets.map fun _ => Decimal.value := by
    refine Dict.filterMap_eq_map ?_
    intro asset hkey pct
    obtain ⟨price, hprice⟩ := hbuilt.priced hunpriced hkey
    simp [hprice]
  rw [← hall, ← hbuilt.valued]
  refine valuePortfolio_congr ?_ ?_
  · intro asset hkey
    have hconfigured := pricedTargets_keys hkey
    rw [Dict.get?_filterMap, hbuilt.get? hconfigured, Dict.get?_map]
    rfl
  · intro asset hkey
    have hconfigured := pricedTargets_keys hkey
    rw [Dict.getD, Dict.getD, Dict.get?_map, Dict.get?_map, hbuilt.get? hconfigured]
    simp only [Option.map_some, Option.getD_some, managedHolding, Dict.getD]
    cases tradable.get? asset with
    | none => simp [Decimal.value_zero]
    | some amount => rfl

theorem valued_alike {tradable : Dict String Decimal} (hbuilt : Built targets prices view tradable v rest)
    (hcashWeight : view.cashWeightPct = v.cashWeight) :
    v.cash = view.cash.value ∧ v.managedValue = view.managedValue ∧ v.cashWeight = view.cashWeightPct ∧
      ∀ h ∈ view.holdings, h.managed = true →
        h.value = v.assetValues.get? h.asset ∧ h.weightPct = v.weights.get? h.asset := by
  refine ⟨(valuePortfolio_sums hbuilt.valued).1, hbuilt.managedValue.symm, hcashWeight.symm, ?_⟩
  intro h hmem hmanaged
  rw [hbuilt.holdings] at hmem
  rcases List.mem_append.mp hmem with hconfigured | hother
  · obtain ⟨asset, -, rfl⟩ := List.mem_map.mp hconfigured
    exact ⟨rfl, rfl⟩
  · rw [hbuilt.others h hother] at hmanaged
    cases hmanaged

end Once

/-- The view counts every balance once. When nothing configured is unpriced, the engine values what the
view manages as the view does. -/
theorem view_counts_once (balances : Dict String Decimal) (names : Dict String String) (fiat : String)
    (targets prices : Dict String Decimal) :
    ∃ view, buildView balances names fiat targets prices = .ok view ∧
      CountsOnce balances names fiat targets prices view ∧
      (view.unpriced = [] → ∃ v,
        valuePortfolio ((managedHoldings view).map fun _ h => h.amount.value)
          ((managedHoldings view).filterMap fun _ h => h.price.map Decimal.value)
          (targets.map fun _ => Decimal.value) view.cash.value = .ok v ∧
        v.cash = view.cash.value ∧ v.managedValue = view.managedValue ∧
        v.cashWeight = view.cashWeightPct ∧
        ∀ h ∈ view.holdings, h.managed = true →
          h.value = v.assetValues.get? h.asset ∧ h.weightPct = v.weights.get? h.asset) := by
  obtain ⟨view, hview⟩ : ∃ view, buildView balances names fiat targets prices = .ok view := by
    obtain ⟨v, -, hview⟩ := buildView_eq balances names fiat targets prices
    exact ⟨_, hview⟩
  obtain ⟨v, rest, hbuilt, hcash, hcashWeight, hrest⟩ := buildView_built hview
  have hholdings := hbuilt.holdings
  rw [hrest, ← List.append_assoc] at hholdings
  refine ⟨view, hview, counts_once hbuilt hcash hcashWeight hholdings, ?_⟩
  intro hunpriced
  exact ⟨v, same_valuation hbuilt hunpriced, valued_alike hbuilt hcashWeight⟩

def someNames : Dict String String := Dict.ofList [("XXBT", "XBT"), ("XETH", "ETH"), ("ZEUR", "EUR")]

/-- Bitcoin under its internal name and in rewards, euros, and bonded ether. -/
def someBalances : Dict String Decimal :=
  Dict.ofList [("XXBT", ⟨1, 0⟩), ("XBT.F", ⟨2, 0⟩), ("ZEUR", ⟨100, 0⟩), ("ETH.B", ⟨3, 0⟩)]

/-- The two balances of bitcoin are one holding of 3, and the ether is locked. -/
theorem view_counts_once_rewards :
    ∃ view, buildView someBalances someNames "EUR" (Dict.ofList [("XBT", ⟨50, 0⟩)])
        (Dict.ofList [("XBT", ⟨10, 0⟩)]) = .ok view ∧
      (∃ holding, shown view false "XBT" = [holding] ∧ holding.amount.value = 3) ∧
      (∃ holding, shown view true "ETH.B" = [holding] ∧ holding.amount.value = 3) ∧
      view.cash.value = 100 := by
  obtain ⟨view, hview, hcounts, -⟩ := view_counts_once someBalances someNames "EUR"
    (Dict.ofList [("XBT", ⟨50, 0⟩)]) (Dict.ofList [("XBT", ⟨10, 0⟩)])
  have hheld : counted someNames "EUR" someBalances (.held "XBT") = 3 := by decide +kernel
  have hlocked : counted someNames "EUR" someBalances (.locked "ETH.B") = 3 := by decide +kernel
  have hcash : counted someNames "EUR" someBalances .cash = 100 := by decide +kernel
  obtain ⟨holding, hshown, -, hamount, -, -⟩ := hcounts.configured "XBT" (by decide +kernel)
  obtain ⟨bonded, hshown', -, hamount'⟩ := hcounts.locked "ETH.B" (by rw [hlocked]; decide +kernel)
  exact ⟨view, hview, ⟨holding, hshown, hamount.trans hheld⟩, ⟨bonded, hshown', hamount'.trans hlocked⟩,
    hcounts.cash.trans hcash⟩

end Coinpilot.Core
