import Coinpilot.Engine.Valuation
import Mathlib.Data.List.Sort
import Mathlib.Tactic.Linarith
import Mathlib.Tactic.Positivity

/-!
# The single entry point of the engine

Where available cash goes (`allocateProrata`, `allocateReduceDrift`) and the plan that closes the
gap between a portfolio and its targets (`reconcile`). Every leg of a plan has a positive amount
and its own asset (`reconcile_legs`), and a plan without sells is a list of buys
(`reconcile_buys`).
-/

set_option autoImplicit false

namespace Coinpilot.Engine

open Coinpilot.Lib

/-- Cash above the cash target. A shortfall of cash is nothing to spend. -/
def investableCash (valuation : Valuation) (targets : Dict String Rat) : Rat :=
  let wanted := valuation.managedValue * cashTargetPct targets / 100
  let excess := valuation.cash - wanted
  if 0 < excess then excess else 0

/-- Split `amount` across the targets in proportion to their weights. -/
def allocateProrata (amount : Rat) (targets : Dict String Rat) : Dict String Rat :=
  let total := targets.values.sum
  if amount ≤ 0 ∨ total ≤ 0 then Dict.empty
  else targets.filterMap fun _ pct => if 0 < pct then some (amount * pct / total) else none

/-- The biggest shortfall first; the asset code breaks ties. -/
def shortfallBefore (a b : String × Rat) : Prop := b.2 < a.2 ∨ (a.2 = b.2 ∧ a.1 ≤ b.1)

instance : DecidableRel shortfallBefore := fun a b =>
  inferInstanceAs (Decidable (b.2 < a.2 ∨ (a.2 = b.2 ∧ a.1 ≤ b.1)))

/-- Spend what remains on the shortfalls in order; returns what was allocated and what is left. -/
def spend : List (String × Rat) → Rat → Dict String Rat → Dict String Rat × Rat
  | [], remaining, allocated => (allocated, remaining)
  | (asset, shortfall) :: rest, remaining, allocated =>
      if remaining ≤ 0 then (allocated, remaining)
      else
        let take := if shortfall ≤ remaining then shortfall else remaining
        spend rest (remaining - take) (allocated.set asset take)

/-- Spend `amount` on the biggest shortfalls first, then split any leftover pro rata. -/
def allocateReduceDrift (amount : Rat) (assetDeltas targets : Dict String Rat) : Dict String Rat :=
  if amount ≤ 0 then Dict.empty
  else
    let shortfalls := assetDeltas.filterMap fun _ d => if 0 < d then some d else none
    let (allocated, remaining) :=
      spend (shortfalls.entries.insertionSort shortfallBefore) amount Dict.empty
    if 0 < remaining then
      (allocateProrata remaining targets).entries.foldl
        (fun acc e => acc.set e.1 (acc.getD e.1 0 + e.2)) allocated
    else allocated

/-- Sells first, because they raise the money the buys spend; then by asset. -/
def legBefore (a b : Leg) : Prop :=
  (a.side = .sell ∧ b.side = .buy) ∨ (a.side = b.side ∧ a.asset ≤ b.asset)

instance : DecidableRel legBefore := fun a b =>
  inferInstanceAs (Decidable ((a.side = .sell ∧ b.side = .buy) ∨ (a.side = b.side ∧ a.asset ≤ b.asset)))

/-- The amount each asset is to move by, before the small ones are dropped. -/
def amounts (policy : Policy) (valuation : Valuation) (targets : Dict String Rat) :
    Dict String Rat :=
  let assetDeltas := deltas valuation targets
  if policy.allowSells then
    let assetDrifts := drifts valuation targets
    assetDeltas.filterMap fun asset delta =>
      if policy.minDriftPct ≤ |assetDrifts.getD asset 0| then some delta else none
  else
    let spendable := investableCash valuation targets
    match policy.cashPolicy with
    | .prorata => allocateProrata spendable targets
    | .reduceDrift => allocateReduceDrift spendable assetDeltas targets

/-- The leg of one amount, unless it is too small or nothing. -/
def legOf (policy : Policy) (asset : String) (amount : Rat) : Option Leg :=
  if |amount| < policy.minOrderFiat ∨ |amount| = 0 then none
  else some ⟨asset, if 0 < amount then .buy else .sell, |amount|⟩

/-- The orders that close the gap between a portfolio and a set of targets. -/
def reconcile (holdings prices targets : Dict String Rat) (cash : Rat) (policy : Policy) :
    Except UnpricedAsset (List Leg) := do
  let valuation ← valuePortfolio holdings prices targets cash
  let legs := (amounts policy valuation targets).entries.filterMap fun e => legOf policy e.1 e.2
  return legs.insertionSort legBefore

/-! ## What a plan is -/

theorem allocateProrata_pos {amount : Rat} {targets : Dict String Rat} {e : String × Rat}
    (h : e ∈ (allocateProrata amount targets).entries) : 0 < e.2 := by
  unfold allocateProrata at h
  dsimp only at h
  split at h
  · simp [Dict.empty] at h
  · rename_i hpos
    rw [not_or, not_le, not_le] at hpos
    obtain ⟨pct, -, hp⟩ := Dict.mem_filterMap.mp h
    split at hp
    · rename_i hpct
      injection hp with hp
      rw [← hp]
      exact div_pos (mul_pos hpos.1 hpct) hpos.2
    · cases hp

theorem spend_pos {xs : List (String × Rat)} (hxs : ∀ x ∈ xs, 0 < x.2) :
    ∀ (remaining : Rat) {allocated : Dict String Rat}, (∀ e ∈ allocated.entries, 0 < e.2) →
      ∀ e ∈ (spend xs remaining allocated).1.entries, 0 < e.2 := by
  induction xs with
  | nil => intro remaining allocated ha; exact ha
  | cons x xs ih =>
    intro remaining allocated ha
    obtain ⟨asset, shortfall⟩ := x
    unfold spend
    split
    · exact ha
    · rename_i hr
      refine ih (fun y hy => hxs y (List.mem_cons_of_mem _ hy)) _ fun e he => ?_
      rcases Dict.mem_of_mem_set he with rfl | he
      · have hs : 0 < shortfall := hxs (asset, shortfall) List.mem_cons_self
        dsimp only
        split
        · exact hs
        · exact not_le.mp hr
      · exact ha e he

theorem foldl_set_pos {xs : List (String × Rat)} (hxs : ∀ x ∈ xs, 0 < x.2) :
    ∀ {acc : Dict String Rat}, (∀ e ∈ acc.entries, 0 < e.2) →
      ∀ e ∈ (xs.foldl (fun acc e => acc.set e.1 (acc.getD e.1 0 + e.2)) acc).entries, 0 < e.2 := by
  induction xs with
  | nil => intro acc ha; exact ha
  | cons x xs ih =>
    intro acc ha
    refine ih (fun y hy => hxs y (List.mem_cons_of_mem _ hy)) fun e he => ?_
    rcases Dict.mem_of_mem_set he with rfl | he
    · have hx : 0 < x.2 := hxs x List.mem_cons_self
      have hold : 0 ≤ acc.getD x.1 0 := by
        unfold Dict.getD
        cases hg : acc.get? x.1 with
        | none => simp
        | some v => simpa using (ha _ (Dict.mem_of_get? hg)).le
      dsimp only
      linarith
    · exact ha e he

theorem allocateReduceDrift_pos {amount : Rat} {assetDeltas targets : Dict String Rat}
    {e : String × Rat} (h : e ∈ (allocateReduceDrift amount assetDeltas targets).entries) :
    0 < e.2 := by
  unfold allocateReduceDrift at h
  split at h
  · simp [Dict.empty] at h
  · have hshort : ∀ x ∈ ((assetDeltas.filterMap fun _ d => if 0 < d then some d else none).entries
        ).insertionSort shortfallBefore, 0 < x.2 := by
      intro x hx
      rw [List.mem_insertionSort] at hx
      obtain ⟨d, -, hd⟩ := Dict.mem_filterMap.mp hx
      split at hd
      · rename_i hpos
        injection hd with hd
        rwa [← hd]
      · cases hd
    have hspend := spend_pos hshort amount (show ∀ e ∈ (Dict.empty : Dict String Rat).entries, 0 < e.2 by
      simp [Dict.empty])
    dsimp only at h
    split at h
    · exact foldl_set_pos (fun x hx => allocateProrata_pos hx) hspend e h
    · exact hspend e h

/-- Without sells, every amount is positive under either cash policy. -/
theorem amounts_pos {policy : Policy} (hp : policy.allowSells = false) {valuation : Valuation}
    {targets : Dict String Rat} {e : String × Rat}
    (h : e ∈ (amounts policy valuation targets).entries) : 0 < e.2 := by
  unfold amounts at h
  simp only [hp, Bool.false_eq_true, if_false] at h
  cases hc : policy.cashPolicy with
  | prorata =>
    rw [hc] at h
    exact allocateProrata_pos h
  | reduceDrift =>
    rw [hc] at h
    exact allocateReduceDrift_pos h

theorem mem_reconcile {holdings prices targets : Dict String Rat} {cash : Rat} {policy : Policy}
    {legs : List Leg} (h : reconcile holdings prices targets cash policy = .ok legs) {leg : Leg} :
    leg ∈ legs → ∃ valuation, valuePortfolio holdings prices targets cash = .ok valuation ∧
      ∃ e ∈ (amounts policy valuation targets).entries, legOf policy e.1 e.2 = some leg := by
  intro hleg
  unfold reconcile at h
  cases hv : valuePortfolio holdings prices targets cash with
  | error e => rw [hv] at h; cases h
  | ok valuation =>
    rw [hv] at h
    injection h with h
    subst h
    rw [List.mem_insertionSort, List.mem_filterMap] at hleg
    exact ⟨valuation, rfl, hleg⟩

theorem legOf_asset {policy : Policy} {asset : String} {amount : Rat} {leg : Leg}
    (h : legOf policy asset amount = some leg) : leg.asset = asset := by
  unfold legOf at h
  split at h
  · cases h
  · injection h with h
    rw [← h]

/-- The legs come from the amounts in order. -/
theorem assets_sublist (policy : Policy) (es : List (String × Rat)) :
    ((es.filterMap fun e => legOf policy e.1 e.2).map Leg.asset).Sublist (es.map Prod.fst) := by
  induction es with
  | nil => exact List.Sublist.refl _
  | cons e es ih =>
    cases hl : legOf policy e.1 e.2 with
    | none => simpa [List.filterMap_cons, hl] using ih.cons e.1
    | some leg => simpa [List.filterMap_cons, hl, legOf_asset hl] using ih

/-- Every leg has a positive amount, and no asset has two legs. -/
theorem reconcile_legs {holdings prices targets : Dict String Rat} {cash : Rat} {policy : Policy}
    {legs : List Leg} (h : reconcile holdings prices targets cash policy = .ok legs) :
    (∀ leg ∈ legs, 0 < leg.amountFiat) ∧ (legs.map Leg.asset).Nodup := by
  constructor
  · intro leg hleg
    obtain ⟨-, -, e, -, he⟩ := mem_reconcile h hleg
    unfold legOf at he
    split at he
    · cases he
    · rename_i hz
      injection he with he
      subst he
      rw [not_or] at hz
      exact lt_of_le_of_ne (abs_nonneg _) (Ne.symm hz.2)
  · unfold reconcile at h
    cases hv : valuePortfolio holdings prices targets cash with
    | error e => rw [hv] at h; cases h
    | ok valuation =>
      rw [hv] at h
      injection h with h
      subst h
      rw [((List.perm_insertionSort legBefore _).map Leg.asset).nodup_iff]
      exact (amounts policy valuation targets).nodup.sublist (assets_sublist policy _)

/-- A plan without sells is a list of buys. -/
theorem reconcile_buys {holdings prices targets : Dict String Rat} {cash : Rat} {policy : Policy}
    (hp : policy.allowSells = false) {legs : List Leg}
    (h : reconcile holdings prices targets cash policy = .ok legs) :
    ∀ leg ∈ legs, leg.side = .buy := by
  intro leg hleg
  obtain ⟨valuation, -, e, he, hl⟩ := mem_reconcile h hleg
  have hpos := amounts_pos hp he
  unfold legOf at hl
  split at hl
  · cases hl
  · injection hl with hl
    rw [← hl]

end Coinpilot.Engine
