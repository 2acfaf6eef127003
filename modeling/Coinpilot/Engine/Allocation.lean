import Coinpilot.Engine.Reconcile
import Mathlib.Tactic.Ring

/-!
# An investment spends no more than it may

Both cash policies hand out at most the amount they are given (`sum_allocateProrata`,
`sum_allocateReduceDrift`), so the legs of a plan without sells come to at most the investable cash
(`sum_reconcile_le`). Weights are at least zero.
-/

set_option autoImplicit false

namespace Coinpilot.Engine

open Coinpilot.Lib

/-- No amount is below zero. -/
def Nonneg (d : Dict String Rat) : Prop := ∀ e ∈ d.entries, 0 ≤ e.2

theorem Nonneg.getD {d : Dict String Rat} (h : Nonneg d) (k : String) : 0 ≤ d.getD k 0 := by
  unfold Dict.getD
  cases hg : d.get? k with
  | none => simp
  | some v => simpa using h _ (Dict.mem_of_get? hg)

theorem Nonneg.set {d : Dict String Rat} (h : Nonneg d) {k : String} {a : Rat} (ha : 0 ≤ a) :
    Nonneg (d.set k a) := by
  intro e he
  rcases Dict.mem_of_mem_set he with rfl | he
  · exact ha
  · exact h e he

/-- Setting an amount adds at most that amount. -/
theorem sum_set_le {d : Dict String Rat} (h : Nonneg d) (k : String) (a : Rat) :
    (d.set k a).values.sum ≤ d.values.sum + a := by
  have hsum := d.sum_set k a
  have hold := h.getD k
  linarith

/-- The shares of the weights, in proportion. -/
theorem sum_shares (factor : Rat) {es : List (String × Rat)} (h : ∀ e ∈ es, 0 ≤ e.2) :
    ((Dict.keepEntries (fun _ pct => if 0 < pct then some (factor * pct) else none) es).map Prod.snd).sum =
      factor * (es.map Prod.snd).sum := by
  induction es with
  | nil => simp [Dict.keepEntries]
  | cons e es ih =>
    have hrest := ih fun x hx => h x (List.mem_cons_of_mem _ hx)
    have he : 0 ≤ e.2 := h e List.mem_cons_self
    unfold Dict.keepEntries at hrest ⊢
    rw [List.filterMap_cons]
    by_cases hpos : 0 < e.2
    · simp only [hpos, if_true, Option.map_some, List.map_cons, List.sum_cons, hrest]
      ring
    · have hzero : e.2 = 0 := le_antisymm (not_lt.mp hpos) he
      simp only [hzero, lt_irrefl, if_false, Option.map_none, List.map_cons, List.sum_cons, zero_add, hrest]

/-- A split in proportion hands out no more than the amount. -/
theorem sum_allocateProrata {amount : Rat} {targets : Dict String Rat} (h : Nonneg targets) :
    (allocateProrata amount targets).values.sum ≤ max 0 amount := by
  unfold allocateProrata
  dsimp only
  split
  · exact le_max_left _ _
  · rename_i hpos
    rw [not_or, not_le, not_le] at hpos
    have hne : targets.values.sum ≠ 0 := hpos.2.ne'
    have hshares := sum_shares (amount / targets.values.sum) h
    have hentries : (targets.filterMap fun _ pct =>
        if 0 < pct then some (amount * pct / targets.values.sum) else none).values.sum =
        amount / targets.values.sum * targets.values.sum := by
      simpa only [Dict.values, Dict.filterMap, div_mul_eq_mul_div] using hshares
    rw [hentries, div_mul_cancel₀ _ hne]
    exact le_max_right _ _

/-- What is handed out and what is left come to what there was. -/
theorem sum_spend {xs : List (String × Rat)} (hxs : ∀ x ∈ xs, 0 < x.2) {remaining : Rat}
    (hr : 0 ≤ remaining) {allocated : Dict String Rat} (ha : Nonneg allocated) :
    (spend xs remaining allocated).1.values.sum + (spend xs remaining allocated).2 ≤
      allocated.values.sum + remaining ∧
    0 ≤ (spend xs remaining allocated).2 ∧ Nonneg (spend xs remaining allocated).1 := by
  induction xs generalizing remaining allocated with
  | nil => exact ⟨le_rfl, hr, ha⟩
  | cons x xs ih =>
    obtain ⟨asset, shortfall⟩ := x
    have hshort : 0 < shortfall := hxs (asset, shortfall) List.mem_cons_self
    unfold spend
    split
    · exact ⟨le_rfl, hr, ha⟩
    · dsimp only
      -- What is taken is at most what remains.
      obtain ⟨take, htake, hpos, hle⟩ : ∃ take, (if shortfall ≤ remaining then shortfall else remaining) = take ∧
          0 ≤ take ∧ take ≤ remaining := by
        split
        · rename_i hfits
          exact ⟨shortfall, rfl, hshort.le, hfits⟩
        · exact ⟨remaining, rfl, hr, le_rfl⟩
      rw [htake]
      obtain ⟨hsum, hleft, hnonneg⟩ := ih (fun y hy => hxs y (List.mem_cons_of_mem _ hy))
        (sub_nonneg.mpr hle) (ha.set hpos)
      refine ⟨?_, hleft, hnonneg⟩
      have hset := sum_set_le ha asset take
      linarith

/-- Adding extras one by one adds their sum. -/
theorem sum_foldl_add (xs : List (String × Rat)) (acc : Dict String Rat) :
    (xs.foldl (fun acc e => acc.set e.1 (acc.getD e.1 0 + e.2)) acc).values.sum =
      acc.values.sum + (xs.map Prod.snd).sum := by
  induction xs generalizing acc with
  | nil => simp
  | cons x xs ih =>
    rw [List.foldl_cons, ih, List.map_cons, List.sum_cons]
    have hset := acc.sum_set x.1 (acc.getD x.1 0 + x.2)
    linarith

/-- Spending on the shortfalls first hands out no more than the amount. -/
theorem sum_allocateReduceDrift {amount : Rat} {assetDeltas targets : Dict String Rat} (h : Nonneg targets) :
    (allocateReduceDrift amount assetDeltas targets).values.sum ≤ max 0 amount := by
  unfold allocateReduceDrift
  split
  · exact le_max_left _ _
  · rename_i hpos
    have hshort : ∀ x ∈ (assetDeltas.filterMap fun _ d => if 0 < d then some d else none).entries.insertionSort
        shortfallBefore, 0 < x.2 := by
      intro x hx
      rw [List.mem_insertionSort] at hx
      obtain ⟨d, -, hd⟩ := Dict.mem_filterMap.mp hx
      split at hd
      · rename_i hd'
        exact Option.some.inj hd ▸ hd'
      · cases hd
    have hempty : Nonneg (Dict.empty : Dict String Rat) := by
      intro e he
      cases he
    obtain ⟨hsum, hleft, -⟩ := sum_spend hshort (not_le.mp hpos).le hempty
    have hzero : (Dict.empty : Dict String Rat).values.sum = 0 := rfl
    rw [hzero, zero_add] at hsum
    dsimp only
    split
    · have hextra := @sum_allocateProrata (spend ((assetDeltas.filterMap fun _ d =>
        if 0 < d then some d else none).entries.insertionSort shortfallBefore) amount Dict.empty).2 _ h
      rw [max_eq_right hleft] at hextra
      rw [sum_foldl_add]
      refine le_trans ?_ (le_max_right 0 amount)
      have hvalues : ∀ d : Dict String Rat, (d.entries.map Prod.snd).sum = d.values.sum := fun _ => rfl
      rw [hvalues]
      linarith
    · exact le_trans (by linarith) (le_max_right 0 amount)

/-- Without sells, the amounts come to at most the investable cash. -/
theorem sum_amounts_le {policy : Policy} (hp : policy.allowSells = false) (v : Valuation)
    {targets : Dict String Rat} (h : Nonneg targets) :
    (amounts policy v targets).values.sum ≤ investableCash v targets := by
  have hcash : max 0 (investableCash v targets) = investableCash v targets := by
    apply max_eq_right
    unfold investableCash
    dsimp only
    split
    · rename_i hpos
      exact hpos.le
    · exact le_rfl
  rw [← hcash]
  unfold amounts
  simp only [hp, Bool.false_eq_true, if_false]
  cases policy.cashPolicy with
  | prorata => exact sum_allocateProrata h
  | reduceDrift => exact sum_allocateReduceDrift h

/-- The legs come to at most the amounts they are made of. -/
theorem sum_legs_le (policy : Policy) {es : List (String × Rat)} (h : ∀ e ∈ es, 0 ≤ e.2) :
    ((es.filterMap fun e => legOf policy e.1 e.2).map Leg.amountFiat).sum ≤ (es.map Prod.snd).sum := by
  induction es with
  | nil => simp
  | cons e es ih =>
    have hrest := ih fun x hx => h x (List.mem_cons_of_mem _ hx)
    have he : 0 ≤ e.2 := h e List.mem_cons_self
    rw [List.filterMap_cons, List.map_cons, List.sum_cons]
    cases hleg : legOf policy e.1 e.2 with
    | none =>
      simp only
      linarith
    | some leg =>
      have hamount : leg.amountFiat = e.2 := by
        unfold legOf at hleg
        split at hleg
        · cases hleg
        · rw [← Option.some.inj hleg, abs_of_nonneg he]
      simp only [List.map_cons, List.sum_cons, hamount]
      linarith

/-- The legs of an investment come to at most the investable cash. -/
theorem sum_reconcile_le {holdings prices targets : Dict String Rat} {cash : Rat} {policy : Policy}
    (hp : policy.allowSells = false) (ht : Nonneg targets) {v : Valuation}
    (hv : valuePortfolio holdings prices targets cash = .ok v) {legs : List Leg}
    (h : reconcile holdings prices targets cash policy = .ok legs) :
    (legs.map Leg.amountFiat).sum ≤ investableCash v targets := by
  unfold reconcile at h
  rw [hv] at h
  obtain rfl := Except.ok.inj h
  have hperm := (List.perm_insertionSort legBefore
    ((amounts policy v targets).entries.filterMap fun e => legOf policy e.1 e.2)).map Leg.amountFiat
  rw [hperm.sum_eq]
  calc (((amounts policy v targets).entries.filterMap fun e => legOf policy e.1 e.2).map Leg.amountFiat).sum
      ≤ ((amounts policy v targets).entries.map Prod.snd).sum :=
        sum_legs_le policy fun e he => (amounts_pos hp he).le
    _ ≤ investableCash v targets := sum_amounts_le hp v ht

end Coinpilot.Engine
