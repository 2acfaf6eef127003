import Coinpilot.Safety.Placements

/-!
# The budget of the buys

What a filled sell is credited (`raised`), and the buys cut to a budget: each fits its leg, and together they
spend at most the budget, or nothing (`within_ok`).
-/

set_option autoImplicit false

namespace Coinpilot.Safety

open Coinpilot.Lib Coinpilot.Lib.Program Coinpilot.Exchange Coinpilot.Engine Coinpilot.Core

/-- The buy orders of a trace. -/
def buys (t : Trace) : List Ordered := (orders t).filter fun o => o.side = "buy"

/-- What the buy orders of a trace come to. -/
def bought (t : Trace) : Rat := ((buys t).map fun o => o.volume.value).sum

/-- What one filled sell is credited. -/
def creditedOf (places : Int) (result : LegResult) : Rat :=
  match creditedAmount (result.cost.getD (.finite .zero)) (result.fee.getD (.finite .zero)) places with
  | .ok (.finite d) => d.value
  | _ => 0

/-- What the filled sells raised. -/
def raised (places : Int) (results : List LegResult) : Rat :=
  ((results.filter fun r => r.side = .sell ∧ r.status = .filled).map (creditedOf places)).sum

theorem raised_append (places : Int) (xs ys : List LegResult) :
    raised places (xs ++ ys) = raised places xs + raised places ys := by
  simp [raised]

/-- Buys raise nothing. -/
theorem raised_of_buys {places : Int} {results : List LegResult} (h : ∀ r ∈ results, r.side = .buy) :
    raised places results = 0 := by
  have hnone : results.filter (fun r => r.side = .sell ∧ r.status = .filled) = [] := by
    refine List.filter_eq_nil_iff.mpr ?_
    intro r hr
    simp [h r hr]
  rw [raised, hnone]
  rfl

/-! ## The buys inside the budget -/

/-- What the executor may make of a buy: the same pair, and if it is sent, the buy was to be sent, for at
least as much, on the pair's grid and from its minimum on. -/
structure Fits (leg fit : PlannedLeg) : Prop where
  pair : fit.pair = leg.pair
  side : fit.side = leg.side
  sent : fit.note = none → leg.note = none ∧ fit.amount.value ≤ leg.amount.value ∧
    fit.pairMeta = leg.pairMeta ∧ fit.minimum = leg.minimum

theorem Fits.refl (leg : PlannedLeg) : Fits leg leg := ⟨rfl, rfl, fun h => ⟨h, le_rfl, rfl, rfl⟩⟩

/-- A leg that is sent has an amount of at least zero. -/
def Spendable (leg : PlannedLeg) : Prop := leg.note = none → 0 ≤ leg.amount.value

/-- What shrinking does to a leg. -/
theorem shrink_facts (factor : Rat) (fiat : String) (leg : PlannedLeg) :
    (shrink factor fiat leg).pair = leg.pair ∧ (shrink factor fiat leg).pairMeta = leg.pairMeta ∧
      (shrink factor fiat leg).minimum = leg.minimum ∧
      ((shrink factor fiat leg).note = none → leg.note = none ∧
        ∃ m, (shrink factor fiat leg).amount = roundCost m (leg.amount.value * factor)) := by
  unfold shrink
  split
  · rename_i m least hn hm hl
    dsimp only
    split
    · refine ⟨rfl, rfl, rfl, ?_⟩
      intro hnote
      cases hnote
    · exact ⟨rfl, rfl, rfl, fun hnote => ⟨hnote, m, rfl⟩⟩
  · rename_i hother
    refine ⟨rfl, rfl, rfl, ?_⟩
    intro hnote
    obtain ⟨m, least, hm, hl, -⟩ := leg.sized hnote
    exact absurd hl (hother m least hnote hm)

/-- A buy that is shrunk by a factor of at most one. -/
theorem fits_shrink {factor : Rat} (hf : factor ≤ 1) (fiat : String) {leg : PlannedLeg} (h : Spendable leg) :
    Fits leg (shrink factor fiat leg) := by
  obtain ⟨hpair, hmeta, hleast, hsent⟩ := shrink_facts factor fiat leg
  refine ⟨hpair, shrink_side factor fiat leg, ?_⟩
  intro hnote
  obtain ⟨hn, m, hamount⟩ := hsent hnote
  have hpos : 0 ≤ leg.amount.value := h hn
  refine ⟨hn, ?_, hmeta, hleast⟩
  rw [hamount]
  rcases le_total 0 factor with hzero | hneg
  · calc (roundCost m (leg.amount.value * factor)).value
        ≤ leg.amount.value * factor := roundCost_le (mul_nonneg hpos hzero)
      _ ≤ leg.amount.value := mul_le_of_le_one_right hpos hf
  · exact (roundCost_nonpos (mul_nonpos_of_nonneg_of_nonpos hpos hneg)).trans hpos

/-- The amounts of the legs that are sent, those below zero as nothing. -/
def spent (legs : List PlannedLeg) : Rat :=
  ((legs.filter fun leg => leg.note = none).map fun leg => max 0 leg.amount.value).sum

theorem spent_cons (leg : PlannedLeg) (legs : List PlannedLeg) :
    spent (leg :: legs) = (if leg.note = none then max 0 leg.amount.value else 0) + spent legs := by
  unfold spent
  rw [List.filter_cons]
  by_cases hnote : leg.note = none <;> simp [hnote]

theorem asked_cons (leg : PlannedLeg) (legs : List PlannedLeg) :
    asked (leg :: legs) = (if leg.note = none then leg.amount.value else 0) + asked legs := by
  unfold asked
  rw [List.filter_cons]
  by_cases hnote : leg.note = none <;> simp [hnote]

/-- Spendable legs spend what they ask for. -/
theorem spent_eq_asked {legs : List PlannedLeg} (h : ∀ leg ∈ legs, Spendable leg) : spent legs = asked legs := by
  induction legs with
  | nil => rfl
  | cons leg legs ih =>
    rw [spent_cons, asked_cons, ih fun x hx => h x (List.mem_cons_of_mem _ hx)]
    by_cases hnote : leg.note = none
    · rw [if_pos hnote, if_pos hnote, max_eq_right (h leg List.mem_cons_self hnote)]
    · rw [if_neg hnote, if_neg hnote]

/-- Shrinking by a factor of at least zero spends at most that share of what was asked. -/
theorem spent_shrink_le {factor : Rat} (hf : 0 ≤ factor) (fiat : String) {legs : List PlannedLeg}
    (h : ∀ leg ∈ legs, Spendable leg) : spent (legs.map (shrink factor fiat)) ≤ asked legs * factor := by
  induction legs with
  | nil => simp [spent, asked]
  | cons leg legs ih =>
    have hrest := ih fun x hx => h x (List.mem_cons_of_mem _ hx)
    rw [List.map_cons, spent_cons, asked_cons, add_mul]
    refine add_le_add ?_ hrest
    obtain ⟨-, -, -, hsent⟩ := shrink_facts factor fiat leg
    by_cases hnote : (shrink factor fiat leg).note = none
    · obtain ⟨hn, m, hamount⟩ := hsent hnote
      have hpos : 0 ≤ leg.amount.value * factor := mul_nonneg (h leg List.mem_cons_self hn) hf
      rw [if_pos hnote, if_pos hn, hamount]
      exact max_le hpos (roundCost_le hpos)
    · rw [if_neg hnote]
      by_cases hn : leg.note = none
      · rw [if_pos hn]
        exact mul_nonneg (h leg List.mem_cons_self hn) hf
      · rw [if_neg hn, zero_mul]

/-- Shrinking by a factor of at most zero spends nothing. -/
theorem spent_shrink_nonpos {factor : Rat} (hf : factor ≤ 0) (fiat : String) {legs : List PlannedLeg}
    (h : ∀ leg ∈ legs, Spendable leg) : spent (legs.map (shrink factor fiat)) = 0 := by
  induction legs with
  | nil => rfl
  | cons leg legs ih =>
    rw [List.map_cons, spent_cons, ih fun x hx => h x (List.mem_cons_of_mem _ hx), add_zero]
    split
    · rename_i hnote
      obtain ⟨hn, m, hamount⟩ := (shrink_facts factor fiat leg).2.2.2 hnote
      rw [hamount]
      apply max_eq_left
      exact roundCost_nonpos (mul_nonpos_of_nonneg_of_nonpos (h leg List.mem_cons_self hn) hf)
    · rfl

/-- The buys inside a budget: each fits its leg, and together they spend at most the budget, or nothing. -/
theorem within_ok {legs fitted : List PlannedLeg} {budget : Rat} {fiat : String}
    (hlegs : ∀ leg ∈ legs, Spendable leg) (h : within legs (some budget) fiat = .ok fitted) :
    List.Forall₂ Fits legs fitted ∧ spent fitted ≤ max 0 budget := by
  have hasked : 0 ≤ asked legs := by
    refine List.sum_nonneg ?_
    intro x hx
    obtain ⟨leg, hleg, rfl⟩ := List.mem_map.mp hx
    obtain ⟨hmem, hnote⟩ := List.mem_filter.mp hleg
    exact hlegs leg hmem (by simpa using hnote)
  unfold within at h
  dsimp only at h
  split at h
  · rename_i hfit
    obtain rfl := Except.ok.inj h
    refine ⟨List.forall₂_same.mpr fun leg _ => Fits.refl leg, ?_⟩
    rw [spent_eq_asked hlegs]
    exact hfit.trans (le_max_right 0 budget)
  · rename_i hover
    split at h
    · cases h
    · rename_i hzero
      obtain rfl := Except.ok.inj h
      have hpos : 0 < asked legs := lt_of_le_of_ne hasked (Ne.symm hzero)
      have hfactor : budget / asked legs ≤ 1 := (div_le_one hpos).mpr (not_le.mp hover).le
      refine ⟨?_, ?_⟩
      · rw [List.forall₂_map_right_iff]
        exact List.forall₂_same.mpr fun leg hleg => fits_shrink hfactor fiat (hlegs leg hleg)
      · rcases le_total 0 budget with hb | hb
        · refine (spent_shrink_le (div_nonneg hb hasked) fiat hlegs).trans ?_
          rw [mul_div_cancel₀ _ hzero]
          exact le_max_right 0 budget
        · rw [spent_shrink_nonpos (div_nonpos_of_nonpos_of_nonneg hb hasked) fiat hlegs]
          exact le_max_left 0 budget

end Coinpilot.Safety
