import Mathlib.Algebra.Order.Group.Defs
import Mathlib.Algebra.BigOperators.Group.List.Basic
import Mathlib.Algebra.Order.BigOperators.Group.List
import Mathlib.Tactic.Abel

/-!
# Serving demands in order

A budget serves demands one after the other, each in full while it lasts (`grant`). It ends in one of
three ways (`Granted`): every demand is granted and the rest of the budget is left, the budget ends with
a demand, or it ends within one, which gets what there still was. What is granted comes to the budget
or leaves the rest of it (`Granted.total_add`, `Granted.left_eq`), and where the largest demands come
first, none is granted before a larger one (`Granted.first`).
-/

set_option autoImplicit false

namespace Coinpilot.Lib.Greedy

variable {κ α : Type} [AddCommGroup α]

/-- What the demands come to. -/
def total (demands : List (κ × α)) : α := (demands.map Prod.snd).sum

@[simp] theorem total_nil : total ([] : List (κ × α)) = 0 := rfl

@[simp] theorem total_cons (demand : κ × α) (rest : List (κ × α)) :
    total (demand :: rest) = demand.2 + total rest := List.sum_cons

@[simp] theorem total_append (xs ys : List (κ × α)) : total (xs ++ ys) = total xs + total ys := by
  simp [total]

variable [LinearOrder α]

/-- What each demand gets, in order, and what is left of the budget. -/
def grant : List (κ × α) → α → List (κ × α) × α
  | [], budget => ([], budget)
  | demand :: rest, budget =>
      if budget ≤ 0 then ([], budget)
      else
        let take := if demand.2 ≤ budget then demand.2 else budget
        let others := grant rest (budget - take)
        ((demand.1, take) :: others.1, others.2)

/-- How a budget is spent on demands: what is granted, and what is left. -/
inductive Granted : List (κ × α) → α → List (κ × α) → α → Prop where
  | all {demands : List (κ × α)} {budget : α} : total demands ≤ budget →
      Granted demands budget demands (budget - total demands)
  | exact {full rest : List (κ × α)} : Granted (full ++ rest) (total full) full 0
  | short {full rest : List (κ × α)} {k : κ} {d budget : α} : total full < budget →
      budget - total full < d →
      Granted (full ++ (k, d) :: rest) budget (full ++ [(k, budget - total full)]) 0

section Facts

variable {demands granted : List (κ × α)} {budget left : α}

/-- What is granted and what is left come to the budget. -/
theorem Granted.total_add (h : Granted demands budget granted left) : total granted + left = budget := by
  cases h with
  | all => rw [add_sub_cancel]
  | exact => rw [add_zero]
  | short => simp

/-- Demands of at least the budget leave nothing of it. -/
theorem Granted.left_eq (h : Granted demands budget granted left) (hle : budget ≤ total demands) :
    left = 0 := by
  cases h with
  | all hall => rw [le_antisymm hle hall, sub_self]
  | exact => rfl
  | short => rfl

/-- Only one demand may be granted in part. -/
theorem Granted.one_short (h : Granted demands budget granted left) {x y : κ × α} (hx : x ∈ granted)
    (hy : y ∈ granted) (hx' : x ∉ demands) (hy' : y ∉ demands) : x = y := by
  cases h with
  | all => exact absurd hx hx'
  | exact => exact absurd (List.mem_append_left _ hx) hx'
  | short hlt hgap =>
    rcases List.mem_append.mp hx with hfull | hlast
    · exact absurd (List.mem_append_left _ hfull) hx'
    · rcases List.mem_append.mp hy with hfull | hlast'
      · exact absurd (List.mem_append_left _ hfull) hy'
      · rw [List.mem_singleton.mp hlast, List.mem_singleton.mp hlast']

variable [IsOrderedAddMonoid α]

/-- Where the largest demands come first, every demand that is larger than one granted is granted in
full. -/
theorem Granted.first (h : Granted demands budget granted left) (hpos : ∀ x ∈ demands, 0 < x.2)
    (hsorted : demands.Pairwise fun x y => y.2 ≤ x.2) {x : κ × α} (hx : x ∈ granted) :
    ∃ d, (x.1, d) ∈ demands ∧ 0 < x.2 ∧ x.2 ≤ d ∧ ∀ y ∈ demands, d < y.2 → y ∈ granted := by
  cases h with
  | all => exact ⟨x.2, hx, hpos x hx, le_rfl, fun y hy _ => hy⟩
  | exact =>
    refine ⟨x.2, List.mem_append_left _ hx, hpos x (List.mem_append_left _ hx), le_rfl, ?_⟩
    intro y hy hlt
    rcases List.mem_append.mp hy with hfull | hrest
    · exact hfull
    · exact absurd hlt (not_lt.mpr ((List.pairwise_append.mp hsorted).2.2 x hx y hrest))
  | @short full rest k d _ hlt hgap =>
    obtain ⟨-, hrestSorted, hacross⟩ := List.pairwise_append.mp hsorted
    rcases List.mem_append.mp hx with hfull | hlast
    · refine ⟨x.2, List.mem_append_left _ hfull, hpos x (List.mem_append_left _ hfull), le_rfl, ?_⟩
      intro y hy hlarger
      rcases List.mem_append.mp hy with hyfull | hyrest
      · exact List.mem_append_left _ hyfull
      · exact absurd hlarger (not_lt.mpr (hacross x hfull y hyrest))
    · obtain rfl := List.mem_singleton.mp hlast
      refine ⟨d, List.mem_append_right _ List.mem_cons_self, sub_pos.mpr hlt, hgap.le, ?_⟩
      intro y hy hlarger
      rcases List.mem_append.mp hy with hyfull | hyrest
      · exact List.mem_append_left _ hyfull
      · rcases List.mem_cons.mp hyrest with rfl | hlater
        · exact absurd hlarger (lt_irrefl _)
        · exact absurd hlarger (not_lt.mpr ((List.pairwise_cons.mp hrestSorted).1 y hlater))

end Facts

section Loop

variable [IsOrderedAddMonoid α]

/-- A demand that is granted in full takes its amount off the budget of the others. -/
theorem Granted.cons {demands granted : List (κ × α)} {budget left : α} {demand : κ × α}
    (h : Granted demands (budget - demand.2) granted left) :
    Granted (demand :: demands) budget (demand :: granted) left := by
  generalize hb : budget - demand.2 = b at h
  obtain rfl : budget = demand.2 + b := by rw [← hb]; abel
  cases h with
  | all hle =>
    have hleft : demand.2 + b - total (demand :: demands) = b - total demands := by
      rw [total_cons]
      abel
    rw [← hleft]
    refine .all ?_
    rw [total_cons]
    exact add_le_add_right hle _
  | @exact _ rest =>
    have hexact : Granted ((demand :: granted) ++ rest) (total (demand :: granted)) (demand :: granted) 0 :=
      .exact
    rwa [total_cons] at hexact
  | @short full rest k d _ hlt hgap =>
    have hrest : demand.2 + b - total (demand :: full) = b - total full := by
      rw [total_cons]
      abel
    rw [← hrest]
    refine .short ?_ (hrest.trans_lt hgap)
    rw [total_cons]
    exact add_lt_add_right hlt _

/-- The loop spends a budget on positive demands. -/
theorem granted_grant {demands : List (κ × α)} (hpos : ∀ x ∈ demands, 0 < x.2) {budget : α}
    (hb : 0 ≤ budget) : Granted demands budget (grant demands budget).1 (grant demands budget).2 := by
  induction demands generalizing budget with
  | nil =>
    have hall : Granted ([] : List (κ × α)) budget [] (budget - total ([] : List (κ × α))) := .all hb
    rwa [total_nil, sub_zero] at hall
  | cons demand rest ih =>
    have hrest : ∀ x ∈ rest, 0 < x.2 := fun x hx => hpos x (List.mem_cons_of_mem _ hx)
    rw [grant]
    split
    · -- Nothing is left: no demand is granted.
      rename_i hle
      obtain rfl : budget = 0 := le_antisymm hle hb
      exact (.exact : Granted ([] ++ demand :: rest) (total []) [] 0)
    · rename_i hgt
      dsimp only
      split
      · rename_i hfits
        exact (ih hrest (sub_nonneg.mpr hfits)).cons
      · -- The budget ends within this demand, and the others find nothing left.
        rename_i hlarge
        have hnone : grant rest (budget - budget) = ([], 0) := by
          rw [sub_self]
          cases rest with
          | nil => rfl
          | cons x xs => exact if_pos le_rfl
        rw [hnone]
        have hshort : Granted ([] ++ (demand.1, demand.2) :: rest) budget
            ([] ++ [(demand.1, budget - total ([] : List (κ × α)))]) 0 := by
          refine .short (not_le.mp hgt) ?_
          rw [total_nil, sub_zero]
          exact not_le.mp hlarge
        rwa [total_nil, sub_zero] at hshort

end Loop

end Coinpilot.Lib.Greedy
