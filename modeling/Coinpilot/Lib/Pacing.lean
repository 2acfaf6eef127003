import Mathlib.Algebra.Order.Group.Defs
import Mathlib.Algebra.Order.Monoid.Unbundled.Pow
import Mathlib.Data.List.GetD
import Mathlib.Tactic.Abel

/-!
# Slots that are handed out at a pace

A pacer hands out one slot after another: at once, or an interval after the last one. However the
requests come, the slots are an interval apart (`paced_reserve`), so a party of which `n` slots have
come has waited for `n - 1` intervals (`Paced.le_of_lt_countP`). And no slot is later than it has to
be: the last one is ahead of the clock by an interval for each slot that is still to come (`Prompt`).
-/

set_option autoImplicit false

namespace Coinpilot.Lib

variable {α : Type} [AddCommGroup α] [LinearOrder α]

/-- The next slot after the last one, asked for at `now`. -/
def nextSlotAt (interval now : α) : Option α → α
  | none => now
  | some last => max now (last + interval)

/-- The slots, first to last, are an interval apart, and none is before `start`. -/
def Paced (interval start : α) (slots : List α) : Prop :=
  ∀ (k : ℕ) (s : α), slots[k]? = some s → start + k • interval ≤ s

/-- The last slot is ahead of any clock from `now` on by no more than an interval for each slot that
is still to come. -/
def Prompt (interval now : α) (slots : List α) : Prop :=
  ∀ t, now ≤ t → ∀ s ∈ slots.getLast?, s ≤ t + (slots.countP fun s => t < s) • interval

section Slots

variable {interval start now : α} {slots : List α}

theorem paced_nil : Paced interval start ([] : List α) := by
  intro k s hs
  cases hs

theorem prompt_nil : Prompt interval now ([] : List α) := by
  intro t _ s hs
  cases hs

/-- A slot more. -/
theorem paced_append {s : α} (h : Paced interval start slots) (hs : start + slots.length • interval ≤ s) :
    Paced interval start (slots ++ [s]) := by
  intro k x hx
  rw [List.getElem?_append] at hx
  split at hx
  · exact h k x hx
  · rename_i hlt
    obtain ⟨hk, rfl⟩ : k - slots.length = 0 ∧ s = x := by
      cases hsub : k - slots.length with
      | zero =>
        rw [hsub] at hx
        exact ⟨rfl, Option.some.inj hx⟩
      | succ n =>
        rw [hsub] at hx
        cases hx
    rw [show k = slots.length by omega]
    exact hs

/-- Time passes. -/
theorem Prompt.later (h : Prompt interval now slots) {t : α} (ht : now ≤ t) : Prompt interval t slots :=
  fun t' ht' => h t' (le_trans ht ht')

variable [IsOrderedAddMonoid α]

/-- The next slot keeps the pace, whenever it is asked for. -/
theorem paced_reserve (h : Paced interval start slots) (hnow : start ≤ now) :
    Paced interval start (slots ++ [nextSlotAt interval now slots.getLast?]) := by
  refine paced_append h ?_
  cases hlast : slots.getLast? with
  | none =>
    rw [List.getLast?_eq_none_iff.mp hlast]
    simpa [nextSlotAt] using hnow
  | some last =>
    obtain ⟨before, rfl⟩ := List.getLast?_eq_some_iff.mp hlast
    have hle : start + before.length • interval ≤ last := h before.length last (by simp)
    rw [nextSlotAt, List.length_append, List.length_singleton, succ_nsmul, ← add_assoc]
    exact le_trans (by simpa using hle) (le_max_right _ _)

/-- Once more than `n` slots have come, `n` intervals have passed. -/
theorem Paced.le_of_lt_countP (h : Paced interval start slots) (hinterval : 0 ≤ interval) {t : α} {n : ℕ}
    (hn : n < slots.countP fun s => s ≤ t) : start + n • interval ≤ t := by
  -- Of the first `n` slots at most `n` have come, so a later one has.
  have hlater : ∃ s ∈ slots.drop n, s ≤ t := by
    by_contra hnone
    have hzero : (slots.drop n).countP (fun s => s ≤ t) = 0 := by
      refine List.countP_eq_zero.mpr fun s hs hle => hnone ⟨s, hs, of_decide_eq_true hle⟩
    have hsplit : slots.countP (fun s => s ≤ t) =
        (slots.take n).countP (fun s => s ≤ t) + (slots.drop n).countP (fun s => s ≤ t) := by
      rw [← List.countP_append, List.take_append_drop]
    have hfirst : (slots.take n).countP (fun s => s ≤ t) ≤ n :=
      le_trans List.countP_le_length (by simp)
    omega
  obtain ⟨s, hs, hle⟩ := hlater
  obtain ⟨k, hk⟩ := List.mem_iff_getElem?.mp hs
  rw [List.getElem?_drop] at hk
  have hslot := h (n + k) s hk
  refine le_trans ?_ (le_trans hslot hle)
  have hmore : n • interval ≤ (n + k) • interval := nsmul_le_nsmul_left hinterval (Nat.le_add_right n k)
  exact add_le_add_right hmore start

/-- The next slot is no later than it has to be. -/
theorem prompt_reserve (h : Prompt interval now slots) (hinterval : 0 ≤ interval) :
    Prompt interval now (slots ++ [nextSlotAt interval now slots.getLast?]) := by
  intro t ht s hs
  rw [List.getLast?_concat, Option.mem_some_iff] at hs
  rw [← hs, List.countP_append, List.countP_singleton]
  by_cases hcome : nextSlotAt interval now slots.getLast? ≤ t
  · exact le_trans hcome (le_add_of_nonneg_right (nsmul_nonneg hinterval _))
  · rw [if_pos (by simpa using hcome)]
    cases hlast : slots.getLast? with
    | none =>
      rw [hlast] at hcome
      exact absurd ht hcome
    | some last =>
      have hbehind := h t ht last hlast
      rw [hlast] at hcome
      -- The slot has not come, so it is an interval after the last one.
      have hslot : nextSlotAt interval now (some last) = last + interval := by
        rw [nextSlotAt]
        refine max_eq_right (le_of_not_ge fun hle => hcome ?_)
        rw [nextSlotAt, max_eq_left hle]
        exact ht
      rw [hslot, succ_nsmul, ← add_assoc]
      exact add_le_add_left hbehind interval

/-- How long the next party waits: an interval for each slot still to come, and one more. -/
theorem Prompt.wait_le (h : Prompt interval now slots) {last : α} (hlast : slots.getLast? = some last) :
    last + interval - now ≤ ((slots.countP fun s => now < s) + 1) • interval := by
  have hbehind := h now le_rfl last hlast
  rw [sub_le_iff_le_add', succ_nsmul, ← add_assoc]
  exact add_le_add_left hbehind interval

end Slots

end Coinpilot.Lib
