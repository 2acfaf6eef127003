import Mathlib.Data.List.Sort
import Mathlib.Algebra.Order.BigOperators.Group.List
import Mathlib.Algebra.Order.Group.Defs

/-!
# Steps in ascending order

The steps of a sum that are taken from the least to the greatest first lower it and then raise it, so
on the way it exceeds neither where it starts nor where it ends (`sum_prefix_le`). A sort whose order
refines that of a key sorts by the key (`pairwise_insertionSort_key`).
-/

set_option autoImplicit false

namespace Coinpilot.Lib.Ascending

variable {α β : Type}

section Sums

variable [AddCommGroup α] [LinearOrder α] [IsOrderedAddMonoid α]

/-- The steps before a step that raises the sum may lower it; those from there on do not. -/
theorem sum_prefix_le (pre post : List α) (h : (pre ++ post).Pairwise (· ≤ ·)) {start bound : α}
    (hstart : start ≤ bound) (hend : start + (pre ++ post).sum ≤ bound) : start + pre.sum ≤ bound := by
  by_cases hraised : ∃ step ∈ pre, 0 < step
  · obtain ⟨step, hstep, hpos⟩ := hraised
    have hpost : 0 ≤ post.sum := by
      apply List.sum_nonneg
      intro x hx
      exact hpos.le.trans ((List.pairwise_append.mp h).2.2 step hstep x hx)
    calc start + pre.sum ≤ start + pre.sum + post.sum := le_add_of_nonneg_right hpost
      _ = start + (pre ++ post).sum := by rw [List.sum_append, add_assoc]
      _ ≤ bound := hend
  · push Not at hraised
    have hpre : pre.sum ≤ 0 := by
      simpa using List.sum_le_card_nsmul pre 0 hraised
    calc start + pre.sum ≤ start + 0 := add_le_add_right hpre start
      _ ≤ bound := by rwa [add_zero]

end Sums

section Keys

variable [LinearOrder β] {key : α → β} {r : α → α → Prop} [DecidableRel r]

theorem pairwise_orderedInsert_key (hle : ∀ a b, r a b → key a ≤ key b)
    (hge : ∀ a b, ¬r a b → key b ≤ key a) (a : α) {l : List α}
    (h : l.Pairwise fun a b => key a ≤ key b) :
    (l.orderedInsert r a).Pairwise fun a b => key a ≤ key b := by
  induction l with
  | nil => exact List.pairwise_singleton _ a
  | cons b l ih =>
    obtain ⟨hb, hl⟩ := List.pairwise_cons.mp h
    by_cases hab : r a b
    · rw [List.orderedInsert_cons_of_le r l hab]
      refine List.pairwise_cons.mpr ⟨?_, h⟩
      intro x hx
      rcases List.mem_cons.mp hx with rfl | hx
      · exact hle a x hab
      · exact (hle a b hab).trans (hb x hx)
    · rw [List.orderedInsert_of_not_le r l hab]
      refine List.pairwise_cons.mpr ⟨?_, ih hl⟩
      intro x hx
      rcases (List.mem_orderedInsert r).mp hx with rfl | hx
      · exact hge x b hab
      · exact hb x hx

theorem pairwise_insertionSort_key (hle : ∀ a b, r a b → key a ≤ key b)
    (hge : ∀ a b, ¬r a b → key b ≤ key a) (l : List α) :
    (l.insertionSort r).Pairwise fun a b => key a ≤ key b := by
  induction l with
  | nil => exact List.Pairwise.nil
  | cons a l ih => exact pairwise_orderedInsert_key hle hge a ih

end Keys

end Coinpilot.Lib.Ascending
