import Mathlib.Data.List.Pairwise
import Mathlib.Order.Basic
import Mathlib.Order.Defs.LinearOrder

/-!
# Tickets that are taken in order and used later

A dispenser hands out increasing tickets. A party holds the one it took until it uses it or loses it.
The tickets in the order of their use are increasing as long as each that is used is the least one
held (`InOrder.use`); one that is used past a smaller one breaks the order when that one is used
(`not_sorted_of_overtaken`).
-/

set_option autoImplicit false

namespace Coinpilot.Lib

/-- The last ticket that was handed out, those held and by whom, and those used, first to last. -/
structure Tickets (ι α : Type) where
  last : α
  held : List (ι × α)
  used : List α

namespace Tickets

variable {ι α : Type} {t : Tickets ι α} {i j : ι} {n m : α}

/-- A party takes a ticket. -/
def take (t : Tickets ι α) (i : ι) (n : α) : Tickets ι α :=
  { t with last := n, held := (i, n) :: t.held }

/-- A ticket is handed out that nobody will use. -/
def skip (t : Tickets ι α) (n : α) : Tickets ι α := { t with last := n }

/-- The tickets were used in order, and those held come after them. -/
structure InOrder [Preorder α] (t : Tickets ι α) : Prop where
  sorted : t.used.Pairwise (· < ·)
  used_held : ∀ n ∈ t.used, ∀ p ∈ t.held, n < p.2
  used_last : ∀ n ∈ t.used, n ≤ t.last
  held_last : ∀ p ∈ t.held, p.2 ≤ t.last
  held_inj : ∀ p ∈ t.held, ∀ q ∈ t.held, p.2 = q.2 → p.1 = q.1

/-- Before anything is held or used. -/
theorem inOrder_idle [Preorder α] (last : α) : InOrder (⟨last, [], []⟩ : Tickets ι α) where
  sorted := List.Pairwise.nil
  used_held := by simp
  used_last := by simp
  held_last := by simp
  held_inj := by simp

/-- A ticket greater than the last keeps the order. -/
theorem InOrder.take [Preorder α] (h : t.InOrder) (i : ι) (hn : t.last < n) : (t.take i n).InOrder := by
  have hused : ∀ k ∈ t.used, k < n := fun k hk => lt_of_le_of_lt (h.used_last k hk) hn
  have hheld : ∀ p ∈ t.held, p.2 < n := fun p hp => lt_of_le_of_lt (h.held_last p hp) hn
  constructor
  · exact h.sorted
  · intro k hk p hp
    rcases List.mem_cons.mp hp with rfl | hp
    · exact hused k hk
    · exact h.used_held k hk p hp
  · exact fun k hk => le_of_lt (hused k hk)
  · intro p hp
    rcases List.mem_cons.mp hp with rfl | hp
    · exact le_refl n
    · exact le_of_lt (hheld p hp)
  · intro p hp q hq hpq
    -- the new ticket is greater than every other
    rcases List.mem_cons.mp hp with rfl | hp
    · rcases List.mem_cons.mp hq with rfl | hq
      · rfl
      · exact absurd hpq.symm (ne_of_lt (hheld q hq))
    · rcases List.mem_cons.mp hq with rfl | hq
      · exact absurd hpq (ne_of_lt (hheld p hp))
      · exact h.held_inj p hp q hq hpq

theorem InOrder.skip [Preorder α] (h : t.InOrder) (hn : t.last < n) : (t.skip n).InOrder where
  sorted := h.sorted
  used_held := h.used_held
  used_last k hk := le_trans (h.used_last k hk) (le_of_lt hn)
  held_last p hp := le_trans (h.held_last p hp) (le_of_lt hn)
  held_inj := h.held_inj

section Leaving

variable [DecidableEq ι]

/-- A party loses what it holds. -/
def drop (t : Tickets ι α) (i : ι) : Tickets ι α := { t with held := t.held.filter (·.1 ≠ i) }

/-- A party uses a ticket. -/
def use (t : Tickets ι α) (i : ι) (n : α) : Tickets ι α :=
  { t with held := t.held.filter (·.1 ≠ i), used := t.used ++ [n] }

theorem mem_held_drop {p : ι × α} : p ∈ (t.drop i).held ↔ p ∈ t.held ∧ p.1 ≠ i := by
  simp [drop]

theorem InOrder.drop [Preorder α] (h : t.InOrder) (i : ι) : (t.drop i).InOrder where
  sorted := h.sorted
  used_held n hn p hp := h.used_held n hn p (mem_held_drop.mp hp).1
  used_last := h.used_last
  held_last p hp := h.held_last p (mem_held_drop.mp hp).1
  held_inj p hp q hq := h.held_inj p (mem_held_drop.mp hp).1 q (mem_held_drop.mp hq).1

/-- The least ticket held keeps the order when it is used. -/
theorem InOrder.use [PartialOrder α] (h : t.InOrder) (hi : (i, n) ∈ t.held)
    (hleast : ∀ p ∈ t.held, n ≤ p.2) : (t.use i n).InOrder := by
  have hdrop := h.drop i
  have hused : ∀ k ∈ (t.use i n).used, k ∈ t.used ∨ k = n := fun k hk => by
    simpa [Tickets.use] using hk
  constructor
  · show (t.used ++ [n]).Pairwise (· < ·)
    rw [List.pairwise_append]
    refine ⟨h.sorted, List.pairwise_singleton _ n, fun k hk m hm => ?_⟩
    rw [List.mem_singleton.mp hm]
    exact h.used_held k hk (i, n) hi
  · intro k hk p hp
    rcases hused k hk with hk | rfl
    · exact hdrop.used_held k hk p hp
    · obtain ⟨hheld, hne⟩ := mem_held_drop.mp hp
      refine lt_of_le_of_ne (hleast p hheld) fun heq => hne ?_
      exact h.held_inj p hheld (i, k) hi heq.symm
  · intro k hk
    rcases hused k hk with hk | rfl
    · exact h.used_last k hk
    · exact h.held_last (i, k) hi
  · exact hdrop.held_last
  · exact hdrop.held_inj

/-- A ticket that is used past a smaller one: once the smaller one is used too, the order is broken. -/
theorem not_sorted_of_overtaken [Preorder α] (hm : m < n) :
    ¬((t.use i n).use j m).used.Pairwise (· < ·) := by
  intro h
  have hsorted : (t.used ++ [n] ++ [m]).Pairwise (· < ·) := h
  have hnm : n < m := (List.pairwise_append.mp hsorted).2.2 n (by simp) m (by simp)
  exact lt_asymm hnm hm

end Leaving

end Tickets

end Coinpilot.Lib
