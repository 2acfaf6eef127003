import Mathlib.Data.List.Perm.Subperm
import Mathlib.Data.List.Sort

/-!
# A batch of the first in order

A list is sorted by a stable sort and its first elements are taken. Leaving some elements out before
the sort comes to leaving them out after it (`filter_mergeSort`), and so does leaving them out of the
batch, unless they stand in it while others are cut off (`filter_take`). Whoever is left out has a batch
ahead (`mem_take_or_before`).
-/

set_option autoImplicit false

namespace Coinpilot.Lib.Batch

variable {α : Type} {le : α → α → Bool} {p : α → Bool}

/-- A prefix that fails a test, and a rest that passes it, are told apart by it. -/
theorem prefix_unique {q : α → Bool} {l₁ l₂ m₁ m₂ : List α} (h : l₁ ++ l₂ = m₁ ++ m₂)
    (hl₁ : ∀ x ∈ l₁, q x = false) (hl₂ : ∀ x ∈ l₂, q x = true) (hm₁ : ∀ x ∈ m₁, q x = false)
    (hm₂ : ∀ x ∈ m₂, q x = true) : l₁ = m₁ ∧ l₂ = m₂ := by
  have hfirst : ∀ {k₁ k₂ : List α}, (∀ x ∈ k₁, q x = false) → (∀ x ∈ k₂, q x = true) →
      (k₁ ++ k₂).filter (fun x => !q x) = k₁ ∧ (k₁ ++ k₂).filter q = k₂ := by
    intro k₁ k₂ h₁ h₂
    rw [List.filter_append, List.filter_append]
    refine ⟨?_, ?_⟩
    · rw [List.filter_eq_self.mpr (by simpa using h₁), List.filter_eq_nil_iff.mpr (by simpa using h₂),
        List.append_nil]
    · rw [List.filter_eq_nil_iff.mpr (by simpa using h₁), List.filter_eq_self.mpr h₂, List.nil_append]
  constructor
  · rw [← (hfirst hl₁ hl₂).1, h, (hfirst hm₁ hm₂).1]
  · rw [← (hfirst hl₁ hl₂).2, h, (hfirst hm₁ hm₂).2]

/-- A stable sort keeps what a filter keeps in the same order. -/
theorem filter_mergeSort (trans : ∀ a b c, le a b → le b c → le a c)
    (total : ∀ a b, le a b || le b a) (l : List α) :
    (l.mergeSort le).filter p = (l.filter p).mergeSort le := by
  induction l with
  | nil => simp
  | cons a l ih =>
    obtain ⟨l₁, l₂, hsorted, hrest, hbefore⟩ := List.mergeSort_cons trans total a l
    have hafter : ∀ b ∈ l₂, le a b = true := by
      have hpairwise := List.pairwise_mergeSort trans total (a :: l)
      rw [hsorted] at hpairwise
      exact (List.pairwise_cons.mp (List.pairwise_append.mp hpairwise).2.1).1
    rw [hrest] at ih
    by_cases ha : p a = true
    · obtain ⟨m₁, m₂, hsorted', hrest', hbefore'⟩ := List.mergeSort_cons trans total a (l.filter p)
      have hafter' : ∀ b ∈ m₂, le a b = true := by
        have hpairwise := List.pairwise_mergeSort trans total (a :: l.filter p)
        rw [hsorted'] at hpairwise
        exact (List.pairwise_cons.mp (List.pairwise_append.mp hpairwise).2.1).1
      rw [hrest', List.filter_append] at ih
      obtain ⟨h₁, h₂⟩ := prefix_unique ih
        (fun x hx => by simpa using hbefore x (List.mem_of_mem_filter hx))
        (fun x hx => hafter x (List.mem_of_mem_filter hx)) (fun x hx => by simpa using hbefore' x hx)
        hafter'
      rw [hsorted, List.filter_append, List.filter_cons_of_pos ha, List.filter_cons_of_pos ha, hsorted',
        h₁, h₂]
    · rw [hsorted, List.filter_append, List.filter_cons_of_neg ha, List.filter_cons_of_neg ha, ← ih,
        List.filter_append]

/-- What fails the test is not in the batch, or nothing else is cut off. -/
def Undisplaced (p : α → Bool) (n : Nat) (l : List α) : Prop :=
  (∀ x ∈ l.take n, p x = true) ∨ ∀ x ∈ l.drop n, p x = false

/-- Then the batch without it is the batch of the others. -/
theorem filter_take {n : Nat} {l : List α} (h : Undisplaced p n l) :
    (l.take n).filter p = (l.filter p).take n := by
  have hsplit : l.filter p = (l.take n).filter p ++ (l.drop n).filter p := by
    rw [← List.filter_append, List.take_append_drop]
  rcases h with htaken | hcut
  · rw [hsplit, List.filter_eq_self.mpr htaken]
    rcases Nat.le_total n l.length with hle | hle
    · exact (List.take_left' (List.length_take_of_le hle)).symm
    · rw [List.drop_of_length_le hle, List.take_of_length_le hle, List.filter_nil, List.append_nil,
        List.take_of_length_le hle]
  · have hnone : (l.drop n).filter p = [] := List.filter_eq_nil_iff.mpr (by simpa using hcut)
    have hshort : ((l.take n).filter p).length ≤ n :=
      (List.length_filter_le _ _).trans (List.length_take_le _ _)
    rw [hsplit, hnone, List.append_nil, List.take_of_length_le hshort]

/-! ## Those left out -/

/-- Whoever is in a sorted list is in its batch, or the batch is full of those that come before. -/
theorem mem_take_or_before {l : List α} (hsorted : l.Pairwise fun a b => le a b = true) (n : Nat) {a : α}
    (ha : a ∈ l) : a ∈ l.take n ∨ (l.take n).length = n ∧ ∀ b ∈ l.take n, le b a = true := by
  rw [← List.take_append_drop n l] at ha hsorted
  rcases List.mem_append.mp ha with htaken | hleft
  · exact .inl htaken
  · have hlong : n ≤ l.length := by
      by_contra hshort
      rw [List.drop_of_length_le (by omega)] at hleft
      cases hleft
    exact .inr ⟨List.length_take_of_le hlong, fun b hb => (List.pairwise_append.mp hsorted).2.2 b hb a hleft⟩

/-- Those that are served no longer count, and nobody else comes to count. -/
theorem countP_add_served {users served : List α} {before after : α → Bool} (hnodup : served.Nodup)
    (hserved : ∀ a ∈ served, a ∈ users ∧ before a = true ∧ after a = false)
    (hkept : ∀ a ∈ users, after a = true → before a = true) :
    users.countP after + served.length ≤ users.countP before := by
  have hsplit : users.countP before = users.countP after + users.countP fun a => before a && !after a := by
    clear hserved
    induction users with
    | nil => rfl
    | cons a users ih =>
      have ih := ih fun b hb => hkept b (List.mem_cons_of_mem _ hb)
      have ha := hkept a List.mem_cons_self
      rw [List.countP_cons, List.countP_cons, List.countP_cons, ih]
      cases hb : before a <;> cases hc : after a <;> simp_all <;> omega
  have hsub : served ⊆ users.filter fun a => before a && !after a := by
    intro a ha
    obtain ⟨hmem, hbefore, hafter⟩ := hserved a ha
    exact List.mem_filter.mpr ⟨hmem, by simp [hbefore, hafter]⟩
  rw [hsplit, List.countP_eq_length_filter (p := fun a => before a && !after a)]
  exact Nat.add_le_add_left (hnodup.subperm hsub).length_le _

end Coinpilot.Lib.Batch
