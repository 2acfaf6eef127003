import Coinpilot.Lib.Rounding
import Mathlib.Algebra.BigOperators.Ring.List
import Mathlib.Algebra.Order.BigOperators.Group.List

/-!
# Shares rounded down

A number is rounded half up to many places and the result down to few (`roundTwice`). It ends less than
one unit of the few places below where it was, and above it by the error of the first rounding at most.
Whole numbers that exceed shares of `total` by a small error each sum to no more than `total`, however
many they are: a share that has become one or more was nearly one, so its error is a small part of it
(`sum_le_of_nearly`).
-/

set_option autoImplicit false

namespace Coinpilot.Lib.Shares

/-! ## One number -/

section Rounding

variable {q : Rat}

theorem quantize_halfUp_eq (hq : 0 ≤ q) (places : Int) :
    (Decimal.quantize q places .halfUp).value =
      (⌊q * (10 : Rat) ^ places + 1 / 2⌋ : Rat) * (10 : Rat) ^ (-places) := by
  have hround : Rounding.halfUp.round (q * (10 : Rat) ^ places) = ⌊q * (10 : Rat) ^ places + 1 / 2⌋ :=
    if_pos (mul_nonneg hq (Decimal.ten_zpow_pos places).le)
  rw [← hround]
  rfl

theorem quantize_halfUp_nonneg (hq : 0 ≤ q) (places : Int) :
    0 ≤ (Decimal.quantize q places .halfUp).value := by
  rw [quantize_halfUp_eq hq]
  have hscaled := mul_nonneg hq (Decimal.ten_zpow_pos places).le
  have hfloor : (0 : Int) ≤ ⌊q * (10 : Rat) ^ places + 1 / 2⌋ := Int.floor_nonneg.mpr (by linarith)
  exact mul_nonneg (by exact_mod_cast hfloor) (Decimal.ten_zpow_pos _).le

/-- Rounding half up raises by half a unit at most. -/
theorem quantize_halfUp_le (hq : 0 ≤ q) (places : Int) :
    (Decimal.quantize q places .halfUp).value ≤ q + 1 / 2 * (10 : Rat) ^ (-places) := by
  rw [quantize_halfUp_eq hq]
  calc (⌊q * (10 : Rat) ^ places + 1 / 2⌋ : Rat) * (10 : Rat) ^ (-places)
      ≤ (q * (10 : Rat) ^ places + 1 / 2) * (10 : Rat) ^ (-places) :=
        mul_le_mul_of_nonneg_right (Int.floor_le _) (Decimal.ten_zpow_pos _).le
    _ = q + 1 / 2 * (10 : Rat) ^ (-places) := by rw [add_mul, Decimal.scaled_back]

/-- Half up to `many` places, and then down to `few`. -/
def roundTwice (many few : Int) (q : Rat) : Decimal :=
  Decimal.quantize (Decimal.quantize q many .halfUp).value few .down

variable {many few : Int}

theorem roundTwice_nonneg (hq : 0 ≤ q) : 0 ≤ (roundTwice many few q).value :=
  Decimal.quantize_down_nonneg (quantize_halfUp_nonneg hq many) few

theorem roundTwice_le (many few : Int) (hq : 0 ≤ q) :
    (roundTwice many few q).value ≤ q + 1 / 2 * (10 : Rat) ^ (-many) :=
  (Decimal.quantize_down_le (quantize_halfUp_nonneg hq many) few).trans (quantize_halfUp_le hq many)

/-- One unit more would have been reached by the first rounding already. -/
theorem lt_roundTwice_add (hq : 0 ≤ q) (h : few ≤ many) :
    q < (roundTwice many few q).value + (10 : Rat) ^ (-few) := by
  by_contra hge
  rw [not_lt] at hge
  obtain ⟨n, hn⟩ := Decimal.onGrid_quantize (Decimal.quantize q many .halfUp).value few .down
  have hgrid : Decimal.OnGrid few ((roundTwice many few q).value + (10 : Rat) ^ (-few)) := by
    refine ⟨n + 1, ?_⟩
    rw [roundTwice, hn]
    push_cast
    ring
  have hreached := Decimal.le_quantize .halfUp (Decimal.onGrid_finer h hgrid) hge
  have hlt := Decimal.sub_quantize_down_lt (quantize_halfUp_nonneg hq many) few
  rw [roundTwice] at hreached
  linarith

end Rounding

/-! ## Their sum -/

section Sums

variable {α : Type} {n : α → Int} {share : α → Rat} {l : List α} {total : Int} {ε : Rat}

/-- A whole number that is one at least exceeds its share by a part `ε` of itself at most. -/
theorem nearly_le {n : Int} {share : Rat} (hshare : 0 ≤ share) (hε : ε ≤ 1) (h : (n : Rat) ≤ share + ε)
    (hpos : 0 ≤ ε) : (1 - ε) * n ≤ share := by
  rcases Int.lt_or_le 0 n with hn | hn
  · have hone : (1 : Rat) ≤ n := by exact_mod_cast hn
    have hpart : ε * 1 ≤ ε * n := mul_le_mul_of_nonneg_left hone hpos
    linarith
  · have hn' : (n : Rat) ≤ 0 := by exact_mod_cast hn
    exact (mul_nonpos_of_nonneg_of_nonpos (by linarith) hn').trans hshare

theorem cast_sum (n : α → Int) (l : List α) :
    (((l.map n).sum : Int) : Rat) = (l.map fun a => (n a : Rat)).sum := by
  have hhom := map_list_sum (Int.castRingHom Rat) (l.map n)
  rwa [List.map_map] at hhom

theorem sum_le_of_nearly (hshare : ∀ a ∈ l, 0 ≤ share a) (hn : ∀ a ∈ l, (n a : Rat) ≤ share a + ε)
    (hpos : 0 ≤ ε) (htotal : 0 ≤ total) (hsmall : ε * (total + 1) < 1)
    (hsum : (l.map share).sum ≤ total) : (l.map n).sum ≤ total := by
  have hnonneg : (0 : Rat) ≤ total := by exact_mod_cast htotal
  have hε : ε ≤ 1 := by nlinarith
  have hscaled : (1 - ε) * ((l.map n).sum : Int) ≤ (total : Rat) := by
    rw [cast_sum, ← List.sum_map_mul_left]
    exact (List.sum_le_sum fun a ha => nearly_le (hshare a ha) hε (hn a ha) hpos).trans hsum
  by_contra hmore
  have hmore' : (total : Rat) + 1 ≤ ((l.map n).sum : Int) := by
    exact_mod_cast Int.add_one_le_iff.mpr (not_le.mp hmore)
  have hfactor : (1 - ε) * ((total : Rat) + 1) ≤ (1 - ε) * ((l.map n).sum : Int) :=
    mul_le_mul_of_nonneg_left hmore' (by linarith)
  linarith

end Sums

end Coinpilot.Lib.Shares
