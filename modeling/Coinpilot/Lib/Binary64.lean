import Mathlib.Order.Nat
import Mathlib.Tactic.Common
import Mathlib.Tactic.Linarith
import Mathlib.Tactic.Zify

/-!
# Whole parts of floating-point quotients

A quotient of two integers, correctly rounded to the 53 bits of a binary64 number, ties to even,
and then truncated towards zero (`truncatedRatio`). The rounding may reach the next integer, so the
result is the floor or the ceiling of the quotient (`truncatedRatio_bounds`). It stands for
quotients below `2 ^ 53`, where every integer is a binary64 number.
-/

set_option autoImplicit false

namespace Coinpilot.Lib.Binary64

/-- `a / d` to the nearest integer, ties to even. -/
def nearest (a d : Nat) : Nat :=
  if 2 * (a % d) < d then a / d
  else if d < 2 * (a % d) then a / d + 1
  else a / d + a / d % 2

theorem nearest_bounds (a d : Nat) : a / d ≤ nearest a d ∧ nearest a d ≤ a / d + 1 := by
  unfold nearest
  split
  · omega
  · split
    · omega
    · omega

theorem nearest_of_dvd {a d : Nat} (hd : 0 < d) (h : a % d = 0) : nearest a d = a / d := by
  unfold nearest
  rw [if_pos (by omega)]

/-- The bits after the point that a binary64 number has for a quotient with whole part `q`. -/
def fractionBits (q : Nat) : Nat := if q = 0 then 53 else 52 - q.log2

/-- The whole part of the binary64 number nearest to `n / d`. -/
def wholeRatio (n d : Nat) : Nat :=
  let scale := 2 ^ fractionBits (n / d)
  nearest (n * scale) d / scale

theorem le_wholeRatio {n d : Nat} (hd : 0 < d) : n / d ≤ wholeRatio n d := by
  unfold wholeRatio
  dsimp only
  generalize fractionBits (n / d) = bits
  have hpos : 0 < 2 ^ bits := Nat.two_pow_pos bits
  have hfloor : n / d * 2 ^ bits ≤ n * 2 ^ bits / d := by
    rw [Nat.le_div_iff_mul_le hd]
    calc n / d * 2 ^ bits * d = n / d * d * 2 ^ bits := by ac_rfl
      _ ≤ n * 2 ^ bits := Nat.mul_le_mul_right _ (Nat.div_mul_le_self n d)
  rw [Nat.le_div_iff_mul_le hpos]
  exact hfloor.trans (nearest_bounds _ _).1

theorem wholeRatio_mul_lt {n d : Nat} (hd : 0 < d) : wholeRatio n d * d < n + d := by
  unfold wholeRatio
  dsimp only
  generalize fractionBits (n / d) = bits
  have hpos : 0 < 2 ^ bits := Nat.two_pow_pos bits
  by_cases hdvd : n % d = 0
  · -- a whole quotient is a binary64 number itself
    have hzero : n * 2 ^ bits % d = 0 := by
      rw [Nat.mul_mod, hdvd]
      simp
    have hexact : n * 2 ^ bits / d = n / d * 2 ^ bits := by
      obtain ⟨c, rfl⟩ := Nat.dvd_of_mod_eq_zero hdvd
      rw [Nat.mul_assoc, Nat.mul_div_cancel_left _ hd, Nat.mul_div_cancel_left _ hd]
    rw [nearest_of_dvd hd hzero, hexact, Nat.mul_div_cancel _ hpos]
    have := Nat.div_mul_le_self n d
    omega
  · have hlt : n * 2 ^ bits / d < (n / d + 1) * 2 ^ bits := by
      rw [Nat.div_lt_iff_lt_mul hd]
      calc n * 2 ^ bits < (n / d + 1) * d * 2 ^ bits :=
            Nat.mul_lt_mul_of_pos_right (Nat.lt_mul_of_div_lt (Nat.lt_succ_self _) hd) hpos
        _ = (n / d + 1) * 2 ^ bits * d := by ac_rfl
    have hle : nearest (n * 2 ^ bits) d / 2 ^ bits ≤ n / d + 1 := by
      have hnear : nearest (n * 2 ^ bits) d ≤ (n / d + 1) * 2 ^ bits :=
        (nearest_bounds (n * 2 ^ bits) d).2.trans hlt
      apply Nat.div_le_of_le_mul
      rwa [Nat.mul_comm (2 ^ bits)]
    have hsplit := Nat.div_add_mod' n d
    calc nearest (n * 2 ^ bits) d / 2 ^ bits * d ≤ (n / d + 1) * d := Nat.mul_le_mul_right d hle
      _ = n / d * d + d := by rw [Nat.add_mul, Nat.one_mul]
      _ < n + d := by omega

/-- `int(n / d)`: the quotient as a binary64 number, without what is after the point. -/
def truncatedRatio (n : Int) (d : Nat) : Int :=
  if 0 ≤ n then wholeRatio n.toNat d else -wholeRatio (-n).toNat d

/-- The truncated quotient is less than one away from the quotient, and never below its floor. -/
theorem truncatedRatio_bounds (n : Int) {d : Nat} (hd : 0 < d) :
    n / d ≤ truncatedRatio n d ∧ truncatedRatio n d * d < n + d := by
  have hdz : (0 : Int) < d := by omega
  unfold truncatedRatio
  split
  · rename_i hn
    obtain ⟨m, rfl⟩ := Int.eq_ofNat_of_zero_le hn
    rw [Int.toNat_natCast]
    have hlow := le_wholeRatio (n := m) hd
    have hhigh := wholeRatio_mul_lt (n := m) hd
    exact ⟨by exact_mod_cast hlow, by exact_mod_cast hhigh⟩
  · rename_i hn
    obtain ⟨m, hm⟩ := Int.eq_ofNat_of_zero_le (a := -n) (by omega)
    rw [hm, Int.toNat_natCast]
    have hlow := le_wholeRatio (n := m) hd
    have hhigh := wholeRatio_mul_lt (n := m) hd
    have hnext : m < (wholeRatio m d + 1) * d :=
      Nat.lt_mul_of_div_lt (Nat.lt_succ_of_le hlow) hd
    rw [Nat.add_mul, Nat.one_mul] at hnext
    zify at hhigh hnext
    constructor
    · apply Int.le_of_lt_add_one
      apply Int.ediv_lt_of_lt_mul hdz
      linarith
    · linarith

end Coinpilot.Lib.Binary64
