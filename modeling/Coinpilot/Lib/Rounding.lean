import Coinpilot.Lib.Decimal

/-!
# Rounding keeps to its side of the grid

Every rounding moves a number by less than one unit (`Rounding.abs_round_sub_lt`). So a point of the grid
that is not above a number is not above it once it is rounded, nor is one that is not below it below.
-/

set_option autoImplicit false

namespace Coinpilot.Lib

theorem Rounding.abs_round_sub_lt (mode : Rounding) (q : Rat) : |(mode.round q : Rat) - q| < 1 := by
  have hfloor := Int.floor_le q
  have hfloor' := Int.lt_floor_add_one q
  have hceil := Int.le_ceil q
  have hceil' := Int.ceil_lt_add_one q
  rw [abs_lt]
  cases mode with
  | down =>
    rw [Rounding.round]
    split
    · constructor <;> linarith
    · constructor <;> linarith
  | up =>
    rw [Rounding.round]
    split
    · constructor <;> linarith
    · constructor <;> linarith
  | halfUp =>
    rw [Rounding.round]
    split
    · have hhalf := Int.floor_le (q + 1 / 2)
      have hhalf' := Int.lt_floor_add_one (q + 1 / 2)
      constructor <;> linarith
    · have hhalf := Int.le_ceil (q - 1 / 2)
      have hhalf' := Int.ceil_lt_add_one (q - 1 / 2)
      constructor <;> linarith
  | halfEven =>
    rw [Rounding.round]
    split_ifs
    · constructor <;> linarith
    · push_cast
      constructor <;> linarith
    · constructor <;> linarith
    · push_cast
      constructor <;> linarith

theorem Rounding.le_round (mode : Rounding) {n : Int} {q : Rat} (h : (n : Rat) ≤ q) :
    n ≤ mode.round q := by
  have hnear := (abs_lt.mp (mode.abs_round_sub_lt q)).1
  have hlt : (n : Rat) < mode.round q + 1 := by linarith
  exact Int.lt_add_one_iff.mp (by exact_mod_cast hlt)

theorem Rounding.round_le (mode : Rounding) {n : Int} {q : Rat} (h : q ≤ n) : mode.round q ≤ n := by
  have hnear := (abs_lt.mp (mode.abs_round_sub_lt q)).2
  have hlt : (mode.round q : Rat) < n + 1 := by linarith
  exact Int.lt_add_one_iff.mp (by exact_mod_cast hlt)

namespace Decimal

variable {places : Int} {q g : Rat}

theorem scale_iff (n : Int) (q : Rat) (places : Int) :
    ((n : Rat) * (10 : Rat) ^ (-places) ≤ q ↔ (n : Rat) ≤ q * (10 : Rat) ^ places) ∧
      (q ≤ (n : Rat) * (10 : Rat) ^ (-places) ↔ q * (10 : Rat) ^ places ≤ n) := by
  have hunit := ten_zpow_pos (-places)
  constructor
  · rw [← mul_le_mul_iff_left₀ hunit (b := (n : Rat)), scaled_back]
  · rw [← mul_le_mul_iff_left₀ hunit (c := (n : Rat)), scaled_back]

theorem le_quantize (mode : Rounding) (hg : OnGrid places g) (h : g ≤ q) :
    g ≤ (quantize q places mode).value := by
  obtain ⟨n, rfl⟩ := hg
  have hround := mode.le_round ((scale_iff n q places).1.mp h)
  exact mul_le_mul_of_nonneg_right (by exact_mod_cast hround) (ten_zpow_pos _).le

theorem quantize_le (mode : Rounding) (hg : OnGrid places g) (h : q ≤ g) :
    (quantize q places mode).value ≤ g := by
  obtain ⟨n, rfl⟩ := hg
  have hround := mode.round_le ((scale_iff n q places).2.mp h)
  exact mul_le_mul_of_nonneg_right (by exact_mod_cast hround) (ten_zpow_pos _).le

/-- A point of the grid is not moved. -/
theorem quantize_onGrid (mode : Rounding) (hq : OnGrid places q) : (quantize q places mode).value = q :=
  le_antisymm (quantize_le mode hq le_rfl) (le_quantize mode hq le_rfl)

theorem onGrid_finer {few many : Int} (h : few ≤ many) (hg : OnGrid few g) : OnGrid many g := by
  obtain ⟨n, rfl⟩ := hg
  refine ⟨n * 10 ^ (many - few).toNat, ?_⟩
  have hexp : -few = ((many - few).toNat : Int) + -many := by omega
  conv_lhs => rw [hexp, zpow_add₀ (by norm_num), zpow_natCast]
  push_cast
  ring

theorem OnGrid.add {a b : Rat} (ha : OnGrid places a) (hb : OnGrid places b) : OnGrid places (a + b) := by
  obtain ⟨n, rfl⟩ := ha
  obtain ⟨m, rfl⟩ := hb
  exact ⟨n + m, by push_cast; ring⟩

theorem OnGrid.sub {a b : Rat} (ha : OnGrid places a) (hb : OnGrid places b) : OnGrid places (a - b) := by
  obtain ⟨n, rfl⟩ := ha
  obtain ⟨m, rfl⟩ := hb
  exact ⟨n - m, by push_cast; ring⟩

end Decimal

end Coinpilot.Lib
