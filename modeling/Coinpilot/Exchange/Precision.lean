import Coinpilot.Exchange.Types

/-!
# Where a number meets the precision its pair will accept

Rounding to a pair's places and to the places of the ledger. Amounts are rounded down, so a rounded
amount is never more than the amount it came from (`roundCost_le`). `credited` is what a sell adds to
the fiat balance: the cost down and the fee up.
-/

set_option autoImplicit false

namespace Coinpilot.Exchange

open Coinpilot.Lib

/-- To the pair's price precision. -/
def roundPrice (m : PairMeta) (price : Rat) : Decimal := Decimal.quantize price m.priceDecimals .halfUp

/-- To the pair's volume precision, always down. -/
def roundVolume (m : PairMeta) (volume : Rat) : Decimal :=
  Decimal.quantize volume m.volumeDecimals .down

/-- How much of the base asset `amountFiat` buys, rounded down. Raises on a price that is not
positive. -/
def volumeFromFiat (m : PairMeta) (amountFiat price : Rat) : Except PyError Decimal :=
  if price ≤ 0 then .error .valueError else .ok (roundVolume m (amountFiat / price))

/-- Whether Kraken will accept an order of this size on this pair. -/
def isOrderable (m : PairMeta) (volume cost : Rat) : Bool :=
  m.orderMin.value ≤ volume ∧ m.costMin.value ≤ cost

/-- A fiat amount to the pair's cost precision, always down. -/
def roundCost (m : PairMeta) (amount : Rat) : Decimal := Decimal.quantize amount m.costDecimals .down

/-- The smallest order Kraken takes on this pair, in fiat, at this price. -/
def minimumFiat (m : PairMeta) (price : Decimal) : Decimal := m.costMin.max (m.orderMin.mul price)

/-- What a sell adds to the fiat balance: the cost down and the fee up, at the ledger's places. -/
def credited (cost fee : Decimal) (places : Int) : Decimal :=
  (Decimal.quantize cost.value places .down).sub (Decimal.quantize fee.value places .up)

/-- The same of amounts read from the ledger. A NaN is kept and an infinity raises. -/
def creditedAmount (cost fee : PyDecimal) (places : Int) : Except PyError PyDecimal :=
  match cost, fee with
  | .finite c, .finite f => .ok (.finite (credited c f places))
  | .infinite _, _ => .error .invalidOperation
  | _, .infinite _ => .error .invalidOperation
  | _, _ => .ok .nan

theorem roundCost_nonneg {m : PairMeta} {amount : Rat} (h : 0 ≤ amount) :
    0 ≤ (roundCost m amount).value := Decimal.quantize_down_nonneg h _

theorem roundCost_le {m : PairMeta} {amount : Rat} (h : 0 ≤ amount) :
    (roundCost m amount).value ≤ amount := Decimal.quantize_down_le h _

theorem roundCost_nonpos {m : PairMeta} {amount : Rat} (h : amount ≤ 0) :
    (roundCost m amount).value ≤ 0 := Decimal.quantize_down_nonpos h _

/-- A rounded amount has the pair's places. -/
theorem onGrid_roundCost (m : PairMeta) (amount : Rat) :
    Decimal.OnGrid m.costDecimals (roundCost m amount).value := Decimal.onGrid_quantize _ _ _

/-- The ledger's entry for an amount: one of the two neighbours of it at the ledger's places. -/
def LedgerEntry (places : Int) (amount entry : Rat) : Prop :=
  Decimal.OnGrid places entry ∧ |entry - amount| < (10 : Rat) ^ (-places)

/-- In units of the ledger's places an entry is a whole number, less than one away. -/
theorem ledgerEntry_iff {places : Int} {amount entry : Rat} :
    LedgerEntry places amount entry ↔ ∃ n : Int, entry = n * (10 : Rat) ^ (-places) ∧
      |(n : Rat) - amount * (10 : Rat) ^ places| < 1 := by
  have hunit := Decimal.ten_zpow_pos (-places)
  have hscale : ∀ n : Int, |(n : Rat) * (10 : Rat) ^ (-places) - amount| < (10 : Rat) ^ (-places) ↔
      |(n : Rat) - amount * (10 : Rat) ^ places| < 1 := by
    intro n
    have hn : (n : Rat) * (10 : Rat) ^ (-places) - amount =
        ((n : Rat) - amount * (10 : Rat) ^ places) * (10 : Rat) ^ (-places) := by
      rw [sub_mul, Decimal.scaled_back]
    rw [hn, abs_mul, abs_of_pos hunit]
    exact mul_lt_iff_lt_one_left hunit
  constructor
  · rintro ⟨⟨n, rfl⟩, hn⟩
    exact ⟨n, rfl, (hscale n).mp hn⟩
  · rintro ⟨n, rfl, hn⟩
    exact ⟨⟨n, rfl⟩, (hscale n).mpr hn⟩

/-- An amount of at least zero, or one that has the ledger's places already. -/
def RoundsAsNamed (places : Int) (amount : Rat) : Prop := 0 ≤ amount ∨ Decimal.OnGrid places amount

theorem roundsAsNamed_iff {places : Int} {amount : Rat} :
    RoundsAsNamed places amount ↔
      0 ≤ amount * (10 : Rat) ^ places ∨ ∃ n : Int, amount * (10 : Rat) ^ places = n := by
  have hpos := Decimal.ten_zpow_pos places
  refine or_congr (mul_nonneg_iff_of_pos_right hpos).symm ?_
  refine exists_congr fun n => ?_
  rw [zpow_neg, ← div_eq_mul_inv, eq_div_iff hpos.ne']

/-- However the ledger rounds a cost and a fee, it moves at least what is credited: exactly when the cost
and the fee are rounded as named. -/
theorem credited_le_iff {cost fee : Decimal} {places : Int} :
    (∀ costEntry feeEntry, LedgerEntry places cost.value costEntry →
      LedgerEntry places fee.value feeEntry → (credited cost fee places).value ≤ costEntry - feeEntry) ↔
      RoundsAsNamed places cost.value ∧ RoundsAsNamed places fee.value := by
  have hunit := Decimal.ten_zpow_pos (-places)
  have hcredited : ∀ n m : Int, (credited cost fee places).value ≤
      (n : Rat) * (10 : Rat) ^ (-places) - m * (10 : Rat) ^ (-places) ↔
        Rounding.down.round (cost.value * (10 : Rat) ^ places) -
          Rounding.up.round (fee.value * (10 : Rat) ^ places) ≤ n - m := by
    intro n m
    have hvalue : (credited cost fee places).value =
        (Rounding.down.round (cost.value * (10 : Rat) ^ places) : Rat) * (10 : Rat) ^ (-places) -
          (Rounding.up.round (fee.value * (10 : Rat) ^ places) : Rat) * (10 : Rat) ^ (-places) := by
      rw [credited, Decimal.value_sub]
      rfl
    rw [hvalue, ← sub_mul, ← sub_mul, mul_le_mul_iff_left₀ hunit]
    exact_mod_cast Iff.rfl
  rw [roundsAsNamed_iff, roundsAsNamed_iff, ← Rounding.round_down_le_iff, ← Rounding.le_round_up_iff]
  constructor
  · intro h
    have hwhole : ∀ n m : Int, |(n : Rat) - cost.value * (10 : Rat) ^ places| < 1 →
        |(m : Rat) - fee.value * (10 : Rat) ^ places| < 1 →
        Rounding.down.round (cost.value * (10 : Rat) ^ places) -
          Rounding.up.round (fee.value * (10 : Rat) ^ places) ≤ n - m := by
      intro n m hn hm
      exact (hcredited n m).mp (h _ _ (ledgerEntry_iff.mpr ⟨n, rfl, hn⟩) (ledgerEntry_iff.mpr ⟨m, rfl, hm⟩))
    refine ⟨fun n hn => ?_, fun m hm => ?_⟩
    · have hle := hwhole n _ hn (Rounding.abs_round_up_sub _)
      omega
    · have hle := hwhole _ m (Rounding.abs_round_down_sub _) hm
      omega
  · rintro ⟨hcost, hfee⟩ costEntry feeEntry hc hf
    obtain ⟨n, rfl, hn⟩ := ledgerEntry_iff.mp hc
    obtain ⟨m, rfl, hm⟩ := ledgerEntry_iff.mp hf
    have hdown := hcost n hn
    have hup := hfee m hm
    exact (hcredited n m).mpr (by omega)

end Coinpilot.Exchange
