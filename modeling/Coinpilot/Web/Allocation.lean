import Coinpilot.Api.Snapshots

/-!
# The rows of the dashboard

`allocationRows` compares the weight and the target of each managed asset, both texts that the platform
answered, with the least drift, a text too.
-/

set_option autoImplicit false

namespace Coinpilot.Web

open Coinpilot.Lib Coinpilot.Api

/-- What `Big` throws at a text that is no number. -/
structure NotANumber where
  text : String
  deriving DecidableEq, Repr

/-- `Big(text)`. -/
def big (text : String) : Except NotANumber Decimal :=
  match Decimal.parse text with
  | some d => .ok d
  | none => .error ⟨text⟩

/-- Plain notation without trailing zeros. -/
def canonical (value : Decimal) : String := value.normalize.fixed

def subtract (a b : String) : Except NotANumber String := do
  return canonical ((← big a).sub (← big b))

/-- `Big(a).cmp(b)`. -/
def compare (a b : String) : Except NotANumber Ordering := do
  return Ord.compare (← big a).value (← big b).value

/-- The text without the minus sign that it may start with. -/
def dropMinus (text : String) : String :=
  match text.toList with
  | '-' :: digits => String.ofList digits
  | _ => text

def drift (weight target : String) : Except NotANumber String := subtract weight target

/-- A drift that is not zero and at least `min_drift_pct`. -/
def isDrifted (driftValue minDrift : String) : Except NotANumber Bool := do
  if (← compare driftValue "0") = .eq then return false
  else return (← compare (dropMinus driftValue) minDrift) ≠ .lt

def driftOf : Option String → Option String → Except NotANumber (Option String)
  | some weight, some target => do return some (← drift weight target)
  | _, _ => .ok none

inductive AllocationKind where
  | asset
  | cash
  deriving DecidableEq, Repr

structure AllocationRow where
  kind : AllocationKind
  asset : String
  amount : Option Decimal
  value : Option Rat
  weight : Option String
  target : Option String
  drift : Option String
  drifted : Bool
  deriving DecidableEq, Repr

/-- The row of a managed asset. -/
def assetRow (minDrift : String) (h : HoldingOut) : Except NotANumber AllocationRow := do
  let d ← driftOf h.weightPct h.targetPct
  let drifted ← match d with
    | none => pure false
    | some d => isDrifted d minDrift
  return { kind := .asset, asset := h.asset, amount := some h.amount, value := h.value
           weight := h.weightPct, target := h.targetPct, drift := d, drifted }

/-- The managed assets in the order of the answer, and then the cash. -/
def allocationRows (portfolio : PortfolioOut) (minDrift : String) :
    Except NotANumber (List AllocationRow) := do
  let assets ← (portfolio.holdings.filter fun h => h.managed).mapM (assetRow minDrift)
  let cash : AllocationRow :=
    { kind := .cash, asset := "Cash", amount := none, value := some portfolio.cash.value
      weight := portfolio.cashWeightPct, target := portfolio.cashTargetPct
      drift := ← driftOf portfolio.cashWeightPct portfolio.cashTargetPct, drifted := false }
  return assets ++ [cash]

/-! ## The texts are read exactly -/

theorem big_of_parse {text : String} {d : Decimal} (h : Decimal.parse text = some d) : big text = .ok d := by
  rw [big, h]

/-- A text that reads as a number. -/
def Reads (text : String) (value : Rat) : Prop := ∃ d, big text = .ok d ∧ d.value = value

theorem reads_fixed (d : Decimal) : Reads d.fixed d.value := by
  obtain ⟨d', hparse, hvalue⟩ := Decimal.parse_fixed d
  exact ⟨d', big_of_parse hparse, hvalue⟩

theorem reads_canonical (d : Decimal) : Reads (canonical d) d.value := by
  rw [← Decimal.value_normalize]
  exact reads_fixed d.normalize

theorem reads_subtract {a b : String} {x y : Rat} (ha : Reads a x) (hb : Reads b y) :
    ∃ d : Decimal, subtract a b = .ok (canonical d) ∧ d.value = x - y := by
  obtain ⟨a', ha, rfl⟩ := ha
  obtain ⟨b', hb, rfl⟩ := hb
  refine ⟨a'.sub b', ?_, Decimal.value_sub a' b'⟩
  rw [subtract, ha, hb]
  rfl

theorem reads_compare {a b : String} {x y : Rat} (ha : Reads a x) (hb : Reads b y) :
    compare a b = .ok (Ord.compare x y) := by
  obtain ⟨a', ha, rfl⟩ := ha
  obtain ⟨b', hb, rfl⟩ := hb
  rw [compare, ha, hb]
  rfl

/-- Without its sign a number is the absolute value. -/
theorem dropMinus_fixed (d : Decimal) : dropMinus d.fixed = (⟨d.coeff.natAbs, d.exp⟩ : Decimal).fixed := by
  have habs : ¬((d.coeff.natAbs : Int) < 0) := by omega
  rw [dropMinus, Decimal.fixed, Decimal.fixed, if_neg habs, String.toList_ofList, Int.natAbs_natCast]
  by_cases hneg : d.coeff < 0
  · rw [if_pos hneg]
    rfl
  · rw [if_neg hneg]
    obtain ⟨-, -, -, hdigit⟩ := Decimal.parseUnsigned_fixed d.coeff.natAbs d.exp
    split
    · rename_i digits htext
      have hminus := hdigit '-' (by rw [htext]; rfl)
      exact absurd hminus (by decide)
    · rfl

theorem reads_dropMinus (d : Decimal) : Reads (dropMinus (canonical d)) |d.value| := by
  have habs : (⟨d.normalize.coeff.natAbs, d.normalize.exp⟩ : Decimal).value = |d.value| := by
    rw [← Decimal.value_normalize d, Decimal.value, Decimal.value, abs_mul,
      abs_of_pos (Decimal.ten_zpow_pos d.normalize.exp), Int.natCast_natAbs, Int.cast_abs]
  rw [canonical, dropMinus_fixed, ← habs]
  exact reads_fixed _

/-- A drift is marked where it is not nothing and no less than the least. -/
theorem isDrifted_canonical (d : Decimal) {minDrift : String} {m : Rat} (hm : Reads minDrift m) :
    isDrifted (canonical d) minDrift = .ok (decide (d.value ≠ 0 ∧ m ≤ |d.value|)) := by
  have hzero : Reads "0" 0 := ⟨⟨0, 0⟩, by decide +kernel, by simp [Decimal.value]⟩
  rw [isDrifted, reads_compare (reads_canonical d) hzero]
  by_cases hnone : d.value = 0
  · simp [hnone, bind, Except.bind, pure, Except.pure]
  · have hne : Ord.compare d.value 0 ≠ .eq := fun h => hnone (compare_eq_iff_eq.mp h)
    have hlt : (Ord.compare |d.value| m ≠ .lt) ↔ m ≤ |d.value| := by
      rw [Ne, compare_lt_iff_lt, not_lt]
    simp [hne, hnone, reads_compare (reads_dropMinus d) hm, hlt, bind, Except.bind, pure, Except.pure]

end Coinpilot.Web
