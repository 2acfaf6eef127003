import Coinpilot.Core.ProposalPlan
import Coinpilot.Lib.Context

/-!
# Amounts as the decimal context writes them

`plain_amount` normalizes in the thread's decimal context and then writes every digit. On a decimal in
the range of that context it is `plainAmount` (`plainAmountOf_eq`): one number has one text, which reads
back as that number (`plain_amount_canonical`). A number with a digit below the range is rounded, and one
above it raises (`below_range_rounds`).
-/

set_option autoImplicit false

namespace Coinpilot.Core

open Coinpilot.Lib Coinpilot.Exchange Coinpilot.Engine

/-! ## One amount -/

/-- `plain_amount`, or `none` where it raises `Overflow`. -/
def plainAmountOf (value : SignedDecimal) : Option String :=
  (defaultContext.normalize value).map SignedDecimal.format

/-- In range, the amount is written as its exact normal form is. -/
theorem plainAmountOf_eq {value : SignedDecimal} (hz : ¬value.NegativeZero)
    (h : defaultContext.InRange value.toDecimal) :
    plainAmountOf value = some (plainAmount value.toDecimal) := by
  rw [plainAmountOf, DecimalContext.normalize_of_inRange hz h, Option.map_some, plainAmount,
    formatDecimal, SignedDecimal.format_ofDecimal]

/-- Digits, a sign and a point, and no zero at the end of the places. -/
structure WrittenPlainly (text : String) : Prop where
  no_exponent : ∀ x ∈ text.toList, Decimal.PlainChar x
  no_padding : ∀ whole places : List Char, text.toList = whole ++ '.' :: places →
    places ≠ [] ∧ places.getLast? ≠ some '0'

theorem writtenPlainly (d : Decimal) : WrittenPlainly (plainAmount d) where
  no_exponent := Decimal.plain_chars d.normalize
  no_padding _ _ := Decimal.plain_places d

/-- The text reads back as the number. -/
def ReadsAs (text : String) (q : Rat) : Prop := ∃ d, readAmount (some text) = .ok d ∧ d.value = q

theorem readsAs_iff {text : String} {q : Rat} :
    ReadsAs text q ↔ ∃ d, Decimal.parse text = some d ∧ d.value = q := by
  rw [ReadsAs, readAmount]
  cases Decimal.parse text with
  | none => simp
  | some d => simp

theorem inRange_zero {a : SignedDecimal} (h : a.digits = 0) : defaultContext.InRange a.toDecimal := by
  have hcoeff : a.toDecimal.coeff = 0 := by simp [SignedDecimal.toDecimal, h]
  have hzero : a.toDecimal.normalize = .zero := if_pos hcoeff
  exact ⟨by rw [hzero]; decide, by rw [hzero]; decide, by rw [hzero]; decide⟩

/-- The range is exact: outside it an amount raises, or what is written is another number. -/
theorem readsAs_plainAmountOf_iff {a : SignedDecimal} (hz : ¬a.NegativeZero) :
    (∃ s, plainAmountOf a = some s ∧ ReadsAs s a.value) ↔ defaultContext.InRange a.toDecimal := by
  constructor
  · rintro ⟨s, hs, hreads⟩
    obtain ⟨n, hn, rfl⟩ := Option.map_eq_some_iff.mp hs
    by_cases hd : a.digits = 0
    · exact inRange_zero hd
    · apply DecimalContext.inRange_of_normalize (by decide) hd hn
      obtain ⟨x, hx, hxa⟩ := readsAs_iff.mp hreads
      obtain ⟨y, hy, hyn⟩ := n.parse_format
      rw [hx] at hy
      cases hy
      rw [← hyn, hxa]
  · intro h
    exact ⟨_, plainAmountOf_eq hz h, readAmount_plain _⟩

/-! ## The document of a plan -/

/-- One leg as `plan_document` stores it. -/
def storedLeg (leg : PlannedLeg) : Option DocumentLeg := do
  let amount ← plainAmountOf (.ofDecimal leg.amount)
  let minimum ← leg.minimum.mapM fun m => plainAmountOf (.ofDecimal m)
  return { asset := leg.asset, pair := leg.pair, side := leg.side.value, amountFiat := amount
           minimumFiat := minimum, note := leg.note }

/-- `plan_document`, or `none` where an amount raises. -/
def storedPlan (fiat : String) (legs : List PlannedLeg) : Option Document := do
  return { fiat := fiat, legs := ← legs.mapM storedLeg }

/-- The amount and the minimum of a leg are in range. -/
def AmountsInRange (leg : PlannedLeg) : Prop :=
  defaultContext.InRange leg.amount ∧ ∀ m ∈ leg.minimum, defaultContext.InRange m

/-- A stored leg is the planned one, and its amount and minimum read back as they were planned. -/
structure Carries (leg : PlannedLeg) (stored : DocumentLeg) : Prop where
  leg_eq : stored.asset = leg.asset ∧ stored.pair = leg.pair ∧ stored.side = leg.side.value ∧
    stored.note = leg.note
  amount : ReadsAs stored.amountFiat leg.amount.value
  minimum : Option.Rel ReadsAs stored.minimumFiat (leg.minimum.map Decimal.value)

theorem plainAmountOf_ofDecimal {d : Decimal} (h : defaultContext.InRange d) :
    plainAmountOf (.ofDecimal d) = some (plainAmount d) := by
  rw [plainAmountOf_eq (SignedDecimal.not_negativeZero_ofDecimal d)]
  · rw [SignedDecimal.toDecimal_ofDecimal]
  · rw [SignedDecimal.toDecimal_ofDecimal]
    exact h

/-- In range, a leg is stored as `documentLeg` says. -/
theorem storedLeg_eq {leg : PlannedLeg} (h : AmountsInRange leg) :
    storedLeg leg = some (documentLeg leg) := by
  have hminimum : (leg.minimum.mapM fun m => plainAmountOf (.ofDecimal m)) =
      some (leg.minimum.map plainAmount) := by
    cases hm : leg.minimum with
    | none => rfl
    | some m => simp [plainAmountOf_ofDecimal (h.2 m hm)]
  rw [storedLeg, plainAmountOf_ofDecimal h.1, hminimum]
  rfl

/-- In range, a plan is stored as `planDocument` says. -/
theorem storedPlan_eq (fiat : String) {legs : List PlannedLeg} (h : ∀ leg ∈ legs, AmountsInRange leg) :
    storedPlan fiat legs = some (planDocument fiat legs) := by
  have hlegs : legs.mapM storedLeg = some (legs.map documentLeg) := by
    induction legs with
    | nil => rfl
    | cons leg legs ih =>
      rw [List.mapM_cons, storedLeg_eq (h leg List.mem_cons_self),
        ih fun l hl => h l (List.mem_cons_of_mem _ hl)]
      rfl
  rw [storedPlan, hlegs]
  rfl

theorem carries_documentLeg (leg : PlannedLeg) : Carries leg (documentLeg leg) where
  leg_eq := ⟨rfl, rfl, rfl, rfl⟩
  amount := readAmount_plain leg.amount
  minimum := by
    rw [documentLeg]
    cases leg.minimum with
    | none => exact .none
    | some m => exact .some (readAmount_plain m)

/-! ## One amount, one string -/

/-- For decimals in the range of the context, none of them a negative zero: two are written the same
exactly when they are one number, the text has no exponent and no padding, and it reads back as the
number. A plan of such amounts is stored, and reads back with the amounts and minimums it had. -/
theorem plain_amount_canonical :
    (∀ a b : SignedDecimal, ¬a.NegativeZero → ¬b.NegativeZero →
      defaultContext.InRange a.toDecimal → defaultContext.InRange b.toDecimal →
      ∃ s t, plainAmountOf a = some s ∧ plainAmountOf b = some t ∧ (s = t ↔ a.value = b.value) ∧
        WrittenPlainly s ∧ ReadsAs s a.value) ∧
    ∀ (fiat : String) (legs : List PlannedLeg), (∀ leg ∈ legs, AmountsInRange leg) →
      ∃ document, storedPlan fiat legs = some document ∧ document.fiat = fiat ∧
        List.Forall₂ Carries legs document.legs := by
  constructor
  · intro a b ha hb hina hinb
    refine ⟨_, _, plainAmountOf_eq ha hina, plainAmountOf_eq hb hinb, ?_, writtenPlainly _,
      readAmount_plain _⟩
    exact Decimal.plain_eq_iff a.toDecimal b.toDecimal
  · intro fiat legs h
    refine ⟨_, storedPlan_eq fiat h, rfl, ?_⟩
    exact List.forall₂_map_right_iff.mpr (List.forall₂_same.mpr fun leg _ => carries_documentLeg leg)

/-! ## Given amounts -/

def onlinePair : PairMeta where
  pair := "XXBTZEUR"
  altname := "XBTEUR"
  base := "XXBT"
  quote := "ZEUR"
  priceDecimals := 1
  volumeDecimals := 8
  orderMin := ⟨5, -5⟩
  costMin := ⟨5, -1⟩
  status := "online"
  costDecimals := 5

theorem paddedLeg_sized : Sized .buy ⟨25000, -3⟩ (some ⟨500, -2⟩) none (some onlinePair) := by
  refine ⟨onlinePair, ⟨500, -2⟩, rfl, rfl, ?_, ⟨2500000, ?_⟩, fun h => by cases h⟩
  · norm_num [Decimal.value]
  · norm_num [Decimal.value, onlinePair]

/-- A leg whose amounts are padded, as a product and a column pad them. -/
def paddedLeg : PlannedLeg where
  asset := "BTC"
  pair := "XXBTZEUR"
  side := .buy
  amount := ⟨25000, -3⟩
  minimum := some ⟨500, -2⟩
  note := none
  volume := none
  pairMeta := some onlinePair
  sized _ := paddedLeg_sized

instance (ctx : DecimalContext) (d : Decimal) : Decidable (ctx.InRange d) :=
  decidable_of_iff (numDigits d.normalize.coeff.natAbs ≤ ctx.prec ∧ ctx.etiny ≤ d.normalize.exp ∧
      numDigits d.normalize.coeff.natAbs + d.normalize.exp ≤ ctx.emax + 1)
    ⟨fun h => ⟨h.1, h.2.1, h.2.2⟩, fun h => ⟨h.1, h.2, h.3⟩⟩

theorem paddedLeg_inRange : AmountsInRange paddedLeg := by
  refine ⟨by decide +kernel, ?_⟩
  rintro m ⟨⟩
  decide +kernel

theorem plain_amount_canonical_padded :
    (∃ s t, plainAmountOf ⟨true, 1500, -3⟩ = some s ∧ plainAmountOf ⟨true, 15, -1⟩ = some t ∧
      (s = t ↔ SignedDecimal.value ⟨true, 1500, -3⟩ = SignedDecimal.value ⟨true, 15, -1⟩) ∧
      WrittenPlainly s ∧ ReadsAs s (SignedDecimal.value ⟨true, 1500, -3⟩)) ∧
    ∃ document, storedPlan "EUR" [paddedLeg] = some document ∧ document.fiat = "EUR" ∧
      List.Forall₂ Carries [paddedLeg] document.legs := by
  refine ⟨plain_amount_canonical.1 _ _ (by decide) (by decide) (by decide +kernel) (by decide +kernel),
    plain_amount_canonical.2 "EUR" [paddedLeg] fun leg hleg => ?_⟩
  rw [List.mem_singleton.mp hleg]
  exact paddedLeg_inRange

/-- A number below the range is written as zero is, and one above it raises. -/
theorem below_range_rounds :
    ∃ a b c : SignedDecimal, (¬a.NegativeZero ∧ numDigits a.digits ≤ 28) ∧
      (¬b.NegativeZero ∧ numDigits b.digits ≤ 28) ∧ (¬c.NegativeZero ∧ numDigits c.digits ≤ 28) ∧
      plainAmountOf a = some "0" ∧ plainAmountOf b = some "0" ∧ a.value ≠ b.value ∧
      plainAmountOf c = none := by
  refine ⟨⟨false, 1, -1000027⟩, ⟨false, 0, 0⟩, ⟨false, 1, 1000000⟩, by decide +kernel, by decide +kernel,
    by decide +kernel, by decide +kernel, by decide +kernel, ?_, by decide +kernel⟩
  rw [SignedDecimal.value, SignedDecimal.value]
  have hzero : (⟨false, 0, 0⟩ : SignedDecimal).toDecimal.value = 0 := Decimal.value_eq_zero.mpr rfl
  rw [hzero, Ne, Decimal.value_eq_zero]
  decide

end Coinpilot.Core
