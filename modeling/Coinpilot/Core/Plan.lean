import Coinpilot.Core.Portfolio
import Coinpilot.Core.Db.Models
import Coinpilot.Engine.Reconcile
import Coinpilot.Exchange.Precision

/-!
# The plan of one evaluation

Each leg of the engine's plan is sized against Kraken's minimum and the user's floor. A leg that is
sent carries what sending it needs (`PlannedLeg.sized`): a pair, a minimum it reaches, an amount on
the pair's grid and, for a sell, a volume. The legs of a plan have distinct assets (`Planned`), and a
plan made without sells has none (`planLegs_buys`).
-/

set_option autoImplicit false

namespace Coinpilot.Core

open Coinpilot.Lib Coinpilot.Exchange Coinpilot.Engine

structure Target where
  asset : String
  pair : String
  targetPct : Decimal
  deriving DecidableEq, Repr

/-- What one evaluation reads of the user's configuration. -/
structure Account where
  fiat : String
  policy : Policy
  floor : Decimal
  targets : List Target
  sealed : Sealed
  deriving DecidableEq, Repr

/-- What a leg without a note has. -/
def Sized (side : Side) (amount : Decimal) (minimum : Option Decimal) (volume : Option Decimal)
    (pairMeta : Option PairMeta) : Prop :=
  ∃ m least, pairMeta = some m ∧ minimum = some least ∧ least.value ≤ amount.value ∧
    Decimal.OnGrid m.costDecimals amount.value ∧ (side = .sell → volume.isSome)

/-- One leg, in fiat. `note` says why it is not sent. -/
structure PlannedLeg where
  asset : String
  pair : String
  side : Side
  amount : Decimal
  minimum : Option Decimal
  note : Option String
  volume : Option Decimal
  pairMeta : Option PairMeta
  sized : note = none → Sized side amount minimum volume pairMeta

structure Planned where
  view : PortfolioView
  legs : List PlannedLeg
  freeCash : Rat
  fiatPlaces : Int
  distinct : (legs.map PlannedLeg.asset).Nodup
  nonneg : ∀ leg ∈ legs, leg.note = none → 0 ≤ leg.amount.value
  freeCash_nonneg : 0 ≤ freeCash

/-- The digits of a natural number. -/
def digitCount (n : Nat) : Int := (Nat.toDigits 10 n).length

/-- A quotient as the decimal context keeps it: 28 significant digits, half to even. -/
def contextDecimal (q : Rat) : Decimal :=
  let places := 28 - (digitCount q.num.natAbs - digitCount q.den)
  let d := Decimal.quantize q places .halfEven
  if |d.coeff| < 10 ^ 28 then d else Decimal.quantize q (places - 1) .halfEven

/-- Cash above the cash target. -/
def freeCash (view : PortfolioView) : Rat :=
  let wanted := view.managedValue * view.cashTargetPct / 100
  let excess := view.cash.value - wanted
  if 0 < excess then excess else 0

theorem freeCash_nonneg (view : PortfolioView) : 0 ≤ freeCash view := by
  unfold freeCash
  dsimp only
  split
  · rename_i h
    exact h.le
  · exact le_rfl

/-- A value that must be there. -/
def required {α : Type} : Option α → Except Exn α
  | some a => .ok a
  | none => .error (.python .keyError)

/-- A sell's volume. An exit sells everything, and any other sell never asks for more than is
held. -/
def sellVolume (m : PairMeta) (target : Decimal) (amountFiat : Rat) (holding : Holding)
    (price : Decimal) : Except Exn Decimal :=
  let held := roundVolume m holding.amount.value
  if target.value = 0 then .ok held
  else
    match volumeFromFiat m amountFiat price.value with
    | .error e => .error (.python e)
    | .ok volume => .ok (volume.min held)

/-- A leg that is not sent. -/
def notedLeg (leg : Leg) (pair : String) (amount : Decimal) (minimum : Option Decimal) (note : String)
    (volume : Option Decimal) (pairMeta : Option PairMeta) : PlannedLeg where
  asset := leg.asset
  pair := pair
  side := leg.side
  amount := amount
  minimum := minimum
  note := some note
  volume := volume
  pairMeta := pairMeta
  sized := nofun

/-- A leg against its minimum. -/
def againstMinimum (account : Account) (leg : Leg) (pair : String) (m : PairMeta) (least : Decimal)
    (volume : Option Decimal) (hv : leg.side = .sell → volume.isSome) : PlannedLeg :=
  let amount := roundCost m leg.amountFiat
  if h : amount.value < least.value then
    notedLeg leg pair amount (some least)
      (plainAmount amount ++ " " ++ account.fiat ++ " is below the minimum of " ++
        plainAmount least ++ " " ++ account.fiat) volume (some m)
  else
    { asset := leg.asset, pair, side := leg.side, amount, minimum := some least, note := none
      volume, pairMeta := some m
      sized := fun _ => ⟨m, least, rfl, rfl, not_lt.mp h, onGrid_roundCost m leg.amountFiat, hv⟩ }

/-- Size one leg of the engine's plan. -/
def sizeLeg (account : Account) (metas : Dict String PairMeta) (managed : Dict String Holding)
    (leg : Leg) : Except Exn PlannedLeg := do
  let target ← required (account.targets.find? fun t => t.asset = leg.asset)
  match (metas.get? target.pair).filter PairMeta.tradable with
  | none =>
      return notedLeg leg target.pair (contextDecimal leg.amountFiat) none
        ("kraken does not trade " ++ target.pair ++ " now") none none
  | some m =>
      let holding ← required (managed.get? leg.asset)
      let price ← required holding.price
      let least := (minimumFiat m price).max account.floor
      match hs : leg.side with
      | .sell =>
          let volume ← sellVolume m target.targetPct leg.amountFiat holding price
          return againstMinimum account leg target.pair m least (some volume) fun _ => rfl
      | .buy =>
          return againstMinimum account leg target.pair m least none fun h => by rw [hs] at h; cases h

def sizeLegs (account : Account) (metas : Dict String PairMeta) (managed : Dict String Holding) :
    List Leg → Except Exn (List PlannedLeg)
  | [] => .ok []
  | leg :: rest => do
      let sized ← sizeLeg account metas managed leg
      let others ← sizeLegs account metas managed rest
      return sized :: others

/-! ## What sizing keeps -/

theorem againstMinimum_facts (account : Account) (leg : Leg) (pair : String) (m : PairMeta)
    (least : Decimal) (volume : Option Decimal) (hv : leg.side = .sell → volume.isSome) :
    (againstMinimum account leg pair m least volume hv).asset = leg.asset ∧
      (againstMinimum account leg pair m least volume hv).side = leg.side ∧
      (0 ≤ leg.amountFiat → 0 ≤ (againstMinimum account leg pair m least volume hv).amount.value ∧
        (againstMinimum account leg pair m least volume hv).amount.value ≤ leg.amountFiat) := by
  unfold againstMinimum
  dsimp only
  split
  · exact ⟨rfl, rfl, fun h => ⟨roundCost_nonneg h, roundCost_le h⟩⟩
  · exact ⟨rfl, rfl, fun h => ⟨roundCost_nonneg h, roundCost_le h⟩⟩

theorem required_ok {α : Type} {x : Option α} {a : α} (h : required x = .ok a) : x = some a := by
  cases x with
  | none => cases h
  | some b => injection h with h; rw [h]

/-- A sized leg is of the same asset and side. One that is sent is not below zero, and not above what the
engine asked for. -/
theorem sizeLeg_ok {account : Account} {metas : Dict String PairMeta} {managed : Dict String Holding}
    {leg : Leg} {p : PlannedLeg} (h : sizeLeg account metas managed leg = .ok p) :
    p.asset = leg.asset ∧ p.side = leg.side ∧
      (0 ≤ leg.amountFiat → p.note = none → 0 ≤ p.amount.value ∧ p.amount.value ≤ leg.amountFiat) := by
  simp only [sizeLeg, bind, Except.bind] at h
  split at h
  · cases h
  · split at h
    · injection h with h
      subst h
      exact ⟨rfl, rfl, fun _ hn => by cases hn⟩
    · split at h
      · cases h
      · split at h
        · cases h
        · split at h
          · split at h
            · cases h
            · injection h with h
              subst h
              obtain ⟨ha, hs, hp⟩ := againstMinimum_facts account leg _ _ _ _ _
              exact ⟨ha, hs, fun h0 _ => hp h0⟩
          · injection h with h
            subst h
            obtain ⟨ha, hs, hp⟩ := againstMinimum_facts account leg _ _ _ _ _
            exact ⟨ha, hs, fun h0 _ => hp h0⟩

theorem sizeLegs_ok {account : Account} {metas : Dict String PairMeta}
    {managed : Dict String Holding} {legs : List Leg} {ps : List PlannedLeg}
    (h : sizeLegs account metas managed legs = .ok ps) :
    List.Forall₂ (fun leg p => sizeLeg account metas managed leg = .ok p) legs ps := by
  induction legs generalizing ps with
  | nil =>
    injection h with h
    subst h
    exact .nil
  | cons leg rest ih =>
    simp only [sizeLegs, bind, Except.bind] at h
    split at h
    · cases h
    · rename_i p hp
      split at h
      · cases h
      · rename_i others ho
        injection h with h
        subst h
        exact .cons hp (ih ho)

theorem sizeLegs_assets {account : Account} {metas : Dict String PairMeta}
    {managed : Dict String Holding} {legs : List Leg} {ps : List PlannedLeg}
    (h : sizeLegs account metas managed legs = .ok ps) :
    ps.map PlannedLeg.asset = legs.map Leg.asset := by
  have hall := sizeLegs_ok h
  clear h
  induction hall with
  | nil => rfl
  | cons hp _ ih => rw [List.map_cons, List.map_cons, ih, (sizeLeg_ok hp).1]

/-- Each sized leg comes from a leg of the engine's plan. -/
theorem mem_sizeLegs {account : Account} {metas : Dict String PairMeta}
    {managed : Dict String Holding} {legs : List Leg} {ps : List PlannedLeg}
    (h : sizeLegs account metas managed legs = .ok ps) :
    ∀ p ∈ ps, ∃ leg ∈ legs, sizeLeg account metas managed leg = .ok p := by
  have hall := sizeLegs_ok h
  clear h
  induction hall with
  | nil => simp
  | cons hp _ ih =>
    intro p hmem
    rcases List.mem_cons.mp hmem with rfl | hmem
    · exact ⟨_, List.mem_cons_self, hp⟩
    · obtain ⟨leg, hleg, hok⟩ := ih p hmem
      exact ⟨leg, List.mem_cons_of_mem _ hleg, hok⟩

/-! ## The plan -/

/-- The managed holdings, by asset. -/
def managedHoldings (view : PortfolioView) : Dict String Holding :=
  Dict.ofList ((view.holdings.filter fun h => h.managed).map fun h => (h.asset, h))

/-- The engine's plan of a view. -/
def enginePlan (account : Account) (view : PortfolioView) : Except UnpricedAsset (List Leg) :=
  let managed := managedHoldings view
  reconcile (managed.map fun _ h => h.amount.value)
    (managed.filterMap fun _ h => h.price.map Decimal.value)
    (Dict.ofList (account.targets.map fun t => (t.asset, t.targetPct.value)))
    view.cash.value account.policy

/-- Run the engine, and size each leg against Kraken's minimum. -/
def planLegs (account : Account) (view : PortfolioView) (metas : Dict String PairMeta)
    (places : Int) : Except Exn Planned :=
  match hr : enginePlan account view with
  | .error e => .error (.unpriced e)
  | .ok plan =>
      match hs : sizeLegs account metas (managedHoldings view) plan with
      | .error e => .error e
      | .ok legs => .ok {
          view, legs, freeCash := freeCash view, fiatPlaces := places
          distinct := by
            rw [sizeLegs_assets hs]
            exact (reconcile_legs hr).2
          nonneg := fun p hp hn => by
            obtain ⟨leg, hleg, hok⟩ := mem_sizeLegs hs p hp
            exact ((sizeLeg_ok hok).2.2 ((reconcile_legs hr).1 leg hleg).le hn).1
          freeCash_nonneg := Core.freeCash_nonneg view }

/-- A plan keeps the view that it is made of. -/
theorem planLegs_view {account : Account} {view : PortfolioView} {metas : Dict String PairMeta} {places : Int}
    {planned : Planned} (h : planLegs account view metas places = .ok planned) : planned.view = view := by
  rw [planLegs] at h
  split at h
  · cases h
  · split at h
    · cases h
    · obtain rfl := Except.ok.inj h
      rfl

/-- A plan made without sells is a list of buys. -/
theorem planLegs_buys {account : Account} (hp : account.policy.allowSells = false)
    {view : PortfolioView} {metas : Dict String PairMeta} {places : Int} {planned : Planned}
    (h : planLegs account view metas places = .ok planned) :
    ∀ leg ∈ planned.legs, leg.side = .buy := by
  intro p hmem
  unfold planLegs at h
  split at h
  · cases h
  · rename_i plan hr
    split at h
    · cases h
    · rename_i legs hs
      injection h with h
      subst h
      obtain ⟨leg, hleg, hok⟩ := mem_sizeLegs hs p hmem
      rw [(sizeLeg_ok hok).2.1]
      exact reconcile_buys hp hr leg hleg

end Coinpilot.Core
