import Coinpilot.Safety.Budget
import Coinpilot.Safety.Replay
import Mathlib.Data.List.Forall2

/-!
# Buys never spend more than there is

Along any path of an evaluation's sending, with any answers: the buys come to at most the free cash and what
the filled sells are credited, or to nothing, and each is inside the plan (`spends_no_more`). The budget is
kept by the loop over the sells (`sendSells_budget`), and the buys are cut to it before the first of them is
sent (`sendBuys_orders`). What is credited is at most what the ledger moves for costs and fees of at least
zero (`creditedOf_le_iff`).
-/

set_option autoImplicit false

namespace Coinpilot.Safety

open Coinpilot.Lib Coinpilot.Lib.Program Coinpilot.Exchange Coinpilot.Engine Coinpilot.Core

@[simp] theorem buys_nil : buys [] = [] := rfl

@[simp] theorem buys_append (t₁ t₂ : Trace) : buys (t₁ ++ t₂) = buys t₁ ++ buys t₂ := by
  rw [buys, orders_append, List.filter_append]
  rfl

/-- The order of a buy. -/
def buyOrder (leg : PlannedLeg) : Ordered := ⟨leg.pair, "buy", leg.amount, false⟩

theorem legOrder_buy {leg : PlannedLeg} (h : leg.side = .buy) : legOrder false leg = some (buyOrder leg) := by
  simp [legOrder, orderVolume, h, buyOrder, Side.value]

theorem LegTried.no_buys {leg : PlannedLeg} {stopped : Bool} {t : Trace}
    {r : Except Exn (LegResult × Bool)} (h : LegTried leg stopped t r) (hside : leg.side = .sell) :
    buys t = [] := by
  have hsell : ∀ o ∈ (legOrder false leg).toList, ¬o.side = "buy" := by
    intro o ho
    simp only [legOrder, Option.mem_toList, Option.map_eq_some_iff] at ho
    obtain ⟨volume, -, rfl⟩ := ho
    simp [hside, Side.value]
  have hnone : orders t = [] → buys t = [] := by
    intro h
    rw [buys, h]
    rfl
  have hone : orders t = (legOrder false leg).toList → buys t = [] := by
    intro h
    rw [buys, h, List.filter_eq_nil_iff]
    simpa using hsell
  cases h with
  | skipped _ h => exact hnone h
  | halted _ _ h => exact hnone h
  | sent _ _ h _ => exact hone h
  | raised _ _ h => exact h.elim hnone hone

/-- The result of a leg is of the leg's side. -/
theorem LegTried.side {leg : PlannedLeg} {stopped stopped' : Bool} {t : Trace} {result : LegResult}
    (h : LegTried leg stopped t (.ok (result, stopped'))) : result.side = leg.side := by
  cases h <;> rfl

/-- A buy makes its own order, or none. -/
theorem LegTried.buy {leg : PlannedLeg} {stopped : Bool} {t : Trace} {r : Except Exn (LegResult × Bool)}
    (h : LegTried leg stopped t r) (hside : leg.side = .buy) :
    orders t = [] ∨ leg.note = none ∧ orders t = [buyOrder leg] := by
  have hone : (legOrder false leg).toList = [buyOrder leg] := by
    rw [legOrder_buy hside]
    rfl
  cases h with
  | skipped _ h => exact .inl h
  | halted _ _ h => exact .inl h
  | sent hnote _ h _ => exact .inr ⟨hnote, h.trans hone⟩
  | raised hnote _ h => exact h.imp_right fun h => ⟨hnote, h.trans hone⟩

/-- What one sell adds to the budget is what it is credited. -/
theorem afterSell_some {places : Int} {result : LegResult} (hside : result.side = .sell)
    {budget : Option Rat} {b : Rat} (h : afterSell places result budget = .ok (some b)) :
    ∃ a, budget = some a ∧ b = a + raised places [result] := by
  rw [afterSell] at h
  split at h
  · rename_i hfilled
    have hraised : raised places [result] = creditedOf places result := by
      simp [raised, hside, hfilled]
    rw [hraised, creditedOf]
    cases hc : creditedAmount (result.cost.getD (.finite .zero)) (result.fee.getD (.finite .zero)) places with
    | error e =>
      rw [hc] at h
      cases h
    | ok amount =>
      rw [hc] at h
      obtain h := Except.ok.inj h
      cases amount with
      | finite d =>
        obtain ⟨a, rfl, rfl⟩ := Option.map_eq_some_iff.mp h
        exact ⟨a, rfl, rfl⟩
      | infinite negative => cases h
      | nan => cases h
  · rename_i hother
    obtain rfl := Except.ok.inj h
    have hraised : raised places [result] = 0 := by
      simp [raised, hother]
    exact ⟨b, rfl, by rw [hraised, add_zero]⟩

section Paths

variable {l l' : Locals} {t : Trace}

/-- The sells buy nothing, and the budget grows by what they raise. -/
theorem sendSells_budget {id : Nat} {reason : OrderReason} {fiat : String} {snapshot : Nat} {places : Int}
    {legs : List PlannedLeg} (hsells : ∀ leg ∈ legs, leg.side = .sell) {stopped : Bool} {budget : Option Rat}
    {r : Except Exn (Bool × Option Rat)}
    (h : (sendSells id reason fiat snapshot places legs stopped budget).Path l t r l') :
    buys t = [] ∧ ∃ results, l'.legs = l.legs ++ results ∧
      ∀ stopped' b, r = .ok (stopped', some b) → ∃ a, budget = some a ∧ b = a + raised places results := by
  induction legs generalizing l t stopped budget with
  | nil =>
    obtain ⟨rfl, rfl, rfl⟩ := path_pure h
    refine ⟨rfl, [], (List.append_nil _).symm, fun stopped' b hr => ?_⟩
    cases hr
    exact ⟨b, rfl, (add_zero b).symm⟩
  | cons leg rest ih =>
    have hside := hsells leg List.mem_cons_self
    rcases path_bind h with ⟨⟨result, stopped'⟩, l₁, t₁, t₂, h₁, h₂, rfl⟩ | ⟨e, h₁, rfl⟩
    · obtain ⟨htried, hlegs⟩ := sendLeg_path h₁
      dsimp only at h₂ hlegs
      cases hafter : afterSell places result budget with
      | error e =>
        rw [hafter] at h₂
        obtain ⟨rfl, rfl, rfl⟩ := path_throw h₂
        refine ⟨by simpa using htried.no_buys hside, [result], hlegs, fun _ _ hr => by cases hr⟩
      | ok budget' =>
        rw [hafter] at h₂
        obtain ⟨hnone, results, hresults, hbudget⟩ := ih (fun x hx => hsells x (List.mem_cons_of_mem _ hx)) h₂
        refine ⟨by simp [htried.no_buys hside, hnone], result :: results, ?_, ?_⟩
        · rw [hresults, hlegs, List.append_assoc, List.singleton_append]
        · intro stopped'' b hr
          obtain ⟨a, rfl, rfl⟩ := hbudget stopped'' b hr
          obtain ⟨a', rfl, rfl⟩ := afterSell_some (htried.side.trans hside) hafter
          refine ⟨a', rfl, ?_⟩
          rw [add_assoc, ← raised_append]
          rfl
    · obtain ⟨htried, hlegs⟩ := sendLeg_path h₁
      exact ⟨htried.no_buys hside, [], hlegs, fun _ _ hr => by cases hr⟩

/-- The buys make the orders of some of them, in order, each without a note. -/
theorem sendBuys_orders {id : Nat} {reason : OrderReason} {fiat : String} {snapshot : Nat}
    {legs : List PlannedLeg} (hbuys : ∀ leg ∈ legs, leg.side = .buy) {stopped : Bool} {r : Except Exn Bool}
    (h : (sendBuys id reason fiat snapshot legs stopped).Path l t r l') :
    (∃ sent : List PlannedLeg, sent.Sublist legs ∧ (∀ leg ∈ sent, leg.note = none) ∧
      orders t = sent.map buyOrder) ∧
      ∃ results, l'.legs = l.legs ++ results ∧ ∀ result ∈ results, result.side = .buy := by
  induction legs generalizing l t stopped with
  | nil =>
    obtain ⟨rfl, -, rfl⟩ := path_pure h
    exact ⟨⟨[], .refl [], by simp, rfl⟩, [], by simp, by simp⟩
  | cons leg rest ih =>
    have hside := hbuys leg List.mem_cons_self
    -- What the first leg does, with what the rest of them send.
    have hcons : ∀ {t₁ : Trace} {r₁ : Except Exn (LegResult × Bool)} {t₂ : Trace} {sent : List PlannedLeg},
        LegTried leg stopped t₁ r₁ → sent.Sublist rest → (∀ leg ∈ sent, leg.note = none) →
        orders t₂ = sent.map buyOrder → ∃ sent' : List PlannedLeg, sent'.Sublist (leg :: rest) ∧
          (∀ leg ∈ sent', leg.note = none) ∧ orders (t₁ ++ t₂) = sent'.map buyOrder := by
      intro t₁ r₁ t₂ sent htried hsub hnotes horders
      rcases htried.buy hside with hnone | ⟨hnote, hone⟩
      · exact ⟨sent, hsub.cons leg, hnotes, by simp [hnone, horders]⟩
      · exact ⟨leg :: sent, hsub.cons_cons leg, by simpa [hnote] using hnotes, by simp [hone, horders]⟩
    rcases path_bind h with ⟨⟨result, stopped'⟩, l₁, t₁, t₂, h₁, h₂, rfl⟩ | ⟨e, h₁, rfl⟩
    · obtain ⟨htried, hlegs⟩ := sendLeg_path h₁
      obtain ⟨⟨sent, hsub, hnotes, horders⟩, results, hresults, hsides⟩ :=
        ih (fun x hx => hbuys x (List.mem_cons_of_mem _ hx)) h₂
      refine ⟨hcons htried hsub hnotes horders, result :: results, ?_, ?_⟩
      · rw [hresults, hlegs, List.append_assoc, List.singleton_append]
      · intro x hx
        rcases List.mem_cons.mp hx with rfl | hx
        · exact htried.side.trans hside
        · exact hsides x hx
    · obtain ⟨htried, hlegs⟩ := sendLeg_path h₁
      have hempty : orders ([] : Trace) = List.map buyOrder [] := rfl
      have hfirst := hcons htried (List.nil_sublist rest) (by simp) hempty
      rw [List.append_nil] at hfirst
      exact ⟨hfirst, [], hlegs, by simp⟩

end Paths

/-! ## What is bought and what is raised -/

/-- A buy that was sent for a leg of the plan: at most what was planned, on the pair's grid and from its
minimum on. -/
structure BuyWithin (order : Ordered) (leg : PlannedLeg) : Prop where
  planned : leg.note = none
  pair : order.pair = leg.pair
  amount : order.volume.value ≤ leg.amount.value
  sized : ∃ m least, leg.pairMeta = some m ∧ leg.minimum = some least ∧
    Decimal.OnGrid m.costDecimals order.volume.value ∧ least.value ≤ order.volume.value

theorem Fits.buyWithin {leg fit : PlannedLeg} (h : Fits leg fit) (hnote : fit.note = none) :
    BuyWithin (buyOrder fit) leg := by
  obtain ⟨hplanned, hamount, hmeta, hminimum⟩ := h.sent hnote
  obtain ⟨m, least, hm, hl, hleast, hgrid, -⟩ := fit.sized hnote
  exact ⟨hplanned, h.pair, hamount, m, least, hmeta ▸ hm, hminimum ▸ hl, hgrid, hleast⟩

/-- The orders of some of the fitted legs are orders of some of the planned ones. -/
theorem buysWithin_of_fits {legs fitted sent : List PlannedLeg} (h : List.Forall₂ Fits legs fitted)
    (hsub : sent.Sublist fitted) (hsent : ∀ fit ∈ sent, fit.note = none) :
    List.SublistForall₂ BuyWithin (sent.map buyOrder) legs := by
  induction h generalizing sent with
  | nil =>
    obtain rfl := List.sublist_nil.mp hsub
    exact .nil
  | cons hfit _ ih =>
    cases hsub with
    | cons _ hrest => exact .cons_right (ih hrest hsent)
    | cons_cons _ hrest =>
      refine .cons (hfit.buyWithin (hsent _ List.mem_cons_self)) ?_
      exact ih hrest fun x hx => hsent x (List.mem_cons_of_mem _ hx)

theorem side_of_fits {legs fitted : List PlannedLeg} (h : List.Forall₂ Fits legs fitted) {side : Side}
    (hlegs : ∀ leg ∈ legs, leg.side = side) : ∀ fit ∈ fitted, fit.side = side := by
  induction h with
  | nil => simp
  | cons hfit _ ih =>
    intro fit hmem
    rcases List.mem_cons.mp hmem with rfl | hmem
    · exact hfit.side.trans (hlegs _ List.mem_cons_self)
    · exact ih (fun leg hleg => hlegs leg (List.mem_cons_of_mem _ hleg)) fit hmem

theorem bought_le_spent {sent fitted : List PlannedLeg} (hsub : sent.Sublist fitted)
    (hsent : ∀ leg ∈ sent, leg.note = none) :
    ((sent.map buyOrder).map fun o => o.volume.value).sum ≤ spent fitted := by
  have hkept : sent.Sublist (fitted.filter fun leg => leg.note = none) := by
    have hfilter := hsub.filter fun leg => leg.note = none
    rwa [List.filter_eq_self.mpr fun leg hleg => by simpa using hsent leg hleg] at hfilter
  have hspent : ((sent.map buyOrder).map fun o => o.volume.value).sum ≤
      (sent.map fun leg => max 0 leg.amount.value).sum := by
    rw [List.map_map]
    exact List.sum_le_sum fun leg _ => le_max_right 0 leg.amount.value
  refine hspent.trans ((hkept.map _).sum_le_sum ?_)
  intro x hx
  obtain ⟨leg, -, rfl⟩ := List.mem_map.mp hx
  exact le_max_left 0 leg.amount.value

/-- The sells that filled. -/
def filledSells (results : List LegResult) : List LegResult :=
  results.filter fun r => r.side = .sell ∧ r.status = .filled

/-- What the ledger may move for a filled sell: its cost without its fee, each as the ledger rounds it. -/
def LedgerMoves (places : Int) (result : LegResult) (moved : Rat) : Prop :=
  ∃ cost fee costEntry feeEntry, result.cost.getD (.finite .zero) = .finite cost ∧
    result.fee.getD (.finite .zero) = .finite fee ∧ LedgerEntry places cost.value costEntry ∧
    LedgerEntry places fee.value feeEntry ∧ moved = costEntry - feeEntry

/-- Neither its cost nor its fee is below zero, unless it has the ledger's places. -/
def ReportedAsNamed (places : Int) (result : LegResult) : Prop :=
  ∀ cost fee, result.cost.getD (.finite .zero) = .finite cost → result.fee.getD (.finite .zero) = .finite fee →
    RoundsAsNamed places cost.value ∧ RoundsAsNamed places fee.value

/-- A sell is credited at most what the ledger moves, whichever way the ledger rounds: exactly when it is
reported as named. -/
theorem creditedOf_le_iff (places : Int) (result : LegResult) :
    (∀ moved, LedgerMoves places result moved → creditedOf places result ≤ moved) ↔
      ReportedAsNamed places result := by
  constructor
  · intro h cost fee hcost hfee
    refine credited_le_iff.mp fun costEntry feeEntry hc hf => ?_
    have hle := h _ ⟨cost, fee, costEntry, feeEntry, hcost, hfee, hc, hf, rfl⟩
    rwa [creditedOf, hcost, hfee] at hle
  · rintro h moved ⟨cost, fee, costEntry, feeEntry, hcost, hfee, hc, hf, rfl⟩
    rw [creditedOf, hcost, hfee]
    exact credited_le_iff.mpr (h cost fee hcost hfee) costEntry feeEntry hc hf

/-- So together they are credited at most what the ledger moves for them. -/
theorem raised_le_moved {places : Int} {results : List LegResult} {moved : List Rat}
    (hmoved : List.Forall₂ (LedgerMoves places) (filledSells results) moved)
    (h : ∀ result ∈ filledSells results, ReportedAsNamed places result) :
    raised places results ≤ moved.sum := by
  rw [raised]
  change ((filledSells results).map (creditedOf places)).sum ≤ moved.sum
  generalize filledSells results = sells at hmoved h
  induction hmoved with
  | nil => exact le_rfl
  | cons hfirst _ ih =>
    rw [List.map_cons, List.sum_cons, List.sum_cons]
    refine add_le_add ?_ (ih fun x hx => h x (List.mem_cons_of_mem _ hx))
    exact (creditedOf_le_iff places _).mpr (h _ List.mem_cons_self) _ hfirst

section Paths

variable {l l' : Locals} {t : Trace}

/-- The buys of a plan that is sent, whatever the answers: inside the free cash and what the filled sells were
credited, and each inside the plan. -/
theorem sendAll_within {id : Nat} {planned : Planned} {reason : OrderReason} {fiat : String} {snapshot : Nat}
    {r : Except Exn Bool} (h : (sendAll id planned reason fiat snapshot).Path l t r l') :
    ∃ results, l'.legs = l.legs ++ results ∧
      bought t ≤ max 0 (planned.freeCash + raised planned.fiatPlaces results) ∧
      List.SublistForall₂ BuyWithin (buys t) (planned.ofSide .buy) := by
  have hnothing : ∀ {t : Trace} {b : Rat}, buys t = [] → bought t ≤ max 0 b ∧
      List.SublistForall₂ BuyWithin (buys t) (planned.ofSide .buy) := by
    intro t b hnone
    rw [bought, hnone]
    exact ⟨le_max_left 0 b, .nil⟩
  have hsides : ∀ side, ∀ leg ∈ planned.ofSide side, leg.side = side := by
    intro side leg hleg
    simpa using (List.mem_filter.mp hleg).2
  rcases path_bind h with ⟨⟨stopped, budget⟩, l₁, t₁, t₂, h₁, h₂, rfl⟩ | ⟨e, h₁, rfl⟩
  · obtain ⟨hnone, results, hresults, hbudget⟩ := sendSells_budget (hsides .sell) h₁
    dsimp only at h₂
    cases hwithin : within (planned.ofSide .buy) budget fiat with
    | error e =>
      rw [hwithin] at h₂
      obtain ⟨rfl, rfl, rfl⟩ := path_throw h₂
      exact ⟨results, hresults, hnothing (by simpa using hnone)⟩
    | ok fitted =>
      rw [hwithin] at h₂
      -- A budget that is no number fits nothing.
      cases budget with
      | none => cases hwithin
      | some budget =>
        obtain ⟨a, ha, rfl⟩ := hbudget stopped budget rfl
        obtain rfl := Option.some.inj ha
        have hspendable : ∀ leg ∈ planned.ofSide .buy, Spendable leg := fun leg hleg =>
          planned.nonneg leg (List.mem_filter.mp hleg).1
        obtain ⟨hfits, hspent⟩ := within_ok hspendable hwithin
        have hbuys : ∀ leg ∈ fitted, leg.side = .buy := side_of_fits hfits (hsides .buy)
        obtain ⟨⟨sent, hsub, hnotes, horders⟩, others, hothers, hbought⟩ := sendBuys_orders hbuys h₂
        have hsent : buys (t₁ ++ t₂) = sent.map buyOrder := by
          rw [buys_append, hnone, List.nil_append, buys, horders, List.filter_eq_self]
          intro o ho
          obtain ⟨leg, -, rfl⟩ := List.mem_map.mp ho
          rfl
        refine ⟨results ++ others, ?_, ?_, ?_⟩
        · rw [hothers, hresults, List.append_assoc]
        · rw [raised_append, raised_of_buys hbought, add_zero, bought, hsent]
          exact (bought_le_spent hsub hnotes).trans hspent
        · rw [hsent]
          exact buysWithin_of_fits hfits hsub hnotes
  · obtain ⟨hnone, results, hresults, -⟩ := sendSells_budget (hsides .sell) h₁
    exact ⟨results, hresults, hnothing hnone⟩

end Paths

/-! ## A sell that fills, and a buy after it -/

/-- Kraken's answer about one closed order. -/
def filledBody (txid cost fee : String) : Json :=
  .obj [("error", .arr []), ("result", .obj [(txid, .obj [("status", .str "closed"), ("vol", .str "0.0003"),
    ("vol_exec", .str "0.0003"), ("price", .str "50000"), ("cost", .str cost), ("fee", .str fee)])])]

/-- A world in which every order is accepted and fills at once, at this cost and this fee. -/
def fillingAt (cost fee : String) : (o : Op) → World → Ans o × World
  | .now, w => (w.clock, w)
  | .newUuid, w => ("order-" ++ toString w.db.ledger.rows.length, w)
  | .unseal _, w => (.ok (), w)
  | .tx t, w =>
      match t.run w.clock w.db with
      | .ok (a, db) => (.ok a, { w with db })
      | .error e => (.error e, w)
  | .post (.addOrder _ _ _ clOrdId _ _), w => (.answered (acceptedBody (txidOf clOrdId)), w)
  | .post (.queryOrders txid), w => (.answered (filledBody txid cost fee), w)
  | .post _, w => (.failed, w)
  | .assetNames, w => (.ok none, w)
  | .assetPairs, w => (.ok none, w)
  | .ticker _, w => (.ok none, w)
  | .assetDecimals, w => (.ok none, w)
  | .tryLock, w => (.ok true, w)
  | .unlock, w => (.ok (), w)

def xbtSell : PlannedLeg where
  asset := "XBT"
  pair := "XXBTZEUR"
  side := .sell
  amount := ⟨15, 0⟩
  minimum := some ⟨5, 0⟩
  note := none
  volume := some ⟨3, -4⟩
  pairMeta := some xbtEur
  sized := fun _ => ⟨xbtEur, ⟨5, 0⟩, rfl, rfl, by decide +kernel, ⟨1500000, by decide +kernel⟩, fun _ => rfl⟩

def ethBuy : PlannedLeg where
  asset := "ETH"
  pair := "XETHZEUR"
  side := .buy
  amount := ⟨20, 0⟩
  minimum := some ⟨5, 0⟩
  note := none
  volume := none
  pairMeta := some { xbtEur with pair := "XETHZEUR", altname := "ETHEUR", base := "XETH" }
  sized := fun _ => ⟨_, ⟨5, 0⟩, rfl, rfl, by decide +kernel, ⟨2000000, by decide +kernel⟩, fun h => by cases h⟩

/-- Sell some bitcoin and buy ether for what it raises: there is no free cash. -/
def switchPlan : Planned where
  view := ⟨"EUR", .zero, 0, 0, 0, []⟩
  legs := [xbtSell, ethBuy]
  freeCash := 0
  fiatPlaces := 4
  distinct := by decide
  nonneg := by decide +kernel
  freeCash_nonneg := le_rfl

def switching : Work Bool := sendAll 0 switchPlan .rebalance "EUR" 0

/-- What that plan sends, and how it ends. -/
def switched (cost fee : String) : Trace := (switching.exec {}).played (fillingAt cost fee) (newUser true)

def switchedEnd (cost fee : String) : Except Exn Bool × Locals :=
  (switching.play (fillingAt cost fee) {} (newUser true)).1

theorem switched_path (cost fee : String) :
    switching.Path {} (switched cost fee) (switchedEnd cost fee).1 (switchedEnd cost fee).2 := by
  rw [switched, switchedEnd]
  apply proc_path_played

end Coinpilot.Safety
