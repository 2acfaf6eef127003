import Coinpilot.Core.Footprint
import Coinpilot.Lib.Trace

/-!
# The orders of a trace

Which `AddOrder` calls a call of the user makes on any path, whatever the answers (`orders`): sending a leg
makes one unless the leg is skipped or an earlier answer was lost (`sendLeg_path`), a preview has one
validated for each leg without a note (`previewLegs_path`), and everything else makes none.
-/

set_option autoImplicit false

namespace Coinpilot.Safety

open Coinpilot.Lib Coinpilot.Lib.Program Coinpilot.Exchange Coinpilot.Engine Coinpilot.Core

/-- A trace of one user's call. -/
abbrev Trace : Type := List (Answer Op Ans)

/-- An `AddOrder` call, without its client id. -/
structure Ordered where
  pair : String
  side : String
  volume : Decimal
  validate : Bool
  deriving DecidableEq, Repr

/-- The order that an operation is. -/
def orderOf : Op → Option Ordered
  | .post (.addOrder pair side volume _ _ validate) => some ⟨pair, side, volume, validate⟩
  | _ => none

/-- The orders of a trace. -/
def orders (t : Trace) : List Ordered := picked orderOf t

@[simp] theorem orders_nil : orders [] = [] := rfl

@[simp] theorem orders_append (t₁ t₂ : Trace) : orders (t₁ ++ t₂) = orders t₁ ++ orders t₂ :=
  picked_append t₁ t₂

theorem orderOf_records {o : Op} (h : o.records = true) : orderOf o = none := by
  cases o with
  | post r =>
    cases r with
    | addOrder pair side volume c inQuote validate => cases h
    | _ => rfl
  | _ => rfl

theorem orderOf_plans {o : Op} (h : o.plans = true) : orderOf o = none := by
  cases o with
  | post r =>
    cases r with
    | addOrder pair side volume c inQuote validate => cases h
    | _ => rfl
  | _ => rfl

theorem orderOf_resolves {o : Op} (h : o.resolves = true) : orderOf o = none := by
  cases o with
  | post r =>
    cases r with
    | addOrder pair side volume c inQuote validate => cases h
    | _ => rfl
  | _ => rfl

/-- A part of a call that is not an order is none of its orders. -/
theorem orders_of_quiet {t : Trace} (h : ∀ x ∈ t, orderOf x.1 = none) : orders t = [] := picked_of_quiet h

/-- The amount that the order of a leg names: fiat of a buy, volume of a sell. -/
def orderVolume (leg : PlannedLeg) : Option Decimal :=
  match leg.side with
  | .buy => some leg.amount
  | .sell => leg.volume

/-- The order of a leg. -/
def legOrder (validate : Bool) (leg : PlannedLeg) : Option Ordered :=
  (orderVolume leg).map fun volume => ⟨leg.pair, leg.side.value, volume, validate⟩

/-- The order of a leg that is not skipped. -/
def unskippedOrder (validate : Bool) (leg : PlannedLeg) : Option Ordered :=
  if leg.note = none then legOrder validate leg else none

/-- An answer to an order was lost: the row that was read back is pending and has no txid. -/
def LostAnswer (x : Answer Op Ans) : Prop :=
  ∃ c order, x = ⟨.tx (.getByClOrdId c), (.ok (some order) : Except Exn (Option Order))⟩ ∧
    order.status = .pending ∧ order.txid = none

section Paths

variable {l l' : Locals} {t : Trace}

/-- An operation of sending that is not an order. -/
theorem performs_only {o : Op} (h : o.records = true) :
    (perform o : Work (Ans o)).Only (fun o => o.records = true) fun _ => True :=
  fun _ => ⟨h, fun _ => ⟨trivial, rfl⟩⟩

theorem newClOrdId_only : newClOrdId.Only (fun o => o.records = true) fun _ => True :=
  performs_only (o := .newUuid) rfl

theorem currentTime_only : currentTime.Only (fun o => o.records = true) fun _ => True :=
  performs_only (o := .now) rfl

/-- A first part that only records makes no order. -/
theorem orders_bind {α β : Type} {m : Work α} {R : Except Exn α → Prop}
    (hm : m.Only (fun o => o.records = true) R) {f : α → Work β} {r : Except Exn β}
    (h : (m >>= f).Path l t r l') :
    (∃ a t₁ t₂, t = t₁ ++ t₂ ∧ orders t₁ = [] ∧ R (.ok a) ∧ (f a).Path l t₂ r l') ∨
      ∃ e, r = .error e ∧ l' = l ∧ orders t = [] :=
  picked_bind_quiet hm (fun _ ho => orderOf_records ho) h

/-- Placing a leg is one order, or raises where the leg has no volume to sell. -/
theorem place_path {leg : PlannedLeg} {c : String} {validate : Bool} {r : Except Exn Placement}
    (h : (place leg c validate).Path l t r l') :
    l' = l ∧ ((∃ answer, r = .ok (readPlacement validate answer) ∧
        orders t = (legOrder validate leg).toList ∧ (legOrder validate leg).isSome) ∨
      (orders t = [] ∧ legOrder validate leg = none ∧ ∃ e, r = .error e)) := by
  unfold place at h
  cases hside : leg.side with
  | buy =>
    rw [hside] at h
    rcases path_bind h with ⟨answer, l₁, t₁, t₂, h₁, h₂, rfl⟩ | ⟨e, h₁, -⟩
    · obtain ⟨b, rfl, hb, rfl⟩ := path_perform h₁
      obtain rfl := Except.ok.inj hb
      obtain ⟨rfl, rfl, rfl⟩ := path_pure h₂
      refine ⟨rfl, Or.inl ⟨answer, rfl, ?_, ?_⟩⟩
      · simp [orders, picked, orderOf, legOrder, orderVolume, hside, Side.value]
      · simp [legOrder, orderVolume, hside]
    · obtain ⟨b, -, hb, -⟩ := path_perform h₁
      cases hb
  | sell =>
    rw [hside] at h
    dsimp only at h
    cases hvolume : leg.volume with
    | none =>
      rw [hvolume] at h
      obtain ⟨rfl, rfl, rfl⟩ := path_throw h
      exact ⟨rfl, Or.inr ⟨rfl, by simp [legOrder, orderVolume, hside, hvolume], _, rfl⟩⟩
    | some volume =>
      rw [hvolume] at h
      rcases path_bind h with ⟨answer, l₁, t₁, t₂, h₁, h₂, rfl⟩ | ⟨e, h₁, -⟩
      · obtain ⟨b, rfl, hb, rfl⟩ := path_perform h₁
        obtain rfl := Except.ok.inj hb
        obtain ⟨rfl, rfl, rfl⟩ := path_pure h₂
        refine ⟨rfl, Or.inl ⟨answer, rfl, ?_, ?_⟩⟩
        · simp [orders, picked, orderOf, legOrder, orderVolume, hside, hvolume, Side.value]
        · simp [legOrder, orderVolume, hside, hvolume]
      · obtain ⟨b, -, hb, -⟩ := path_perform h₁
        cases hb

theorem transact_path {x : Txn} {r : Except Exn x.Ans} (h : (transact x).Path l t r l') :
    t = [⟨.tx x, r⟩] ∧ orders t = [] ∧ l' = l := by
  obtain ⟨b, rfl, rfl, rfl⟩ := path_attempt h
  exact ⟨rfl, rfl, rfl⟩

/-- Sending a leg makes its order, unless it raises before. The result is read from its row. -/
theorem send_path {id : Nat} {leg : PlannedLeg} {reason : OrderReason} {r : Except Exn LegResult}
    (h : (send id leg reason).Path l t r l') :
    l' = l ∧ ((orders t = (legOrder false leg).toList ∧
        ∀ result, r = .ok result → ∃ c order, result = fromRow leg order ∧
          (⟨.tx (.getByClOrdId c), (.ok (some order) : Except Exn (Option Order))⟩ : Answer Op Ans) ∈ t) ∨
      (orders t = [] ∧ ∃ e, r = .error e)) := by
  rcases orders_bind newClOrdId_only h with ⟨c, t₁, u₁, rfl, hq₁, -, h₁⟩ | ⟨e, rfl, rfl, hnone⟩
  · rcases orders_bind currentTime_only h₁ with ⟨at', t₂, u₂, rfl, hq₂, -, h₂⟩ | ⟨e, rfl, rfl, hnone⟩
    · have hrecord : (transact (.recordAttempt c leg reason at' id)).Only
          (fun o => o.records = true) fun _ => True := records_only rfl
      rcases orders_bind hrecord h₂ with ⟨-, t₃, u₃, rfl, hq₃, -, h₃⟩ | ⟨e, rfl, rfl, hnone⟩
      · rcases path_bind h₃ with ⟨placement, l₄, t₄, u₄, hplace, h₄, rfl⟩ | ⟨e, hplace, rfl⟩
        · obtain ⟨rfl, ⟨answer, -, hplaced, -⟩ | ⟨-, -, e, he⟩⟩ := place_path hplace
          · rcases orders_bind (recordPlacement_only c placement) h₄ with
              ⟨-, t₅, u₅, rfl, hq₅, -, h₅⟩ | ⟨e, rfl, rfl, hnone⟩
            · rcases path_bind h₅ with ⟨order, l₆, t₆, u₆, h₆, h₇, rfl⟩ | ⟨e, h₆, rfl⟩
              · obtain ⟨rfl, hq₆, rfl⟩ := transact_path h₆
                cases order with
                | none =>
                  obtain ⟨rfl, rfl, rfl⟩ := path_throw h₇
                  exact ⟨rfl, Or.inl ⟨by simp [hq₁, hq₂, hq₃, hplaced, hq₅, hq₆], fun _ he => by cases he⟩⟩
                | some order =>
                  obtain ⟨rfl, rfl, rfl⟩ := path_pure h₇
                  refine ⟨rfl, Or.inl ⟨by simp [hq₁, hq₂, hq₃, hplaced, hq₅, hq₆], ?_⟩⟩
                  intro result hok
                  exact ⟨c, order, (Except.ok.inj hok).symm, by simp⟩
              · obtain ⟨rfl, hq₆, rfl⟩ := transact_path h₆
                exact ⟨rfl, Or.inl ⟨by simp [hq₁, hq₂, hq₃, hplaced, hq₅, hq₆], fun _ he => by cases he⟩⟩
            · exact ⟨rfl, Or.inl ⟨by simp [hq₁, hq₂, hq₃, hplaced, hnone], fun _ he => by cases he⟩⟩
          · cases he
        · obtain ⟨rfl, ⟨answer, he, -⟩ | ⟨hnone, -, -⟩⟩ := place_path hplace
          · cases he
          · exact ⟨rfl, Or.inr ⟨by simp [hq₁, hq₂, hq₃, hnone], e, rfl⟩⟩
      · exact ⟨rfl, Or.inr ⟨by simp [hq₁, hq₂, hnone], e, rfl⟩⟩
    · exact ⟨rfl, Or.inr ⟨by simp [hq₁, hnone], e, rfl⟩⟩
  · exact ⟨rfl, Or.inr ⟨hnone, e, rfl⟩⟩

/-- What becomes of one leg. `stopped` says that an earlier answer was lost. -/
inductive LegTried (leg : PlannedLeg) (stopped : Bool) (t : Trace) : Except Exn (LegResult × Bool) → Prop
  | skipped {note : String} : leg.note = some note → orders t = [] →
      LegTried leg stopped t (.ok (skipped leg note, stopped))
  | halted : leg.note = none → stopped = true → orders t = [] →
      LegTried leg stopped t (.ok (skipped leg "not sent: an earlier order's answer is unknown", true))
  | sent {c : String} {order : Order} : leg.note = none → stopped = false →
      orders t = (legOrder false leg).toList →
      (⟨.tx (.getByClOrdId c), (.ok (some order) : Except Exn (Option Order))⟩ : Answer Op Ans) ∈ t →
      LegTried leg stopped t (.ok (fromRow leg order,
        (fromRow leg order).status = .pending && (fromRow leg order).txid = none))
  | raised {e : Exn} : leg.note = none → stopped = false →
      (orders t = [] ∨ orders t = (legOrder false leg).toList) → LegTried leg stopped t (.error e)

/-- Pinning makes no order and changes no result. -/
theorem pin_path {snapshot : Nat} {r : Except Exn Unit} (h : (pin snapshot).Path l t r l') :
    orders t = [] ∧ l'.legs = l.legs := by
  rcases path_bind h with ⟨a, l₁, t₁, t₂, h₁, h₂, rfl⟩ | ⟨e, h₁, -⟩
  · obtain ⟨rfl, ha, rfl⟩ := path_getLocals h₁
    obtain rfl := Except.ok.inj ha
    split at h₂
    · obtain ⟨rfl, -, rfl⟩ := path_pure h₂
      exact ⟨rfl, rfl⟩
    · rcases path_bind h₂ with ⟨_, l₂, t₃, t₄, h₃, h₄, rfl⟩ | ⟨e, h₃, -⟩
      · obtain ⟨-, hquiet, rfl⟩ := transact_path h₃
        obtain ⟨rfl, -, rfl⟩ := path_modifyLocals h₄
        exact ⟨by simp [hquiet], rfl⟩
      · obtain ⟨-, hquiet, rfl⟩ := transact_path h₃
        exact ⟨hquiet, rfl⟩
  · obtain ⟨rfl, he, -⟩ := path_getLocals h₁
    cases he

theorem attemptLeg_path {id : Nat} {leg : PlannedLeg} {reason : OrderReason} {stopped : Bool}
    {snapshot : Nat} {r : Except Exn (LegResult × Bool)}
    (h : (attemptLeg id leg reason stopped snapshot).Path l t r l') :
    l'.legs = l.legs ∧ LegTried leg stopped t r := by
  unfold attemptLeg at h
  split at h
  · rename_i note hnote
    obtain ⟨rfl, rfl, rfl⟩ := path_pure h
    exact ⟨rfl, .skipped hnote rfl⟩
  · rename_i hnote
    cases stopped with
    | true =>
      obtain ⟨rfl, rfl, rfl⟩ := path_pure h
      exact ⟨rfl, .halted hnote rfl rfl⟩
    | false =>
      rw [if_neg (by decide)] at h
      rcases path_bind h with ⟨_, l₁, t₁, t₂, h₁, h₂, rfl⟩ | ⟨e, h₁, rfl⟩
      · obtain ⟨hpin, hlegs⟩ := pin_path h₁
        rcases path_bind h₂ with ⟨result, l₂, t₃, t₄, h₃, h₄, rfl⟩ | ⟨e, h₃, rfl⟩
        · obtain ⟨rfl, ⟨horders, hrow⟩ | ⟨-, e, he⟩⟩ := send_path h₃
          · obtain ⟨c, order, rfl, hmem⟩ := hrow result rfl
            obtain ⟨rfl, rfl, rfl⟩ := path_pure h₄
            have hread := List.mem_append_right t₁ (List.mem_append_left [] hmem)
            exact ⟨hlegs, .sent hnote rfl (by simp [hpin, horders]) hread⟩
          · cases he
        · obtain ⟨rfl, ⟨horders, -⟩ | ⟨hnone, -⟩⟩ := send_path h₃
          · exact ⟨hlegs, .raised hnote rfl (Or.inr (by simp [hpin, horders]))⟩
          · exact ⟨hlegs, .raised hnote rfl (Or.inl (by simp [hpin, hnone]))⟩
      · obtain ⟨hpin, hlegs⟩ := pin_path h₁
        exact ⟨hlegs, .raised hnote rfl (Or.inl hpin)⟩

/-- The result of a leg is kept. -/
theorem sendLeg_path {id : Nat} {leg : PlannedLeg} {reason : OrderReason} {fiat : String} {stopped : Bool}
    {snapshot : Nat} {r : Except Exn (LegResult × Bool)}
    (h : (sendLeg id leg reason fiat stopped snapshot).Path l t r l') :
    LegTried leg stopped t r ∧ l'.legs = l.legs ++ match r with
      | .ok (result, _) => [result]
      | .error _ => [] := by
  rcases path_bind h with ⟨⟨result, stopped'⟩, l₁, t₁, t₂, h₁, h₂, rfl⟩ | ⟨e, h₁, rfl⟩
  · obtain ⟨hlegs, hattempted⟩ := attemptLeg_path h₁
    rcases path_bind h₂ with ⟨_, l₂, t₃, t₄, h₃, h₄, rfl⟩ | ⟨e, h₃, -⟩
    · obtain ⟨rfl, -, rfl⟩ := path_modifyLocals h₃
      rcases path_bind h₄ with ⟨_, l₃, t₅, t₆, h₅, h₆, rfl⟩ | ⟨e, h₅, -⟩
      · obtain ⟨rfl, -, rfl⟩ := path_modifyLocals h₅
        obtain ⟨rfl, rfl, rfl⟩ := path_pure h₆
        simp only [List.append_nil]
        exact ⟨hattempted, by rw [hlegs]⟩
      · obtain ⟨-, he, -⟩ := path_modifyLocals h₅
        cases he
    · obtain ⟨-, he, -⟩ := path_modifyLocals h₃
      cases he
  · obtain ⟨hlegs, hattempted⟩ := attemptLeg_path h₁
    exact ⟨hattempted, by rw [hlegs, List.append_nil]⟩

/-! ## Previews -/

/-- One leg of a preview: a validated order for a leg without a note. -/
theorem previewLeg_path {leg : PlannedLeg} {result : LegResult}
    (h : (previewLeg leg).Path l t (.ok result) l') :
    l' = l ∧ orders t = (unskippedOrder true leg).toList ∧ result.asset = leg.asset ∧
      result.note = leg.note := by
  unfold previewLeg at h
  split at h
  · rename_i note hnote
    obtain ⟨rfl, hr, rfl⟩ := path_pure h
    obtain rfl := Except.ok.inj hr
    exact ⟨rfl, by simp [unskippedOrder, hnote], rfl, hnote.symm⟩
  · rename_i hnote
    rcases orders_bind newClOrdId_only h with ⟨c, t₁, u₁, rfl, hq₁, -, h₁⟩ | ⟨e, he, -, -⟩
    · obtain ⟨placement, l₂, t₂, u₂, h₂, h₃, rfl⟩ := path_bind_ok h₁
      obtain ⟨rfl, ⟨answer, -, horders, -⟩ | ⟨-, -, e, he⟩⟩ := place_path h₂
      · obtain ⟨rfl, hr, rfl⟩ := path_pure h₃
        obtain rfl := Except.ok.inj hr
        exact ⟨rfl, by simp [hq₁, horders, unskippedOrder, hnote], rfl, hnote.symm⟩
      · cases he
    · cases he

/-- The legs of a preview, in order. -/
theorem previewLegs_path {legs : List PlannedLeg} {results : List LegResult}
    (h : (previewLegs legs).Path l t (.ok results) l') :
    l' = l ∧ orders t = legs.filterMap (unskippedOrder true) ∧
      results.map (fun r => (r.asset, r.note)) = legs.map fun leg => (leg.asset, leg.note) := by
  induction legs generalizing l l' t results with
  | nil =>
    obtain ⟨rfl, hr, rfl⟩ := path_pure h
    obtain rfl := Except.ok.inj hr
    exact ⟨rfl, rfl, rfl⟩
  | cons leg rest ih =>
    obtain ⟨result, l₁, t₁, t₂, h₁, h₂, rfl⟩ := path_bind_ok h
    obtain ⟨rfl, horders, hasset, hnote⟩ := previewLeg_path h₁
    obtain ⟨others, l₂, t₃, t₄, h₃, h₄, rfl⟩ := path_bind_ok h₂
    obtain ⟨rfl, hrest, hresults⟩ := ih h₃
    obtain ⟨rfl, hr, rfl⟩ := path_pure h₄
    obtain rfl := Except.ok.inj hr
    refine ⟨rfl, ?_, by simp [hasset, hnote, hresults]⟩
    rw [List.append_nil, orders_append, horders, hrest, List.filterMap_cons]
    cases unskippedOrder true leg <;> rfl

end Paths

end Coinpilot.Safety
