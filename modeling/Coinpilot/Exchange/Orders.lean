import Coinpilot.Exchange.Client

/-!
# Finding an order at Kraken

Kraken's order vocabulary and the two lookups. `findOrderByClOrdId` has three answers: a lookup
with a txid, `none` when the outcome is still unknown, and `ABSENT`, which says that both endpoints
answered and neither had the order.
-/

set_option autoImplicit false

namespace Coinpilot.Exchange

open Coinpilot.Lib

/-- Translate one Kraken status. Anything unmodelled becomes `unknown`. -/
def mapOrderStatus (raw : String) : ExchangeOrderStatus :=
  if raw = "pending" then .pending
  else if raw = "open" then .opened
  else if raw = "closed" then .closed
  else if raw = "canceled" then .canceled
  else if raw = "expired" then .canceled
  else .unknown

/-- A field Kraken omitted, or one that is not a number, reads as zero. -/
def asDecimal (raw : Option Json) : PyDecimal :=
  (PyDecimal.parse (raw.getD .null).pyStr).getD (.finite .zero)

/-- One entry of a listing. -/
def lookup (txid : String) (order : Json) : Except PyError OrderLookup := do
  let field := fun key => order.get key
  return {
    txid := some txid
    status := some (mapOrderStatus ((← field "status").getD .null).pyStr)
    volume := asDecimal (← field "vol")
    volumeExecuted := asDecimal (← field "vol_exec")
    price := asDecimal (← field "price")
    fee := asDecimal (← field "fee")
    cost := asDecimal (← field "cost") }

/-- The entry echoes the client id. -/
def echoes (clOrdId : String) : Option Json → Bool
  | some (.str c) => c = clOrdId
  | _ => false

/-- The first order that echoes the id we asked for. -/
def matchOrder (clOrdId : String) : List (String × Json) → Except PyError (Option OrderLookup)
  | [] => .ok none
  | (txid, order) :: rest => do
      if echoes clOrdId (← order.get "cl_ord_id") then return some (← lookup txid order)
      else matchOrder clOrdId rest

/-- Both endpoints replied and neither had the order. -/
def ABSENT : OrderLookup :=
  let zero := PyDecimal.finite .zero
  { txid := none, status := none, volume := zero, volumeExecuted := zero, price := zero, fee := zero,
    cost := zero }

/-- What one endpoint's listing says of the id: nothing (`none`), that the order is not here, or
the order. -/
inductive Sighting where
  | unresolved
  | notHere
  | found (order : OrderLookup)
  deriving DecidableEq, Repr

/-- The body of the loop over the two endpoints. Rows that do not echo the id decide nothing. -/
def sight (clOrdId : String) : Option Json → Except PyError Sighting
  | none => .ok .unresolved
  | some orders =>
      if !orders.truthy then .ok .notHere
      else do
        match ← matchOrder clOrdId (← orders.items) with
        | some order => return .found order
        | none => return .unresolved

section Lookups

variable {m : Type → Type} [Monad m] (client : KrakenClient m)

/-- The loop over the endpoints still to ask. -/
def findIn (clOrdId : String) : List (String → m (Option Json)) → Bool → m (Option OrderLookup)
  | [], unresolved => return if unresolved then none else some ABSENT
  | fetch :: rest, unresolved => do
      match sight clOrdId (← fetch clOrdId) with
      | .error e => client.raise e
      | .ok .unresolved => findIn clOrdId rest true
      | .ok .notHere => findIn clOrdId rest unresolved
      | .ok (.found order) => return some order

/-- Resolve a client id to Kraken's txid. Open orders are asked first. -/
def findOrderByClOrdId (clOrdId : String) : m (Option OrderLookup) :=
  findIn client clOrdId [openOrders client, closedOrders client] false

/-- What the answer to `QueryOrders` says of a txid. -/
def pickQueried (txid : String) : Option (List (String × Json)) → Except PyError (Option OrderLookup)
  | none => .ok none
  | some orders =>
      match orders.lookup txid with
      | none => .ok none
      | some order => (lookup txid order).map some

/-- An order whose txid Kraken gave us. `none` when it could not be read, and never `ABSENT`. -/
def findOrderByTxid (txid : String) : m (Option OrderLookup) := do
  match pickQueried txid (← queryOrders client txid) with
  | .ok found => return found
  | .error e => client.raise e

end Lookups

/-- A lookup of an entry carries the entry's txid. -/
theorem lookup_txid {txid : String} {order : Json} {l : OrderLookup}
    (h : lookup txid order = .ok l) : l.txid = some txid := by
  unfold lookup at h
  cases order with
  | obj fields =>
    simp only [Json.get] at h
    injection h with h
    rw [← h]
  | _ => cases h

/-- `QueryOrders` never gives an absence. -/
theorem pickQueried_txid {txid : String} {orders : Option (List (String × Json))} {l : OrderLookup}
    (h : pickQueried txid orders = .ok (some l)) : l.txid = some txid := by
  unfold pickQueried at h
  split at h
  · cases h
  · split at h
    · cases h
    · rename_i order _
      cases hl : lookup txid order with
      | error e => rw [hl] at h; cases h
      | ok l' =>
        rw [hl] at h
        cases h
        exact lookup_txid hl

/-- An order that a listing shows carries a txid. -/
theorem matchOrder_txid {clOrdId : String} {orders : List (String × Json)} {l : OrderLookup}
    (h : matchOrder clOrdId orders = .ok (some l)) :
    ∃ e ∈ orders, lookup e.1 e.2 = .ok l ∧ ∃ raw, e.2.get "cl_ord_id" = .ok raw ∧
      echoes clOrdId raw = true := by
  induction orders with
  | nil => cases h
  | cons e rest ih =>
    obtain ⟨txid, order⟩ := e
    unfold matchOrder at h
    cases hg : order.get "cl_ord_id" with
    | error x => rw [hg] at h; cases h
    | ok raw =>
      rw [hg] at h
      by_cases he : echoes clOrdId raw = true
      · cases hl : lookup txid order with
        | error x => simp [bind, Except.bind, he, hl] at h
        | ok l' =>
          simp only [bind, Except.bind, he, if_true, hl] at h
          cases h
          exact ⟨_, List.mem_cons_self, hl, raw, hg, he⟩
      · simp only [bind, Except.bind, he, Bool.false_eq_true, if_false] at h
        obtain ⟨e', he', hr⟩ := ih h
        exact ⟨e', List.mem_cons_of_mem _ he', hr⟩

/-- A listing has nothing, or it has entries, of which one is the order or none is. -/
theorem sight_some {clOrdId : String} {orders : Json} {r : Sighting}
    (h : sight clOrdId (some orders) = .ok r) :
    (r = .notHere ∧ orders.truthy = false) ∨
      ∃ entries, orders.items = .ok entries ∧
        ((∃ l, r = .found l ∧ matchOrder clOrdId entries = .ok (some l)) ∨ r = .unresolved) := by
  simp only [sight] at h
  cases ht : orders.truthy with
  | false =>
    rw [ht] at h
    cases h
    exact Or.inl ⟨rfl, rfl⟩
  | true =>
    simp only [ht, Bool.not_true, Bool.false_eq_true, if_false] at h
    cases hi : orders.items with
    | error e => simp [hi, bind, Except.bind] at h
    | ok entries =>
      cases hm : matchOrder clOrdId entries with
      | error e => simp [hi, hm, bind, Except.bind] at h
      | ok m =>
        simp only [hi, hm, bind, Except.bind] at h
        cases m with
        | some l =>
          cases h
          exact Or.inr ⟨entries, rfl, Or.inl ⟨l, rfl, hm⟩⟩
        | none =>
          cases h
          exact Or.inr ⟨entries, rfl, Or.inr rfl⟩

end Coinpilot.Exchange
