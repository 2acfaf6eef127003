import Coinpilot.Exchange.Orders
import Mathlib.Algebra.Order.Ring.Rat

/-!
# What is assumed of Kraken

The orders of one user at Kraken and how they change. A request travels until it is accepted or
lost; an accepted order is listed as open and later as closed, once, with the volume it executed.
`Answers` says which answers to a private call are true: a refusal created no order, an order that
was sent carries the txid it was sent under, a listing shows every order listed in it, and an entry
carries the order's status and executed volume. `Timely` is the grace: an order that will exist is
listed from `grace` after its attempt on.
-/

set_option autoImplicit false

namespace Coinpilot.Exchange

open Coinpilot.Lib

/-- Where one order is. -/
inductive Phase where
  | travelling
  | gone
  | accepted (executed : NNRat)
  | listed (executed : NNRat)
  | closed (executed : NNRat)
  deriving DecidableEq

namespace Phase

/-- The volume executed so far. -/
def executed : Phase → NNRat
  | .travelling => 0
  | .gone => 0
  | .accepted v => v
  | .listed v => v
  | .closed v => v

def isListed : Phase → Bool
  | .listed _ => true
  | _ => false

def isClosed : Phase → Bool
  | .closed _ => true
  | _ => false

/-- Not listed anywhere yet, and it may be. -/
def inFlight : Phase → Bool
  | .travelling => true
  | .accepted _ => true
  | _ => false

/-- Nothing more will come of it. -/
def isOver : Phase → Bool
  | .gone => true
  | .closed _ => true
  | _ => false

/-- What may come after a phase, in any number of steps. -/
def Later : Phase → Phase → Prop
  | .travelling, _ => True
  | .gone, p => p = .gone
  | .accepted _, p => p ≠ .travelling ∧ p ≠ .gone
  | .listed _, p => p.isListed ∨ p.isClosed
  | .closed v, p => p = .closed v

theorem Later.refl (p : Phase) : Later p p := by
  cases p <;> simp [Later, isListed]

theorem Later.trans {p q r : Phase} (h : Later p q) (h' : Later q r) : Later p r := by
  cases p with
  | travelling => trivial
  | gone =>
    obtain rfl : q = .gone := h
    exact h'
  | accepted v => cases q <;> cases r <;> simp_all [Later, isListed, isClosed]
  | listed v => cases q <;> cases r <;> simp_all [Later, isListed, isClosed]
  | closed v =>
    obtain rfl : q = .closed v := h
    exact h'

/-- An order that is over stays as it is. -/
theorem Later.eq_of_isOver {p q : Phase} (h : Later p q) (hp : p.isOver = true) : q = p := by
  cases p with
  | gone => exact h
  | closed v => exact h
  | _ => cases hp

/-- An order that is neither in flight nor open is over. -/
theorem isOver_of {p : Phase} (hl : p.isListed = false) (hf : p.inFlight = false) : p.isOver = true := by
  cases p with
  | travelling => cases hf
  | accepted v => cases hf
  | listed v => cases hl
  | _ => rfl

theorem isOver_of_isClosed {p : Phase} (h : p.isClosed = true) : p.isOver = true := by
  cases p with
  | closed v => rfl
  | _ => cases h

/-- An order that is over and not closed is gone. -/
theorem eq_gone {p : Phase} (h : p.isOver = true) (hc : p.isClosed = false) : p = .gone := by
  cases p with
  | gone => rfl
  | closed v => cases hc
  | _ => cases h

end Phase

/-- One order at Kraken. -/
structure RemoteOrder where
  clOrdId : String
  txid : String
  attemptedAt : Int
  phase : Phase
  deriving DecidableEq

/-- One order some time later. -/
def RemoteOrder.Later (o o' : RemoteOrder) : Prop :=
  o'.clOrdId = o.clOrdId ∧ o'.txid = o.txid ∧ o'.attemptedAt = o.attemptedAt ∧ o.phase.Later o'.phase

/-- The orders some time later, with no new one. -/
def Evolves : List RemoteOrder → List RemoteOrder → Prop := List.Forall₂ RemoteOrder.Later

theorem RemoteOrder.Later.refl (o : RemoteOrder) : o.Later o := ⟨rfl, rfl, rfl, Phase.Later.refl _⟩

theorem RemoteOrder.Later.trans {a b c : RemoteOrder} (h : a.Later b) (h' : b.Later c) : a.Later c :=
  ⟨h'.1.trans h.1, h'.2.1.trans h.2.1, h'.2.2.1.trans h.2.2.1, h.2.2.2.trans h'.2.2.2⟩

theorem Evolves.refl (K : List RemoteOrder) : Evolves K K := by
  induction K with
  | nil => exact .nil
  | cons o K ih => exact .cons (RemoteOrder.Later.refl o) ih

theorem Evolves.trans {K K' K'' : List RemoteOrder} (h : Evolves K K') (h' : Evolves K' K'') :
    Evolves K K'' := by
  induction h generalizing K'' with
  | nil => exact h'
  | cons ho _ ih =>
    cases h' with
    | cons ho' hK' => exact .cons (ho.trans ho') (ih hK')

/-- Every later order was there before. -/
theorem Evolves.before {K K' : List RemoteOrder} (h : Evolves K K') {o' : RemoteOrder} (ho' : o' ∈ K') :
    ∃ o ∈ K, o.Later o' := by
  induction h with
  | nil => cases ho'
  | cons hl _ ih =>
    rcases List.mem_cons.mp ho' with rfl | ho'
    · exact ⟨_, List.mem_cons_self, hl⟩
    · obtain ⟨o, ho, hlo⟩ := ih ho'
      exact ⟨o, List.mem_cons_of_mem _ ho, hlo⟩

/-- Every order is there later. -/
theorem Evolves.after {K K' : List RemoteOrder} (h : Evolves K K') {o : RemoteOrder} (ho : o ∈ K) :
    ∃ o' ∈ K', o.Later o' := by
  induction h with
  | nil => cases ho
  | cons hl _ ih =>
    rcases List.mem_cons.mp ho with rfl | ho
    · exact ⟨_, List.mem_cons_self, hl⟩
    · obtain ⟨o', ho', hlo⟩ := ih ho
      exact ⟨o', List.mem_cons_of_mem _ ho', hlo⟩

theorem Evolves.map_eq {K K' : List RemoteOrder} (h : Evolves K K') {α : Type} {f : RemoteOrder → α}
    (hf : ∀ o o', RemoteOrder.Later o o' → f o' = f o) : K'.map f = K.map f := by
  induction h with
  | nil => rfl
  | cons hl _ ih => rw [List.map_cons, List.map_cons, hf _ _ hl, ih]

/-! ## Answers -/

/-- An entry carries the order's status and executed volume. -/
def TrueEntry (o : RemoteOrder) (entry : Json) : Prop :=
  ∀ l, lookup o.txid entry = .ok l →
    (l.status = some .closed ∨ l.status = some .canceled → o.phase.isClosed = true) ∧
      ∃ d, l.volumeExecuted = .finite d ∧ d.value = (o.phase.executed : Rat)

/-- A listing is true of the orders that are `here`: what echoes the id is one of the user's orders
with that id, and every order that is here is shown. -/
def TrueListing (K : List RemoteOrder) (here : Phase → Bool) (key clOrdId : String)
    (answer : HttpOutcome) : Prop :=
  ∀ orders, readListing key answer = .ok (some orders) →
    (∀ entries, orders.items = .ok entries → ∀ e ∈ entries, ∀ raw,
      e.2.get "cl_ord_id" = .ok raw → echoes clOrdId raw = true →
        ∃ o ∈ K, o.clOrdId = clOrdId ∧ o.txid = e.1 ∧ TrueEntry o e.2) ∧
    ∀ o ∈ K, o.clOrdId = clOrdId → here o.phase = true →
      ∃ entries entry, orders.items = .ok entries ∧ (o.txid, entry) ∈ entries ∧
        entry.get "cl_ord_id" = .ok (some (.str clOrdId))

/-- An `AddOrder` request and what was answered. Either nothing came of it, and the answer is no
txid; or an order did, and the answer is no refusal. -/
def Placed (attemptedAt : Int) (clOrdId : String) (K : List RemoteOrder) (placement : Placement)
    (K' : List RemoteOrder) : Prop :=
  (K' = K ∧ placement.outcome ≠ .sent) ∨
    ∃ o, K' = K ++ [o] ∧ o.clOrdId = clOrdId ∧ o.attemptedAt = attemptedAt ∧
      (∀ x ∈ K, x.txid ≠ o.txid) ∧ placement.outcome ≠ .refused ∧
      (placement.outcome = .sent → placement.txid = some o.txid)

/-- Which answers Kraken gives to a private call, and the orders after it. `attemptedAt` is when the
attempt of a client id was written down. -/
def Answers (attemptedAt : String → Int) (r : PrivateCall) (K : List RemoteOrder)
    (answer : HttpOutcome) (K' : List RemoteOrder) : Prop :=
  match r with
  | .addOrder _ _ _ clOrdId _ false =>
      Placed (attemptedAt clOrdId) clOrdId K (readPlacement false answer) K'
  | .openOrders (some clOrdId) => K' = K ∧ TrueListing K Phase.isListed "open" clOrdId answer
  | .closedOrders (some clOrdId) => K' = K ∧ TrueListing K Phase.isClosed "closed" clOrdId answer
  | .queryOrders txid => K' = K ∧ ∀ entries, readQueried answer = .ok (some entries) →
      ∀ entry, entries.lookup txid = some entry → ∃ o ∈ K, o.txid = txid ∧ TrueEntry o entry
  | _ => K' = K

/-- The grace: an order not listed yet was attempted less than `grace` ago. -/
def Timely (grace clock : Int) (K : List RemoteOrder) : Prop :=
  ∀ o ∈ K, o.phase.inFlight = true → clock < o.attemptedAt + grace

/-- A call that cannot trade leaves the orders as they are. -/
theorem Answers.eq_of_creates {attemptedAt : String → Int} {r : PrivateCall} {K K' : List RemoteOrder}
    {answer : HttpOutcome} (h : Answers attemptedAt r K answer K') (hr : r.creates = none) : K' = K := by
  unfold Answers at h
  split at h
  · cases hr
  · exact h.1
  · exact h.1
  · exact h.1
  · exact h

end Coinpilot.Exchange
