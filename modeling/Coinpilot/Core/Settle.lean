import Coinpilot.Core.Db.Orders

/-!
# What became of an order

`settle` writes down what Kraken says about one order. `Settled` lists the five ways it ends.
-/

set_option autoImplicit false

namespace Coinpilot.Core

open Coinpilot.Lib Coinpilot.Exchange Coinpilot.Engine

/-- Two minutes. An absence read sooner than this after the attempt is not believed. -/
def ABSENCE_GRACE : Int := 120000000

/-- Off the book with nothing more coming. -/
def isFinished (status : Option ExchangeOrderStatus) : Bool :=
  status = some .closed || status = some .canceled

/-- Write down what Kraken says about one order, and return the row's status. -/
def settle (l : Ledger) (clOrdId : String) (lookup : Option OrderLookup) :
    Except Exn (OrderStatus × Ledger) :=
  match lookup with
  | none => .ok (.pending, l)
  | some found =>
      match found.txid with
      | none => .ok (.failed, l.markFailed clOrdId none)
      | some txid =>
          if isFinished found.status then
            match found.volumeExecuted.gtZero with
            | .error e => .error (.python e)
            | .ok true => do
                let l ← l.markFilled clOrdId txid found.volumeExecuted found.price found.fee found.cost
                return (.filled, l)
            | .ok false =>
                let word := (found.status.map ExchangeOrderStatus.value).getD ""
                .ok (.failed, l.markFailed clOrdId (some (word ++ " with nothing executed")))
          else do
            let l ← l.markSent clOrdId txid
            return (.pending, l)

/-- How a row is settled: unknown, absent, filled, finished with nothing executed, or named. -/
inductive Settled (l : Ledger) (c : String) : Option OrderLookup → OrderStatus → Ledger → Prop where
  | unknown : Settled l c none .pending l
  | absent {k : OrderLookup} : k.txid = none → Settled l c (some k) .failed (l.markFailed c none)
  | filled {k : OrderLookup} {t : String} {l' : Ledger} : k.txid = some t →
      isFinished k.status = true → k.volumeExecuted.gtZero = .ok true →
      l.markFilled c t k.volumeExecuted k.price k.fee k.cost = .ok l' → Settled l c (some k) .filled l'
  | empty {k : OrderLookup} {t : String} {e : String} : k.txid = some t →
      isFinished k.status = true → k.volumeExecuted.gtZero = .ok false →
      Settled l c (some k) .failed (l.markFailed c (some e))
  | named {k : OrderLookup} {t : String} {l' : Ledger} : k.txid = some t →
      isFinished k.status = false → l.markSent c t = .ok l' → Settled l c (some k) .pending l'

theorem settle_ok {l l' : Ledger} {c : String} {lookup : Option OrderLookup} {s : OrderStatus}
    (h : settle l c lookup = .ok (s, l')) : Settled l c lookup s l' := by
  unfold settle at h
  split at h
  · injection h with h
    obtain ⟨rfl, rfl⟩ := Prod.mk.inj h
    exact .unknown
  · rename_i k
    split at h
    · rename_i ht
      injection h with h
      obtain ⟨rfl, rfl⟩ := Prod.mk.inj h
      exact .absent ht
    · rename_i t ht
      split at h
      · rename_i hf
        split at h
        · cases h
        · rename_i hg
          cases hm : l.markFilled c t k.volumeExecuted k.price k.fee k.cost with
          | error e => rw [hm] at h; cases h
          | ok l'' =>
            rw [hm] at h
            cases h
            exact .filled ht hf hg hm
        · rename_i hg
          injection h with h
          obtain ⟨rfl, rfl⟩ := Prod.mk.inj h
          exact .empty ht hf hg
      · rename_i hf
        cases hm : l.markSent c t with
        | error e => rw [hm] at h; cases h
        | ok l'' =>
          rw [hm] at h
          cases h
          exact .named ht (by simpa using hf) hm

/-- Every way of settling changes one row at most, whose status it returns. The txid it writes is the
one that was found. -/
theorem Settled.rows {l l' : Ledger} {c : String} {lookup : Option OrderLookup} {s : OrderStatus}
    (h : Settled l c lookup s l') :
    ∃ (f : Order → Order) (hf : ∀ o, (f o).clOrdId = o.clOrdId), l'.rows = (l.modify c f hf).rows ∧
      ∀ o, (f o).sessionId = o.sessionId ∧ (f o).attemptedAt = o.attemptedAt ∧
        (o.status = .pending → (f o).status = s) ∧ ((f o).unknown → o.unknown) ∧
        ((f o).txid = o.txid ∨ ∃ k t, lookup = some k ∧ k.txid = some t ∧ (f o).txid = some t) := by
  cases h with
  | unknown =>
    refine ⟨id, fun _ => rfl, ?_, fun o => ⟨rfl, rfl, id, id, Or.inl rfl⟩⟩
    simp [Ledger.modify]
  | absent ht =>
    refine ⟨_, _, rfl, fun o => ⟨rfl, rfl, fun _ => rfl, ?_, Or.inl rfl⟩⟩
    rintro ⟨hfailed, -⟩
    cases hfailed
  | filled ht hfin hgt hm =>
    obtain ⟨g, hg, hrows, hspec⟩ := Ledger.markFilled_ok hm
    refine ⟨g, hg, hrows, fun o => ?_⟩
    obtain ⟨htxid, hstatus, hsession, hat⟩ := hspec o
    refine ⟨hsession, hat, fun _ => hstatus, ?_, Or.inr ⟨_, _, rfl, ht, htxid⟩⟩
    rintro ⟨hpending, -⟩
    rw [hstatus] at hpending
    cases hpending
  | empty ht hfin hgt =>
    refine ⟨_, _, rfl, fun o => ⟨rfl, rfl, fun _ => rfl, ?_, Or.inl rfl⟩⟩
    rintro ⟨hfailed, -⟩
    cases hfailed
  | named ht hfin hm =>
    refine ⟨_, _, Ledger.markSent_ok hm, fun o => ⟨rfl, rfl, id, ?_, Or.inr ⟨_, _, rfl, ht, rfl⟩⟩⟩
    rintro ⟨-, hnone⟩
    cases hnone

/-- A row whose order was found is settled exactly when the order is finished. -/
theorem Settled.finished {l l' : Ledger} {c : String} {lookup : Option OrderLookup} {s : OrderStatus}
    (h : Settled l c lookup s l') (hfound : ∀ k, lookup = some k → k.txid ≠ none) :
    s ≠ .pending ↔ ∃ k, lookup = some k ∧ isFinished k.status = true := by
  cases h with
  | unknown => simp
  | absent ht => exact absurd ht (hfound _ rfl)
  | filled ht hfin hgt hm => simp [hfin]
  | empty ht hfin hgt => simp [hfin]
  | named ht hfin hm => simp [hfin]

end Coinpilot.Core
