import Coinpilot.Core.Db.Models
import Mathlib.Data.List.Sort

/-!
# The order ledger

The row exists before the order does. Each write changes the row of one client id and no other
(`mem_modify`), and `recordAttempt` adds a `PENDING` row with a client id that is new.
-/

set_option autoImplicit false

namespace Coinpilot.Core

open Coinpilot.Lib Coinpilot.Exchange Coinpilot.Engine

def ERROR_CHARS : Nat := 64

/-- A row whose order may exist and has no name yet. -/
def Order.unknown (o : Order) : Prop := o.status = .pending ∧ o.txid = none

instance (o : Order) : Decidable o.unknown :=
  inferInstanceAs (Decidable (o.status = .pending ∧ o.txid = none))

namespace Ledger

def getByClOrdId (l : Ledger) (clOrdId : String) : Option Order :=
  l.rows.find? fun o => o.clOrdId = clOrdId

/-- Change the row of one client id. -/
def modify (l : Ledger) (clOrdId : String) (f : Order → Order)
    (hf : ∀ o, (f o).clOrdId = o.clOrdId) : Ledger where
  rows := l.rows.map fun o => if o.clOrdId = clOrdId then f o else o
  unique := by
    have h : (l.rows.map fun o => if o.clOrdId = clOrdId then f o else o).map Order.clOrdId =
        l.rows.map Order.clOrdId := by
      rw [List.map_map]
      refine List.map_congr_left fun o _ => ?_
      simp only [Function.comp_apply]
      split
      · exact hf o
      · rfl
    rw [h]
    exact l.unique

/-- Write the attempt down first. -/
def recordAttempt (l : Ledger) (now : Int) (clOrdId pair asset : String) (side : Side)
    (reason : OrderReason) (requestedFiat : Decimal) (attemptedAt : Int) (sessionId : Nat) :
    Except Exn Ledger := do
  let clOrdId ← textColumn 64 clOrdId
  let pair ← textColumn 32 pair
  let asset ← textColumn 16 asset
  let requestedFiat ← amountColumn (.finite requestedFiat)
  if h : clOrdId ∈ l.rows.map Order.clOrdId then .error .database
  else
    let order : Order := {
      sessionId := some sessionId, clOrdId, txid := none, pair, asset, side, reason
      status := .pending, requestedFiat, executedVolume := none, executedPrice := none
      fee := none, cost := none, error := none, attemptedAt, createdAt := now }
    .ok ⟨l.rows ++ [order], by
      rw [List.map_append]
      exact List.Nodup.append l.unique (by simp) (by simpa [order] using h)⟩

/-- Kraken accepted the order and named it. It stays `PENDING` until its fill is read. -/
def markSent (l : Ledger) (clOrdId txid : String) : Except Exn Ledger :=
  match l.getByClOrdId clOrdId with
  | none => .ok l
  | some _ => do
      let txid ← textColumn 64 txid
      return l.modify clOrdId (fun o => { o with txid := some txid }) fun _ => rfl

def markFilled (l : Ledger) (clOrdId txid : String) (executedVolume executedPrice fee : PyDecimal)
    (cost : PyDecimal) : Except Exn Ledger :=
  match l.getByClOrdId clOrdId with
  | none => .ok l
  | some _ => do
      let txid ← textColumn 64 txid
      let executedVolume ← amountColumn executedVolume
      let executedPrice ← amountColumn executedPrice
      let fee ← amountColumn fee
      let cost ← amountColumn cost
      return l.modify clOrdId (fun o => { o with
        txid := some txid, executedVolume := some executedVolume
        executedPrice := some executedPrice, fee := some fee, cost := some cost
        status := .filled }) fun _ => rfl

/-- For a definitive refusal, with Kraken's code cut to its column, or an absence, with none. -/
def markFailed (l : Ledger) (clOrdId : String) (error : Option String) : Ledger :=
  l.modify clOrdId (fun o => { o with
    status := .failed
    error := error.map fun e => String.ofList (e.toList.take ERROR_CHARS) }) fun _ => rfl

/-- Oldest first. -/
def createdBefore (a b : Order) : Prop :=
  a.createdAt < b.createdAt ∨ (a.createdAt = b.createdAt ∧ a.clOrdId ≤ b.clOrdId)

instance : DecidableRel createdBefore := fun a b =>
  inferInstanceAs (Decidable (a.createdAt < b.createdAt ∨
    (a.createdAt = b.createdAt ∧ a.clOrdId ≤ b.clOrdId)))

/-- The attempts to resolve before this user can be evaluated. -/
def pendingOrders (l : Ledger) : List Order :=
  (l.rows.filter fun o => o.status = .pending).insertionSort createdBefore

def hasUnresolved (l : Ledger) : Bool := l.rows.any fun o => o.status = .pending

/-- The rows of one evaluation, in the order they were written. -/
def ofSession (l : Ledger) (sessionId : Nat) : List Order :=
  l.rows.filter fun o => o.sessionId = some sessionId

/-! ## What each write changes -/

/-- A client id names one row. -/
theorem eq_of_clOrdId {l : Ledger} {a b : Order} (ha : a ∈ l.rows) (hb : b ∈ l.rows)
    (h : a.clOrdId = b.clOrdId) : a = b :=
  List.inj_on_of_nodup_map l.unique ha hb h

theorem mem_of_getByClOrdId {l : Ledger} {c : String} {o : Order} (h : l.getByClOrdId c = some o) :
    o ∈ l.rows ∧ o.clOrdId = c :=
  ⟨List.mem_of_find?_eq_some h, by simpa using List.find?_some h⟩

theorem getByClOrdId_of_mem {l : Ledger} {o : Order} (h : o ∈ l.rows) :
    l.getByClOrdId o.clOrdId = some o := by
  cases hg : l.getByClOrdId o.clOrdId with
  | none =>
    have := List.find?_eq_none.mp hg o h
    simp at this
  | some o' =>
    obtain ⟨hm, hc⟩ := mem_of_getByClOrdId hg
    rw [eq_of_clOrdId hm h hc]

theorem getByClOrdId_none {l : Ledger} {c : String} (h : l.getByClOrdId c = none) :
    ∀ o ∈ l.rows, o.clOrdId ≠ c := by
  intro o ho
  simpa using List.find?_eq_none.mp h o ho

/-- A modified ledger holds the changed row of that client id, and every other row. -/
theorem mem_modify {l : Ledger} {c : String} {f : Order → Order}
    {hf : ∀ o, (f o).clOrdId = o.clOrdId} {o : Order} :
    o ∈ (l.modify c f hf).rows ↔
      (o ∈ l.rows ∧ o.clOrdId ≠ c) ∨ ∃ o' ∈ l.rows, o'.clOrdId = c ∧ o = f o' := by
  simp only [modify, List.mem_map]
  constructor
  · rintro ⟨o', ho', rfl⟩
    by_cases hc : o'.clOrdId = c
    · exact Or.inr ⟨o', ho', hc, by rw [if_pos hc]⟩
    · exact Or.inl (by rw [if_neg hc]; exact ⟨ho', hc⟩)
  · rintro (⟨ho, hc⟩ | ⟨o', ho', hc, rfl⟩)
    · exact ⟨o, ho, by rw [if_neg hc]⟩
    · exact ⟨o', ho', by rw [if_pos hc]⟩

/-- A ledger without the client id stays as it is. -/
theorem modify_of_none {l : Ledger} {c : String} {f : Order → Order}
    {hf : ∀ o, (f o).clOrdId = o.clOrdId} (h : l.getByClOrdId c = none) :
    (l.modify c f hf).rows = l.rows := by
  simp only [modify]
  conv_rhs => rw [← List.map_id l.rows]
  refine List.map_congr_left fun o ho => ?_
  rw [if_neg (getByClOrdId_none h o ho), id]

theorem getByClOrdId_modify {l : Ledger} {c : String} {f : Order → Order}
    {hf : ∀ o, (f o).clOrdId = o.clOrdId} :
    (l.modify c f hf).getByClOrdId c = (l.getByClOrdId c).map f := by
  cases hg : l.getByClOrdId c with
  | none =>
    rw [Option.map_none]
    unfold getByClOrdId
    rw [modify_of_none hg]
    exact hg
  | some o =>
    obtain ⟨hm, hc⟩ := mem_of_getByClOrdId hg
    have hin : f o ∈ (l.modify c f hf).rows := mem_modify.mpr (Or.inr ⟨o, hm, hc, rfl⟩)
    have := getByClOrdId_of_mem hin
    rwa [hf o, hc] at this

/-- Changing the last row, whose client id no other row has. -/
theorem modify_append {l l' : Ledger} {c : String} {f : Order → Order}
    {hf : ∀ o, (f o).clOrdId = o.clOrdId} {o : Order} (hl : l'.rows = l.rows ++ [o]) (hc : o.clOrdId = c)
    (hnew : ∀ r ∈ l.rows, r.clOrdId ≠ c) : (l'.modify c f hf).rows = l.rows ++ [f o] := by
  have hsame : (l.rows.map fun r => if r.clOrdId = c then f r else r) = l.rows := by
    conv_rhs => rw [← List.map_id l.rows]
    refine List.map_congr_left fun r hr => ?_
    rw [if_neg (hnew r hr), id]
  simp only [modify, hl, List.map_append, List.map_singleton, if_pos hc, hsame]

/-- `markFailed` changes the row of its client id. -/
theorem markFailed_rows (l : Ledger) (c : String) (e : Option String) :
    ∃ (f : Order → Order) (hf : ∀ o, (f o).clOrdId = o.clOrdId),
      (l.markFailed c e).rows = (l.modify c f hf).rows := ⟨_, _, rfl⟩

/-- A refusal of the order of the last row. -/
theorem markFailed_append {l l' : Ledger} {c : String} {o : Order} (hl : l'.rows = l.rows ++ [o])
    (hc : o.clOrdId = c) (hnew : ∀ r ∈ l.rows, r.clOrdId ≠ c) (e : Option String) :
    ∃ o' : Order, (l'.markFailed c e).rows = l.rows ++ [o'] ∧ o'.clOrdId = o.clOrdId ∧
      o'.sessionId = o.sessionId ∧ o'.status = .failed :=
  ⟨_, modify_append hl hc hnew, rfl, rfl, rfl⟩

/-- A new row comes last, `PENDING` and without a txid, under a client id that is new. -/
theorem recordAttempt_ok {l l' : Ledger} {now : Int} {clOrdId pair asset : String} {side : Side}
    {reason : OrderReason} {amount : Decimal} {attemptedAt : Int} {sessionId : Nat}
    (h : l.recordAttempt now clOrdId pair asset side reason amount attemptedAt sessionId = .ok l') :
    ∃ o : Order, l'.rows = l.rows ++ [o] ∧ o.clOrdId = clOrdId ∧ o.unknown ∧ o.side = side ∧
      o.attemptedAt = attemptedAt ∧ o.sessionId = some sessionId ∧
      ∀ o' ∈ l.rows, o'.clOrdId ≠ clOrdId := by
  unfold recordAttempt textColumn at h
  simp only [bind, Except.bind] at h
  split at h
  · cases h
  · rename_i c hc
    split at hc
    · injection hc with hc
      subst hc
      split at h
      · cases h
      · split at h
        · cases h
        · split at h
          · cases h
          · split at h
            · cases h
            · rename_i hnew
              injection h with h
              subst h
              exact ⟨_, rfl, rfl, ⟨rfl, rfl⟩, rfl, rfl, rfl, by simpa using hnew⟩
    · cases hc

/-- `markSent` writes the txid, where there is a row. -/
theorem markSent_ok {l l' : Ledger} {c t : String} (h : l.markSent c t = .ok l') :
    l'.rows = (l.modify c (fun o => { o with txid := some t }) fun _ => rfl).rows := by
  unfold markSent textColumn at h
  split at h
  · rename_i hn
    injection h with h
    subst h
    exact (modify_of_none hn).symm
  · simp only [bind, Except.bind] at h
    split at h
    · cases h
    · rename_i t' ht
      split at ht
      · injection ht with ht
        subst ht
        injection h with h
        rw [← h]
      · cases ht

/-- `markFilled` writes the txid and the status, where there is a row. -/
theorem markFilled_ok {l l' : Ledger} {c t : String} {v p f k : PyDecimal}
    (h : l.markFilled c t v p f k = .ok l') :
    ∃ (g : Order → Order) (hg : ∀ o, (g o).clOrdId = o.clOrdId),
      l'.rows = (l.modify c g hg).rows ∧
      ∀ o, (g o).txid = some t ∧ (g o).status = .filled ∧ (g o).sessionId = o.sessionId ∧
        (g o).attemptedAt = o.attemptedAt := by
  unfold markFilled textColumn at h
  split at h
  · rename_i hn
    injection h with h
    subst h
    exact ⟨fun o => { o with txid := some t, status := .filled }, fun _ => rfl,
      (modify_of_none hn).symm, fun _ => ⟨rfl, rfl, rfl, rfl⟩⟩
  · simp only [bind, Except.bind] at h
    split at h
    · cases h
    · rename_i t' ht
      split at ht
      · injection ht with ht
        subst ht
        split at h
        · cases h
        · split at h
          · cases h
          · split at h
            · cases h
            · split at h
              · cases h
              · injection h with h
                subst h
                exact ⟨_, _, rfl, fun _ => ⟨rfl, rfl, rfl, rfl⟩⟩
      · cases ht

theorem mem_pendingOrders {l : Ledger} {o : Order} :
    o ∈ l.pendingOrders ↔ o ∈ l.rows ∧ o.status = .pending := by
  simp [pendingOrders]

end Ledger

end Coinpilot.Core
