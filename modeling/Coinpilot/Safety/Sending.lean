import Coinpilot.Safety.Resolving

/-!
# Sending under the lock

What holds between two orders of one evaluation (`Sending`): the results so far are those of the rows of
its session, every row still pending was accepted in this call or its answer was lost, and that only
in the last row, after which nothing is sent. `Attempted` is what one more order adds. The status at the
end agrees with the rows unless an accepted order's fill was not read (`Sending.agrees`).
-/

set_option autoImplicit false

namespace Coinpilot.Safety

open Coinpilot.Lib Coinpilot.Lib.Program Coinpilot.Exchange Coinpilot.Engine Coinpilot.Core

/-! ## Between two orders -/

/-- The statuses of the legs that were sent. -/
def sentStatuses (legs : List LegResult) : List LegStatus :=
  (legs.map LegResult.status).filter (· ≠ .skipped)

/-- What holds between two orders. -/
structure Sending (id : Nat) (stopped : Bool) (legs : List LegResult) (l : Ledger)
    (xs : List Exchanged) : Prop where
  mirror : sentStatuses legs = (l.ofSession id).map fun row => LegStatus.ofOrder row.status
  ours : ∀ row ∈ l.rows, row.status = .pending → ∀ t, row.txid = some t → Sent xs row.clOrdId t
  lost : stopped = true ↔ ∃ x ∈ xs, Lost x
  last : stopped = true → ∃ row, (l.ofSession id).getLast? = some row ∧ row.unknown
  go : stopped = false → ∀ row ∈ l.rows, ¬row.unknown
  read : stopped = false → ((∀ row ∈ l.ofSession id, row.status ≠ .pending) ↔ AllRead none xs)

theorem ofSession_empty {id : Nat} {l : Ledger} (h : ∀ row ∈ l.rows, row.sessionId ≠ some id) :
    l.ofSession id = [] := by
  unfold Ledger.ofSession
  rw [List.filter_eq_nil_iff]
  intro row hrow
  simpa using h row hrow

theorem not_lost_of_not_places {xs : List Exchanged} (h : ¬Places xs) : ¬∃ x ∈ xs, Lost x := by
  rintro ⟨x, hx, hc, -⟩
  exact h ⟨x, hx, hc⟩

/-- Before the first order, once resolving is clear. -/
theorem Sending.start {id : Nat} {l : Ledger} {xs : List Exchanged} (h : Resolving id [] true l)
    (hxs : ¬Places xs) : Sending id false [] l xs where
  mirror := by
    rw [ofSession_empty h.session]
    rfl
  ours row hrow hp := absurd (h.others rfl row hrow hp) List.not_mem_nil
  lost := by
    refine ⟨nofun, fun hl => ?_⟩
    exact absurd hl (not_lost_of_not_places hxs)
  last := nofun
  go _ row hrow hu := absurd (h.others rfl row hrow hu.1) List.not_mem_nil
  read _ := by
    refine ⟨fun _ => allRead_of_not_places hxs none, fun _ row hrow => ?_⟩
    rw [ofSession_empty h.session] at hrow
    cases hrow

/-- A leg that is skipped. -/
theorem Sending.skip {id : Nat} {stopped : Bool} {legs : List LegResult} {l : Ledger}
    {xs : List Exchanged} (h : Sending id stopped legs l xs) {r : LegResult} (hr : r.status = .skipped) :
    Sending id stopped (legs ++ [r]) l xs where
  mirror := by
    rw [← h.mirror]
    simp [sentStatuses, hr]
  ours := h.ours
  lost := h.lost
  last := h.last
  go := h.go
  read := h.read

/-! ## One order -/

/-- What became of the row of an order, from the exchange `x` that placed it, and the exchanges
after. -/
inductive Became (row : Order) (x : Exchanged) (xs : List Exchanged) : List Exchanged → Prop where
  | refused : row.status = .failed → ¬Lost x → (∀ c t, ¬AcceptedAs x c t) → Became row x xs (x :: xs)
  | lost : row.unknown → Lost x → Became row x xs (x :: xs)
  | read {t : String} {y : Exchanged} : AcceptedAs x row.clOrdId t → FillRead t y →
      row.status ≠ .pending → Became row x xs (y :: x :: xs)
  | unread {t : String} {y : Exchanged} : AcceptedAs x row.clOrdId t → y.1.creates = none →
      ¬FillRead t y → row.status = .pending → row.txid = some t → Became row x xs (y :: x :: xs)

/-- One order of the evaluation, its row and its result. -/
def Attempted (id : Nat) (l : Ledger) (xs : List Exchanged) (result : LegResult) (l' : Ledger)
    (xs' : List Exchanged) : Prop :=
  ∃ (row : Order) (x : Exchanged), l'.rows = l.rows ++ [row] ∧ row.sessionId = some id ∧
    result.status = LegStatus.ofOrder row.status ∧ result.txid = row.txid ∧
    x.1.creates = some row.clOrdId ∧ Became row x xs xs'

theorem not_lost_of_accepted {x : Exchanged} {c t : String} (h : AcceptedAs x c t) : ¬Lost x := by
  rintro ⟨-, hlost⟩
  rw [h.2] at hlost
  cases hlost

theorem not_accepted_of_lost {x : Exchanged} (h : Lost x) (c t : String) : ¬AcceptedAs x c t :=
  fun ha => not_lost_of_accepted ha h

theorem Sent.cons {xs : List Exchanged} {c t : String} (h : Sent xs c t) (x : Exchanged) :
    Sent (x :: xs) c t := by
  obtain ⟨y, hy, ha⟩ := h
  exact ⟨y, List.mem_cons_of_mem _ hy, ha⟩

theorem ofOrder_ne_skipped (s : OrderStatus) : LegStatus.ofOrder s ≠ .skipped := by
  cases s <;> decide

theorem ofOrder_pending {s : OrderStatus} : LegStatus.ofOrder s = .pending ↔ s = .pending := by
  cases s <;> decide

/-- What an order adds to the exchanges. -/
theorem Became.facts {row : Order} {x : Exchanged} {xs xs' : List Exchanged} (h : Became row x xs xs')
    (hx : x.1.creates = some row.clOrdId) (hnone : ¬∃ y ∈ xs, Lost y) :
    (∀ c t, Sent xs c t → Sent xs' c t) ∧
      (row.status = .pending → ∀ t, row.txid = some t → Sent xs' row.clOrdId t) ∧
      (row.unknown ↔ ∃ y ∈ xs', Lost y) ∧
      (¬row.unknown → (AllRead none xs' ↔ row.status ≠ .pending ∧ AllRead none xs)) := by
  have hc : x.1.creates.isSome = true := by
    rw [hx]
    rfl
  have hcons : (∃ y ∈ x :: xs, Lost y) ↔ Lost x := by
    constructor
    · rintro ⟨y, hy, hl⟩
      rcases List.mem_cons.mp hy with rfl | hy
      · exact hl
      · exact absurd ⟨y, hy, hl⟩ hnone
    · intro hl
      exact ⟨x, List.mem_cons_self, hl⟩
  have hcons₂ : ∀ y : Exchanged, y.1.creates = none →
      ((∃ z ∈ y :: x :: xs, Lost z) ↔ Lost x) := by
    intro y hy
    rw [← hcons]
    constructor
    · rintro ⟨z, hz, hl⟩
      rcases List.mem_cons.mp hz with rfl | hz
      · have hplaced := hl.1
        rw [hy] at hplaced
        cases hplaced
      · exact ⟨z, hz, hl⟩
    · rintro ⟨z, hz, hl⟩
      exact ⟨z, List.mem_cons_of_mem _ hz, hl⟩
  cases h with
  | refused hfailed hlost hacc =>
    refine ⟨fun c t hs => hs.cons x, ?_, ?_, fun _ => ?_⟩
    · intro hp
      rw [hfailed] at hp
      cases hp
    · rw [hcons]
      refine ⟨?_, fun hl => absurd hl hlost⟩
      rintro ⟨hp, -⟩
      rw [hfailed] at hp
      cases hp
    · rw [allRead_cons_unaccepted hc hacc, and_iff_right]
      rw [hfailed]
      decide
  | lost hu hlost =>
    refine ⟨fun c t hs => hs.cons x, ?_, ?_, fun hn => absurd hu hn⟩
    · intro _ t ht
      rw [hu.2] at ht
      cases ht
    · rw [hcons]
      exact iff_of_true hu hlost
  | @read t y hacc hread hdone =>
    have hy : y.1.creates = none := by
      rw [hread.1]
      rfl
    refine ⟨fun c t hs => (hs.cons x).cons y, fun hp => absurd hp hdone, ?_, fun _ => ?_⟩
    · rw [hcons₂ y hy]
      exact iff_of_false (fun hu => hdone hu.1) (not_lost_of_accepted hacc)
    · rw [allRead_cons_accepted hacc hy, and_iff_right hread, and_iff_right hdone]
  | @unread t y hacc hy hunread hp ht =>
    refine ⟨fun c t hs => (hs.cons x).cons y, ?_, ?_, fun _ => ?_⟩
    · intro _ t' ht'
      rw [ht] at ht'
      obtain rfl := Option.some.inj ht'
      exact ⟨x, List.mem_cons_of_mem _ List.mem_cons_self, hacc⟩
    · rw [hcons₂ y hy]
      refine iff_of_false ?_ (not_lost_of_accepted hacc)
      rintro ⟨-, hn⟩
      rw [ht] at hn
      cases hn
    · rw [allRead_cons_accepted hacc hy]
      exact iff_of_false (fun h => hunread h.1) fun h => h.1 hp

/-- One more order. -/
theorem Sending.attempt {id : Nat} {legs : List LegResult} {l l' : Ledger} {xs xs' : List Exchanged}
    {result : LegResult} (h : Sending id false legs l xs) (ha : Attempted id l xs result l' xs') :
    Sending id (result.status = .pending && result.txid = none) (legs ++ [result]) l' xs' := by
  obtain ⟨row, x, hrows, hsession, hstatus, htxid, hx, hb⟩ := ha
  have hnone : ¬∃ y ∈ xs, Lost y := fun hl => by cases h.lost.mpr hl
  obtain ⟨hsent, hmine, hlost, hread⟩ := hb.facts hx hnone
  have hof : l'.ofSession id = l.ofSession id ++ [row] := by
    simp [Ledger.ofSession, hrows, hsession]
  have hstop : (result.status = .pending && result.txid = none) = true ↔ row.unknown := by
    rw [Bool.and_eq_true, decide_eq_true_eq, decide_eq_true_eq, hstatus, ofOrder_pending, htxid]
    exact Iff.rfl
  have hgo : (result.status = .pending && result.txid = none) = false → ¬row.unknown := by
    intro hf hu
    rw [hstop.mpr hu] at hf
    cases hf
  refine ⟨?_, ?_, hstop.trans hlost, ?_, ?_, ?_⟩
  · have hkeep : result.status ≠ .skipped := by
      rw [hstatus]
      exact ofOrder_ne_skipped _
    rw [hof, List.map_append, ← h.mirror, List.map_singleton, ← hstatus]
    simp [sentStatuses, hkeep]
  · intro r hr hp t ht
    rw [hrows] at hr
    rcases List.mem_append.mp hr with hr | hr
    · exact hsent _ _ (h.ours r hr hp t ht)
    · rw [List.mem_singleton] at hr
      subst hr
      exact hmine hp t ht
  · intro hs
    refine ⟨row, ?_, hstop.mp hs⟩
    rw [hof]
    simp
  · intro hf r hr
    rw [hrows] at hr
    rcases List.mem_append.mp hr with hr | hr
    · exact h.go rfl r hr
    · rw [List.mem_singleton] at hr
      subst hr
      exact hgo hf
  · intro hf
    rw [hread (hgo hf), hof, ← h.read rfl]
    constructor
    · intro hall
      refine ⟨hall row (by simp), fun r hr => hall r (List.mem_append_left _ hr)⟩
    · rintro ⟨hrow, hall⟩ r hr
      rcases List.mem_append.mp hr with hr | hr
      · exact hall r hr
      · rw [List.mem_singleton] at hr
        subst hr
        exact hrow

/-! ## The status -/

theorem any_status {legs : List LegResult} {s : LegStatus} (hs : s ≠ .skipped) :
    (legs.any fun leg => leg.status = s) = true ↔ s ∈ sentStatuses legs := by
  simp only [List.any_eq_true, decide_eq_true_eq, sentStatuses, List.mem_filter, List.mem_map]
  constructor
  · rintro ⟨leg, hleg, rfl⟩
    exact ⟨⟨leg, hleg, rfl⟩, by simpa using hs⟩
  · rintro ⟨⟨leg, hleg, rfl⟩, -⟩
    exact ⟨leg, hleg, rfl⟩

theorem any_sent {legs : List LegResult} :
    (legs.any fun leg => leg.status ≠ .skipped) = true ↔ sentStatuses legs ≠ [] := by
  rw [ne_eq, sentStatuses, List.filter_eq_nil_iff]
  simp

theorem statusOf_ne_error (stopped : Bool) (legs : List LegResult) : statusOf stopped legs ≠ .error := by
  unfold statusOf
  split
  · decide
  · split
    · decide
    · split <;> decide

/-- An evaluation without rows: what its status may be. -/
theorem agrees_nil {status : EvaluationStatus} (hs : status ≠ .stopped) (hp : status ≠ .partly)
    (hd : status ≠ .done) : Agrees status [] := by
  refine ⟨?_, ?_, ?_, fun _ _ _ => rfl⟩
  · exact iff_of_false hs (by rintro ⟨row, hrow, -⟩; cases hrow)
  · exact iff_of_false hp (by rintro ⟨-, -, row, hrow, -⟩; cases hrow)
  · exact iff_of_false hd (fun h => h.1 rfl)

/-- The status of an evaluation that sent its plan agrees with its rows exactly when an answer was lost,
or every fill was read. -/
theorem Sending.agrees {id : Nat} {stopped : Bool} {legs : List LegResult} {l : Ledger}
    {xs : List Exchanged} (h : Sending id stopped legs l xs) :
    Agrees (statusOf stopped legs) (l.ofSession id) ↔ (∃ x ∈ xs, Lost x) ∨ AllRead none xs := by
  cases stopped with
  | true =>
    obtain ⟨row, hlast, hu⟩ := h.last rfl
    have hmem : row ∈ l.ofSession id := List.mem_of_getLast? hlast
    rw [show statusOf true legs = .stopped from rfl]
    refine iff_of_true ⟨?_, ?_, ?_, ?_⟩ (Or.inl (h.lost.mp rfl))
    · exact iff_of_true rfl ⟨row, hlast, hu⟩
    · exact iff_of_false (by decide) fun hp => hp.1 rfl
    · refine iff_of_false (by decide) ?_
      rintro ⟨-, hall⟩
      have hfilled := hall row hmem
      rw [hu.1] at hfilled
      cases hfilled
    · intro hs
      exact absurd rfl hs
  | false =>
    have hnone : ¬∃ x ∈ xs, Lost x := fun hl => by cases h.lost.mpr hl
    have hlast : ¬∃ row, (l.ofSession id).getLast? = some row ∧ row.unknown := by
      rintro ⟨row, hrow, hu⟩
      exact h.go rfl row (List.mem_of_mem_filter (List.mem_of_getLast? hrow)) hu
    rw [or_iff_right hnone, ← h.read rfl]
    have hfailed : (legs.any fun leg => leg.status = .failed) = true ↔
        ∃ row ∈ l.ofSession id, row.status = .failed := by
      rw [any_status (by decide), h.mirror, List.mem_map]
      refine exists_congr fun row => and_congr_right fun _ => ?_
      cases row.status <;> decide
    have hsent : (legs.any fun leg => leg.status ≠ .skipped) = true ↔ l.ofSession id ≠ [] := by
      rw [any_sent, h.mirror, ne_eq, List.map_eq_nil_iff]
    unfold statusOf
    rw [if_neg (by decide)]
    by_cases hf : ∃ row ∈ l.ofSession id, row.status = .failed
    · -- Some row failed.
      rw [if_pos (hfailed.mpr hf)]
      obtain ⟨row, hrow, hrf⟩ := hf
      constructor
      · rintro ⟨-, hpartly, -⟩ r hr hp
        rcases (hpartly.mp rfl).2.1 r hr with hs | hs
        · rw [hs] at hp
          cases hp
        · rw [hs] at hp
          cases hp
      · intro hall
        refine ⟨iff_of_false (by decide) hlast, ?_, ?_, fun _ hp => absurd rfl hp⟩
        · refine iff_of_true rfl ⟨by decide, fun r hr => ?_, row, hrow, hrf⟩
          have hr' := hall r hr
          cases hs : r.status with
          | pending => exact absurd hs hr'
          | filled => exact Or.inl rfl
          | failed => exact Or.inr rfl
        · refine iff_of_false (by decide) ?_
          rintro ⟨-, hfilled⟩
          rw [hfilled row hrow] at hrf
          cases hrf
    · rw [if_neg (fun h => hf (hfailed.mp h))]
      by_cases hempty : l.ofSession id = []
      · -- Nothing was sent.
        rw [if_neg (fun h => hsent.mp h hempty), hempty]
        refine iff_of_true (agrees_nil (by decide) (by decide) (by decide)) ?_
        intro row hrow
        cases hrow
      · -- Something was sent, and no row failed.
        rw [if_pos (hsent.mpr hempty)]
        constructor
        · rintro ⟨-, -, hdone, -⟩ r hr hp
          rw [(hdone.mp rfl).2 r hr] at hp
          cases hp
        · intro hall
          refine ⟨iff_of_false (by decide) hlast, iff_of_false (by decide) (fun hp => hf hp.2.2), ?_,
            fun _ _ hd => absurd rfl hd⟩
          refine iff_of_true rfl ⟨hempty, fun r hr => ?_⟩
          have hr' := hall r hr
          cases hs : r.status with
          | pending => exact absurd hs hr'
          | filled => rfl
          | failed => exact absurd ⟨r, hr, hs⟩ hf

end Coinpilot.Safety
