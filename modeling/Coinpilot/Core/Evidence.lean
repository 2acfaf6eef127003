import Coinpilot.Core.Replies

/-!
# What marks an order as failed

A row fails on explicit evidence (`Evidenced`), except where a default was read for it: a list that was
not there read as an empty one (`DefaultAbsent`), or an executed volume that was not stated read as
nothing (`UnstatedVolume`). `failed_on_evidence_iff` says that these are all the exceptions.
-/

set_option autoImplicit false

namespace Coinpilot.Core

open Coinpilot.Lib Coinpilot.Lib.Program Coinpilot.Exchange Coinpilot.Engine

/-- A finished status. -/
def FinishedEntry (entry : Json) : Prop :=
  ∃ raw, entry.get "status" = .ok raw ∧ isFinished (some (mapOrderStatus (raw.getD .null).pyStr)) = true

/-- A lookup is finished where its entry is. -/
theorem lookup_finished {txid : String} {entry : Json} {k : OrderLookup} (h : lookup txid entry = .ok k) :
    isFinished k.status = true ↔ FinishedEntry entry := by
  obtain ⟨⟨raw, hraw, hstatus⟩, -⟩ := lookup_ok h
  rw [hstatus]
  refine ⟨fun hfin => ⟨raw, hraw, hfin⟩, ?_⟩
  rintro ⟨raw', hraw', hfin⟩
  obtain rfl := Except.ok.inj (hraw.symm.trans hraw')
  exact hfin

section Answers

variable (replies : Replies) (row : Order)

/-- An entry that was returned for the order of a row. -/
inductive Returned : String → Json → Prop where
  | queried {txid : String} {entries : List (String × Json)} {entry : Json} : row.txid = some txid →
      readQueried (replies (.queryOrders txid)) = .ok (some entries) →
      entries.lookup txid = some entry → Returned txid entry
  | opened {entries : List (String × Json)} {txid : String} {entry : Json} : row.txid = none →
      readListing "open" (openReply replies row.clOrdId) = .ok (some (.obj entries)) →
      (txid, entry) ∈ entries → Echoes row.clOrdId entry → Returned txid entry
  | closed {entries : List (String × Json)} {txid : String} {entry : Json} : row.txid = none →
      AsksClosed replies row.clOrdId →
      readListing "closed" (closedReply replies row.clOrdId) = .ok (some (.obj entries)) →
      (txid, entry) ∈ entries → Echoes row.clOrdId entry → Returned txid entry

/-- The entry that decides. -/
inductive Decides : String → Json → Prop where
  | queried {txid : String} {entries : List (String × Json)} {entry : Json} : row.txid = some txid →
      readQueried (replies (.queryOrders txid)) = .ok (some entries) →
      entries.lookup txid = some entry → Decides txid entry
  | opened {entries : List (String × Json)} {txid : String} {entry : Json} : row.txid = none →
      readListing "open" (openReply replies row.clOrdId) = .ok (some (.obj entries)) →
      FirstEcho row.clOrdId entries txid entry → Decides txid entry
  | closed {entries : List (String × Json)} {txid : String} {entry : Json} : row.txid = none →
      AsksClosed replies row.clOrdId →
      readListing "closed" (closedReply replies row.clOrdId) = .ok (some (.obj entries)) →
      FirstEcho row.clOrdId entries txid entry → Decides txid entry

/-- Both endpoints answered without error, each with an explicit and empty list, and the grace has
passed for an order without a txid. -/
def ProvenAbsent (now : Int) : Prop :=
  row.txid = none ∧ ABSENCE_GRACE ≤ now - row.attemptedAt ∧ ListsNone "open" (openReply replies row.clOrdId) ∧
    ListsNone "closed" (closedReply replies row.clOrdId)

/-- What Kraken must have said for a row to be resolved so. -/
def Evidenced (now : Int) : OrderStatus → Prop
  | .pending => True
  | .filled => ∃ txid entry, Returned replies row txid entry ∧ FinishedEntry entry ∧
      States (fun p => p.gtZero = .ok true) entry
  | .failed => ProvenAbsent replies row now ∨
      ∃ txid entry, Returned replies row txid entry ∧ FinishedEntry entry ∧ States IsZero entry

/-- A list that was not there reads as an empty one. -/
def DefaultAbsent (now : Int) : Prop :=
  row.txid = none ∧ ABSENCE_GRACE ≤ now - row.attemptedAt ∧
    ((Defaulted "open" (openReply replies row.clOrdId) ∧ (Defaulted "closed" (closedReply replies row.clOrdId) ∨
        ListsNone "closed" (closedReply replies row.clOrdId))) ∨
      (ListsNone "open" (openReply replies row.clOrdId) ∧ Defaulted "closed" (closedReply replies row.clOrdId)))

/-- An entry that decides is finished and does not say that nothing was executed, and no other entry
that was returned says so. -/
def UnstatedVolume : Prop :=
  (∃ txid entry, Decides replies row txid entry ∧ FinishedEntry entry ∧ Unstated entry) ∧
    ∀ txid entry, Returned replies row txid entry → FinishedEntry entry → ¬States IsZero entry

end Answers
theorem Decides.returned {replies : Replies} {row : Order} {txid : String} {entry : Json}
    (h : Decides replies row txid entry) : Returned replies row txid entry := by
  cases h with
  | queried ht hread hentry => exact .queried ht hread hentry
  | opened ht hread hfirst => exact .opened ht hread hfirst.mem.1 hfirst.mem.2
  | closed ht hasks hread hfirst => exact .closed ht hasks hread hfirst.mem.1 hfirst.mem.2
/-! ## What a lookup gives -/

section LookedUp

variable {replies : Replies} {row : Order}

/-- An absence is found where both listings read as empty. -/
theorem lookedUp_absent {k : OrderLookup} (hk : k.txid = none) :
    lookedUp replies row = .ok (some k) ↔ k = ABSENT ∧ row.txid = none ∧
      (ListsNone "open" (openReply replies row.clOrdId) ∨ Defaulted "open" (openReply replies row.clOrdId)) ∧
      (ListsNone "closed" (closedReply replies row.clOrdId) ∨ Defaulted "closed" (closedReply replies row.clOrdId)) := by
  have hnamed : ∀ {key answer}, seenIn row.clOrdId key answer ≠ .ok (.found k) := by
    intro key answer hseen
    obtain ⟨entries, txid, entry, -, -, hl⟩ := seenIn_found.mp hseen
    rw [lookup_txid hl] at hk
    cases hk
  rw [lookedUp]
  cases ht : row.txid with
  | none =>
    dsimp only
    rw [findOrderByClOrdId_some, seenIn_notHere, seenIn_notHere]
    constructor
    · rintro (hopen | ⟨-, hclosed⟩ | ⟨rfl, hopen, hclosed⟩)
      · exact absurd hopen hnamed
      · exact absurd hclosed hnamed
      · exact ⟨rfl, rfl, hopen, hclosed⟩
    · rintro ⟨rfl, -, hopen, hclosed⟩
      exact Or.inr (Or.inr ⟨rfl, hopen, hclosed⟩)
  | some txid =>
    dsimp only
    constructor
    · intro h
      rw [findOrderByTxid, queryOrders, read_replying] at h
      cases hread : readQueried (replies (.queryOrders txid)) with
      | error e => rw [hread] at h; cases h
      | ok entries =>
        rw [hread] at h
        simp only [bind, Except.bind] at h
        cases hpick : pickQueried txid entries with
        | error e => rw [hpick] at h; cases h
        | ok found =>
          rw [hpick] at h
          obtain rfl := Except.ok.inj h
          rw [pickQueried_txid hpick] at hk
          cases hk
    · rintro ⟨-, hnone, -⟩
      cases hnone

/-- An order is found in the entry that decides. -/
theorem lookedUp_found {k : OrderLookup} (hk : k.txid ≠ none) :
    lookedUp replies row = .ok (some k) ↔
      ∃ txid entry, Decides replies row txid entry ∧ lookup txid entry = .ok k := by
  rw [lookedUp]
  cases ht : row.txid with
  | none =>
    dsimp only
    rw [findOrderByClOrdId_some, seenIn_found, seenIn_found]
    constructor
    · rintro (⟨entries, txid, entry, hread, hfirst, hl⟩ | ⟨hasks, entries, txid, entry, hread, hfirst, hl⟩ |
        ⟨rfl, -⟩)
      · exact ⟨txid, entry, .opened ht hread hfirst, hl⟩
      · exact ⟨txid, entry, .closed ht hasks hread hfirst, hl⟩
      · exact absurd rfl hk
    · rintro ⟨txid, entry, hdecides, hl⟩
      cases hdecides with
      | queried hsome =>
        rw [ht] at hsome
        cases hsome
      | opened _ hread hfirst => exact Or.inl ⟨_, txid, entry, hread, hfirst, hl⟩
      | closed _ hasks hread hfirst => exact Or.inr (Or.inl ⟨hasks, _, txid, entry, hread, hfirst, hl⟩)
  | some txid =>
    dsimp only
    rw [findOrderByTxid, queryOrders, read_replying]
    constructor
    · intro h
      cases hread : readQueried (replies (.queryOrders txid)) with
      | error e => rw [hread] at h; cases h
      | ok entries =>
        rw [hread] at h
        simp only [bind, Except.bind] at h
        cases entries with
        | none => cases h
        | some entries =>
          rw [pickQueried] at h
          cases hentry : entries.lookup txid with
          | none => rw [hentry] at h; cases h
          | some entry =>
            rw [hentry] at h
            cases hl : lookup txid entry with
            | error e =>
              simp only [hl] at h
              cases h
            | ok k' =>
              simp only [hl] at h
              obtain rfl := Option.some.inj (Except.ok.inj h)
              exact ⟨txid, entry, .queried ht hread hentry, hl⟩
    · rintro ⟨txid', entry, hdecides, hl⟩
      cases hdecides with
      | @queried _ entries _ hsome hread hentry =>
        obtain rfl := Option.some.inj (ht.symm.trans hsome)
        rw [hread]
        simp only [bind, Except.bind, pickQueried, hentry, hl]
        rfl
      | opened hnone =>
        rw [ht] at hnone
        cases hnone
      | closed hnone =>
        rw [ht] at hnone
        cases hnone

end LookedUp
/-! ## The turn of one row -/

section Turn

variable {replies : Replies} {now : Int} {row : Order} {w : World}

/-- What the lookup of a row says for it to fail. -/
def SaysFailed (replies : Replies) (now : Int) (row : Order) : Prop :=
  ∃ k, lookedUp replies row = .ok (some k) ∧
    ((k.txid = none ∧ tooSoon now row.attemptedAt (some k) = false) ∨
      (k.txid ≠ none ∧ isFinished k.status = true ∧ k.volumeExecuted.gtZero = .ok false))

/-- What the lookup of a row says for it to be filled. -/
def SaysFilled (replies : Replies) (row : Order) : Prop :=
  ∃ k, lookedUp replies row = .ok (some k) ∧ k.txid ≠ none ∧ isFinished k.status = true ∧
    k.volumeExecuted.gtZero = .ok true

/-- Settling leaves the row under its client id, with the status it returns, and no other row changes. -/
theorem settled_row {l l' : Ledger} {found : Option OrderLookup} {s : OrderStatus} {row : Order}
    (h : Settled l row.clOrdId found s l') (hrow : row ∈ l.rows) (hpending : row.status = .pending) :
    (∃ row' ∈ l'.rows, row'.clOrdId = row.clOrdId ∧ row'.status = s) ∧
      ∀ o ∈ l.rows, o.clOrdId ≠ row.clOrdId → o ∈ l'.rows := by
  obtain ⟨f, hf, hrows, hspec⟩ := h.rows
  rw [hrows]
  obtain ⟨-, -, hstatus, -, -⟩ := hspec row
  refine ⟨⟨f row, Ledger.mem_modify.mpr (Or.inr ⟨row, hrow, rfl, rfl⟩), hf row, hstatus hpending⟩, ?_⟩
  intro o ho hne
  exact Ledger.mem_modify.mpr (Or.inl ⟨ho, hne⟩)

/-- A row that has had its turn. -/
theorem turnOf_row {w' : World} (h : turnOf replies now row w = .ok w') (hrow : row ∈ w.db.ledger.rows)
    (hpending : row.status = .pending) :
    (∃ row' ∈ w'.db.ledger.rows, row'.clOrdId = row.clOrdId ∧
      (row'.status = .pending ∨ (row'.status = .failed ∧ SaysFailed replies now row) ∨
        (row'.status = .filled ∧ SaysFilled replies row))) ∧
      ∀ o ∈ w.db.ledger.rows, o.clOrdId ≠ row.clOrdId → o ∈ w'.db.ledger.rows := by
  rw [turnOf] at h
  cases hfound : lookedUp replies row with
  | error e => rw [hfound] at h; cases h
  | ok found =>
    rw [hfound] at h
    dsimp only at h
    by_cases hsoon : tooSoon now row.attemptedAt found = true
    · rw [if_pos hsoon] at h
      obtain rfl := Except.ok.inj h
      exact ⟨⟨row, hrow, rfl, Or.inl hpending⟩, fun o ho _ => ho⟩
    · rw [if_neg hsoon] at h
      cases hrun : settle w.db.ledger row.clOrdId found with
      | error e => rw [hrun] at h; cases h
      | ok settled =>
        obtain ⟨s, ledger⟩ := settled
        rw [hrun] at h
        obtain rfl := Except.ok.inj h
        have hsettled := settle_ok hrun
        obtain ⟨⟨row', hrow', hid, hstatus⟩, hothers⟩ := settled_row hsettled hrow hpending
        refine ⟨⟨row', hrow', hid, ?_⟩, hothers⟩
        rw [hstatus]
        cases hsettled with
        | unknown => exact Or.inl rfl
        | absent ht =>
          exact Or.inr (Or.inl ⟨rfl, _, hfound, Or.inl ⟨ht, by simpa using hsoon⟩⟩)
        | filled ht hfin hgt _ =>
          exact Or.inr (Or.inr ⟨rfl, _, hfound, by rw [ht]; simp, hfin, hgt⟩)
        | empty ht hfin hgt =>
          exact Or.inr (Or.inl ⟨rfl, _, hfound, Or.inr ⟨by rw [ht]; simp, hfin, hgt⟩⟩)
        | named _ _ _ => exact Or.inl rfl

/-- A row whose lookup says so fails. -/
theorem SaysFailed.turn (h : SaysFailed replies now row) (hrow : row ∈ w.db.ledger.rows)
    (hpending : row.status = .pending) :
    ∃ w', turnOf replies now row w = .ok w' ∧
      ∃ row' ∈ w'.db.ledger.rows, row'.clOrdId = row.clOrdId ∧ row'.status = .failed := by
  obtain ⟨k, hfound, hfails⟩ := h
  have hsettle : tooSoon now row.attemptedAt (some k) = false ∧
      ∃ l', settle w.db.ledger row.clOrdId (some k) = .ok (.failed, l') := by
    rcases hfails with ⟨ht, hsoon⟩ | ⟨ht, hfin, hgt⟩
    · refine ⟨hsoon, w.db.ledger.markFailed row.clOrdId none, ?_⟩
      rw [settle, ht]
    · obtain ⟨txid, htxid⟩ := Option.ne_none_iff_exists'.mp ht
      refine ⟨by simp [tooSoon, htxid], w.db.ledger.markFailed row.clOrdId
        (some ((k.status.map ExchangeOrderStatus.value).getD "" ++ " with nothing executed")), ?_⟩
      rw [settle, htxid]
      simp only [hfin, if_true, hgt]
  obtain ⟨hsoon, l', hrun⟩ := hsettle
  refine ⟨{ w with db := { w.db with ledger := l' } }, ?_, ?_⟩
  · rw [turnOf, hfound]
    simp only [hsoon, Bool.false_eq_true, if_false, hrun]
  · exact (settled_row (settle_ok hrun) hrow hpending).1

/-- What the answers are for a row to fail. -/
theorem saysFailed_iff : SaysFailed replies now row ↔
    (row.txid = none ∧ ABSENCE_GRACE ≤ now - row.attemptedAt ∧
      (ListsNone "open" (openReply replies row.clOrdId) ∨ Defaulted "open" (openReply replies row.clOrdId)) ∧
      (ListsNone "closed" (closedReply replies row.clOrdId) ∨ Defaulted "closed" (closedReply replies row.clOrdId))) ∨
    ∃ txid entry, Decides replies row txid entry ∧ FinishedEntry entry ∧
      (States IsZero entry ∨ Unstated entry) := by
  constructor
  · rintro ⟨k, hfound, ⟨ht, hsoon⟩ | ⟨ht, hfin, hgt⟩⟩
    · obtain ⟨-, hnone, hopen, hclosed⟩ := (lookedUp_absent ht).mp hfound
      refine Or.inl ⟨hnone, ?_, hopen, hclosed⟩
      simpa [tooSoon, ht] using hsoon
    · obtain ⟨txid, entry, hdecides, hl⟩ := (lookedUp_found ht).mp hfound
      obtain ⟨-, raw, hget, hvol⟩ := lookup_ok hl
      rw [hvol] at hgt
      exact Or.inr ⟨txid, entry, hdecides, (lookup_finished hl).mp hfin, (asDecimal_zero hget).mp hgt⟩
  · rintro (⟨hnone, hgrace, hopen, hclosed⟩ | ⟨txid, entry, hdecides, hfin, hvol⟩)
    · refine ⟨ABSENT, (lookedUp_absent rfl).mpr ⟨rfl, hnone, hopen, hclosed⟩, Or.inl ⟨rfl, ?_⟩⟩
      simpa [tooSoon, ABSENT] using hgrace
    · obtain ⟨k, hl⟩ : ∃ k, lookup txid entry = .ok k := by
        obtain ⟨raw, hraw, -⟩ := hfin
        cases entry with
        | obj fields => exact ⟨_, rfl⟩
        | _ => cases hraw
      obtain ⟨-, raw, hget, hread⟩ := lookup_ok hl
      have ht : k.txid ≠ none := by
        rw [lookup_txid hl]
        simp
      refine ⟨k, (lookedUp_found ht).mpr ⟨txid, entry, hdecides, hl⟩, Or.inr ⟨ht, (lookup_finished hl).mpr hfin, ?_⟩⟩
      rw [hread]
      exact (asDecimal_zero hget).mpr hvol

/-- A filled row has its evidence. -/
theorem SaysFilled.evidenced (h : SaysFilled replies row) : Evidenced replies row now .filled := by
  obtain ⟨k, hfound, ht, hfin, hgt⟩ := h
  obtain ⟨txid, entry, hdecides, hl⟩ := (lookedUp_found ht).mp hfound
  obtain ⟨-, raw, hget, hvol⟩ := lookup_ok hl
  rw [hvol] at hgt
  exact ⟨txid, entry, hdecides.returned, (lookup_finished hl).mp hfin, asDecimal_positive hget hgt⟩

/-- A listing that reads as empty returned no entry. -/
theorem entries_of_empty {key : String} {answer : HttpOutcome} {entries : List (String × Json)}
    (hempty : ListsNone key answer ∨ Defaulted key answer)
    (hread : readListing key answer = .ok (some (.obj entries))) : entries = [] := by
  obtain ⟨orders, hread', hfalsy⟩ := readListing_falsy.mpr hempty
  obtain rfl := Option.some.inj (Except.ok.inj (hread.symm.trans hread'))
  simpa [Json.truthy] using hfalsy

theorem not_returned_of_empty {txid : String} {entry : Json} (hnone : row.txid = none)
    (hopen : ListsNone "open" (openReply replies row.clOrdId) ∨ Defaulted "open" (openReply replies row.clOrdId))
    (hclosed : ListsNone "closed" (closedReply replies row.clOrdId) ∨ Defaulted "closed" (closedReply replies row.clOrdId)) :
    ¬Returned replies row txid entry := by
  intro h
  cases h with
  | queried hsome =>
    rw [hnone] at hsome
    cases hsome
  | opened _ hread hmem =>
    rw [entries_of_empty hopen hread] at hmem
    cases hmem
  | closed _ _ hread hmem =>
    rw [entries_of_empty hclosed hread] at hmem
    cases hmem

theorem DefaultAbsent.empty (h : DefaultAbsent replies row now) : row.txid = none ∧
    (ListsNone "open" (openReply replies row.clOrdId) ∨ Defaulted "open" (openReply replies row.clOrdId)) ∧
    (ListsNone "closed" (closedReply replies row.clOrdId) ∨ Defaulted "closed" (closedReply replies row.clOrdId)) := by
  obtain ⟨hnone, -, ⟨hopen, hclosed⟩ | ⟨hopen, hclosed⟩⟩ := h
  · exact ⟨hnone, Or.inr hopen, hclosed.symm⟩
  · exact ⟨hnone, Or.inl hopen, Or.inr hclosed⟩

/-- A row that fails has its evidence, unless a default was read for it. -/
theorem evidenced_failed_iff (h : SaysFailed replies now row) : Evidenced replies row now .failed ↔
    ¬(DefaultAbsent replies row now ∨ UnstatedVolume replies row) := by
  rw [not_or]
  rcases saysFailed_iff.mp h with ⟨hnone, hgrace, hopen, hclosed⟩ | ⟨txid, entry, hdecides, hfin, hvol⟩
  · -- Both listings read as empty, so the row fails as absent.
    have hno : ∀ txid entry, ¬Returned replies row txid entry :=
      fun _ _ => not_returned_of_empty hnone hopen hclosed
    constructor
    · rintro (⟨-, -, hopen', hclosed'⟩ | ⟨txid, entry, hreturned, -⟩)
      · refine ⟨?_, ?_⟩
        · rintro ⟨-, -, ⟨hdefault, -⟩ | ⟨-, hdefault⟩⟩
          · exact hopen'.not_defaulted hdefault
          · exact hclosed'.not_defaulted hdefault
        · rintro ⟨⟨txid, entry, hdecides, -⟩, -⟩
          exact hno _ _ hdecides.returned
      · exact absurd hreturned (hno _ _)
    · rintro ⟨hdefault, -⟩
      left
      rcases hopen with hopen | hopen
      · rcases hclosed with hclosed | hclosed
        · exact ⟨hnone, hgrace, hopen, hclosed⟩
        · exact absurd ⟨hnone, hgrace, Or.inr ⟨hopen, hclosed⟩⟩ hdefault
      · exact absurd ⟨hnone, hgrace, Or.inl ⟨hopen, hclosed.symm⟩⟩ hdefault
  · -- An entry decides, so neither listing reads as empty.
    constructor
    · rintro (⟨hnone, -, hopen, hclosed⟩ | ⟨txid', entry', hreturned, hfin', hzero⟩)
      · exact absurd hdecides.returned (not_returned_of_empty hnone (Or.inl hopen) (Or.inl hclosed))
      · refine ⟨?_, fun hunstated => hunstated.2 _ _ hreturned hfin' hzero⟩
        intro hdefault
        obtain ⟨hnone, hopen, hclosed⟩ := hdefault.empty
        exact not_returned_of_empty hnone hopen hclosed hreturned
    · rintro ⟨-, hunstated⟩
      right
      rcases hvol with hzero | hmissing
      · exact ⟨txid, entry, hdecides.returned, hfin, hzero⟩
      · by_contra hnone
        refine hunstated ⟨⟨txid, entry, hdecides, hfin, hmissing⟩, ?_⟩
        intro txid' entry' hreturned hfin' hzero
        exact hnone ⟨txid', entry', hreturned, hfin', hzero⟩

/-- Where a default was read for a row, it fails. -/
theorem saysFailed_of_default (h : DefaultAbsent replies row now ∨ UnstatedVolume replies row) :
    SaysFailed replies now row := by
  rw [saysFailed_iff]
  rcases h with hdefault | ⟨⟨txid, entry, hdecides, hfin, hmissing⟩, -⟩
  · obtain ⟨hnone, hopen, hclosed⟩ := hdefault.empty
    exact Or.inl ⟨hnone, hdefault.2.1, hopen, hclosed⟩
  · exact Or.inr ⟨txid, entry, hdecides, hfin, Or.inr hmissing⟩

end Turn

/-! ## All rows -/

section Rows

variable {replies : Replies} {now : Int}

/-- A row that has no turn stays as it is. -/
theorem resolved_other {rows : List Order} {w : World} {r : Resolution} {locals : Locals}
    (hrows : ∀ x ∈ rows, x ∈ w.db.ledger.rows ∧ x.status = .pending)
    (hnodup : (rows.map Order.clOrdId).Nodup) {o : Order} (ho : o ∈ w.db.ledger.rows)
    (hother : o.clOrdId ∉ rows.map Order.clOrdId) :
    o ∈ (resolved replies now w rows r locals).db.ledger.rows := by
  induction rows generalizing w r with
  | nil => exact ho
  | cons row rest ih =>
    rw [List.map_cons, List.nodup_cons] at hnodup
    rw [List.map_cons, List.mem_cons, not_or] at hother
    obtain ⟨r', hr'⟩ := resolved_cons replies now row w rest r locals
    rw [hr']
    obtain ⟨hrow, hpending⟩ := hrows row List.mem_cons_self
    cases hturn : turnOf replies now row w with
    | error e => exact ho
    | ok w' =>
      obtain ⟨-, hothers⟩ := turnOf_row hturn hrow hpending
      refine ih (fun x hx => ?_) hnodup.2 (hothers o ho hother.1) hother.2
      obtain ⟨hx', hpend⟩ := hrows x (List.mem_cons_of_mem _ hx)
      have hne : x.clOrdId ≠ row.clOrdId := fun heq => hnodup.1 (heq ▸ List.mem_map_of_mem hx)
      exact ⟨hothers x hx' hne, hpend⟩

/-- Once the rows have had their turns, each is still `PENDING`, or it is what its lookup said. -/
theorem resolved_row {rows : List Order} {w : World} {r : Resolution} {locals : Locals}
    (hrows : ∀ x ∈ rows, x ∈ w.db.ledger.rows ∧ x.status = .pending)
    (hnodup : (rows.map Order.clOrdId).Nodup) {row row' : Order} (hrow : row ∈ rows)
    (hrow' : row' ∈ (resolved replies now w rows r locals).db.ledger.rows)
    (hid : row'.clOrdId = row.clOrdId) :
    row'.status = .pending ∨ (row'.status = .failed ∧ SaysFailed replies now row) ∨
      (row'.status = .filled ∧ SaysFilled replies row) := by
  induction rows generalizing w r with
  | nil => cases hrow
  | cons o rest ih =>
    rw [List.map_cons, List.nodup_cons] at hnodup
    obtain ⟨r', hr'⟩ := resolved_cons replies now o w rest r locals
    rw [hr'] at hrow'
    obtain ⟨ho, hpending⟩ := hrows o List.mem_cons_self
    cases hturn : turnOf replies now o w with
    | error e =>
      rw [hturn] at hrow'
      obtain ⟨hmem, hpend⟩ := hrows row hrow
      obtain rfl := Ledger.eq_of_clOrdId hrow' hmem hid
      exact Or.inl hpend
    | ok w' =>
      rw [hturn] at hrow'
      obtain ⟨⟨o', ho', hid', hstatus⟩, hothers⟩ := turnOf_row hturn ho hpending
      have hrest : ∀ x ∈ rest, x ∈ w'.db.ledger.rows ∧ x.status = .pending := by
        intro x hx
        obtain ⟨hx', hpend⟩ := hrows x (List.mem_cons_of_mem _ hx)
        have hne : x.clOrdId ≠ o.clOrdId := fun heq => hnodup.1 (heq ▸ List.mem_map_of_mem hx)
        exact ⟨hothers x hx' hne, hpend⟩
      rcases List.mem_cons.mp hrow with rfl | hrow
      · -- The others leave the row as its turn left it.
        have hkept : o' ∈ (resolved replies now w' rest r' locals).db.ledger.rows :=
          resolved_other hrest hnodup.2 ho' (hid' ▸ hnodup.1)
        obtain rfl := Ledger.eq_of_clOrdId hrow' hkept (hid.trans hid'.symm)
        exact hstatus
      · exact ih hrest hnodup.2 hrow hrow'
theorem pendingOrders_nodup (l : Ledger) : (l.pendingOrders.map Order.clOrdId).Nodup := by
  have hsorted := (List.perm_insertionSort Ledger.createdBefore
    (l.rows.filter fun o : Order => o.status = .pending)).map Order.clOrdId
  exact hsorted.nodup_iff.mpr (l.unique.sublist (List.filter_sublist.map _))

/-- Where a default was read for a row, it fails without evidence. -/
theorem failed_on_default {row : Order} {w : World} (hrow : row ∈ w.db.ledger.rows)
    (hpending : row.status = .pending) (r : Resolution) (locals : Locals)
    (hdefault : DefaultAbsent replies row now ∨ UnstatedVolume replies row) :
    ∃ row' ∈ (resolved replies now w [row] r locals).db.ledger.rows, row'.clOrdId = row.clOrdId ∧
      row'.status = .failed ∧ ¬Evidenced replies row now row'.status := by
  have hsays := saysFailed_of_default hdefault
  obtain ⟨w', hturn, row', hrow', hid, hstatus⟩ := hsays.turn hrow hpending
  obtain ⟨r', hr'⟩ := resolved_cons replies now row w [] r locals
  rw [hturn] at hr'
  refine ⟨row', by rw [hr']; exact hrow', hid, hstatus, ?_⟩
  rw [hstatus]
  exact fun hevidenced => (evidenced_failed_iff hsays).mp hevidenced hdefault

end Rows

/-! ## One order whose answer was lost -/

/-- A row whose `AddOrder` was never answered. -/
def lostOrder : Order where
  sessionId := some 1
  clOrdId := "6d1b345e2ab14d0f9a5cf0d0cf0e1c11"
  txid := none
  pair := "XXBTZEUR"
  asset := "XBT"
  side := .buy
  reason := .invest
  status := .pending
  requestedFiat := .finite ⟨100, 0⟩
  executedVolume := none
  executedPrice := none
  fee := none
  cost := none
  error := none
  attemptedAt := 0
  createdAt := 0

/-- The ledger of that row alone. -/
def lostWorld : World where
  db := {
    settings := none, credentials := none, assets := [], ledger := ⟨[lostOrder], by simp⟩
    proposal := none, sessions := [], snapshots := [] }
  lock := none
  clock := 0
  remote := []

/-- Every call answered by one body. -/
def always (body : List (String × Json)) : Replies := fun _ => .answered (.obj body)

/-- Both endpoints list nothing, explicitly. -/
def emptyListings : Replies :=
  always [("error", .arr []), ("result", .obj [("open", .obj []), ("closed", .obj [])])]

end Coinpilot.Core
