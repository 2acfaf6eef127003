import Coinpilot.Core.Evidence
import Coinpilot.Exchange.Remote

/-!
# What resolving decides

`Evidence` says that nothing is decided without evidence. Here Kraken's answers describe the orders of
the rows that are `PENDING` (`Describes`), and resolving them decides every row as its order stands
(`resolve_pending_decides`): none is skipped, none raises, and the account is clear exactly when no
order is left that may still fill.
-/

set_option autoImplicit false

namespace Coinpilot.Core

open Coinpilot.Lib Coinpilot.Lib.Program Coinpilot.Exchange Coinpilot.Engine

/-! ## What the answers describe -/

/-- A number that its column takes. -/
def Storable (p : PyDecimal) : Prop := ∃ q, amountColumn p = .ok q

/-- A lookup that says of its order whether it is closed and what it executed, in numbers that their
columns take. -/
structure Accurate (o : RemoteOrder) (k : OrderLookup) : Prop where
  finished : isFinished k.status = o.phase.isClosed
  executed : ∃ d, k.volumeExecuted = .finite d ∧ d.value = (o.phase.executed : Rat)
  volume : Storable k.volumeExecuted
  price : Storable k.price
  fee : Storable k.fee
  cost : Storable k.cost

/-- An entry of an order that is read so. -/
def Exact (o : RemoteOrder) (entry : Json) : Prop := ∃ k, lookup o.txid entry = .ok k ∧ Accurate o k

/-- A listing of the orders of one client id that are `here`, and of no others. -/
structure Lists (K : List RemoteOrder) (here : Phase → Bool) (key clOrdId : String)
    (answer : HttpOutcome) (entries : List (String × Json)) : Prop where
  reads : readListing key answer = .ok (some (.obj entries))
  echoed : ∀ e ∈ entries, e.2.get "cl_ord_id" = .ok (some (.str clOrdId))
  ours : ∀ e ∈ entries, ∃ o ∈ K, o.clOrdId = clOrdId ∧ here o.phase = true ∧ o.txid = e.1 ∧ Exact o e.2
  complete : ∀ o ∈ K, o.clOrdId = clOrdId → here o.phase = true → ∃ e ∈ entries, o.txid = e.1

/-- The answers say where the order of a row is. -/
inductive Describes (K : List RemoteOrder) (replies : Replies) (row : Order) : Prop where
  | named {o : RemoteOrder} {entries : List (String × Json)} {entry : Json} :
      row.txid = some o.txid → o ∈ K → o.clOrdId = row.clOrdId → o.phase ≠ .gone →
      readQueried (replies (.queryOrders o.txid)) = .ok (some entries) →
      entries.lookup o.txid = some entry → Exact o entry → Describes K replies row
  | unnamed {opened closed : List (String × Json)} : row.txid = none →
      Lists K Phase.isListed "open" row.clOrdId (openReply replies row.clOrdId) opened →
      Lists K Phase.isClosed "closed" row.clOrdId (closedReply replies row.clOrdId) closed →
      Describes K replies row

/-- The orders at Kraken as the ledger has them: one for each client id, attempted when the row says,
under a txid its column takes, and listed once the grace has passed. -/
structure Known (now : Int) (K : List RemoteOrder) (rows : List Order) : Prop where
  distinct : (K.map RemoteOrder.clOrdId).Nodup
  attempted : ∀ row ∈ rows, ∀ o ∈ K, o.clOrdId = row.clOrdId → o.attemptedAt = row.attemptedAt
  short : ∀ o ∈ K, o.txid.length ≤ 64
  timely : Timely ABSENCE_GRACE now K

/-! ## What becomes of a row -/

/-- Where the order of a row is. An order that is not at Kraken is gone. -/
def standing (K : List RemoteOrder) (row : Order) : Phase :=
  match K.find? fun o => o.clOrdId = row.clOrdId with
  | some o => o.phase
  | none => .gone

/-- What a row becomes when its order is there. -/
def outcome (now : Int) (row : Order) : Phase → OrderStatus
  | .closed executed => if 0 < executed then .filled else .failed
  | .gone => if now - row.attemptedAt < ABSENCE_GRACE then .pending else .failed
  | .travelling => .pending
  | .accepted _ => .pending
  | .listed _ => .pending

/-- A row and what it became: the outcome of where its order is, with the volume that was executed. -/
structure CameTo (now : Int) (K : List RemoteOrder) (row row' : Order) : Prop where
  clOrdId : row'.clOrdId = row.clOrdId
  status : row'.status = outcome now row (standing K row)
  executed : row'.status = .filled → ∃ d q, d.value = ((standing K row).executed : Rat) ∧
    amountColumn (.finite d) = .ok q ∧ row'.executedVolume = some q

section Standing

variable {now : Int} {K : List RemoteOrder} {rows : List Order} {row : Order}

/-- The order of a row. -/
theorem standing_of_mem (hdistinct : (K.map RemoteOrder.clOrdId).Nodup) {o : RemoteOrder} (ho : o ∈ K)
    (hid : o.clOrdId = row.clOrdId) : standing K row = o.phase := by
  rw [standing]
  cases hfind : K.find? fun o => o.clOrdId = row.clOrdId with
  | none =>
    have hno := List.find?_eq_none.mp hfind o ho
    simp [hid] at hno
  | some o' =>
    have ho' := List.mem_of_find?_eq_some hfind
    have hid' : o'.clOrdId = row.clOrdId := by simpa using List.find?_some hfind
    rw [List.inj_on_of_nodup_map hdistinct ho' ho (hid'.trans hid.symm)]

theorem standing_of_none (hnone : ∀ o ∈ K, o.clOrdId ≠ row.clOrdId) : standing K row = .gone := by
  rw [standing]
  cases hfind : K.find? fun o => o.clOrdId = row.clOrdId with
  | none => rfl
  | some o =>
    have hid : o.clOrdId = row.clOrdId := by simpa using List.find?_some hfind
    exact absurd hid (hnone o (List.mem_of_find?_eq_some hfind))

/-- An order that is neither open nor closed leaves its row `PENDING` within the grace, and fails it
later. -/
theorem outcome_of_unlisted (hknown : Known now K rows) (hrow : row ∈ rows)
    (hopen : ∀ o ∈ K, o.clOrdId = row.clOrdId → o.phase.isListed = false)
    (hclosed : ∀ o ∈ K, o.clOrdId = row.clOrdId → o.phase.isClosed = false) :
    outcome now row (standing K row) =
      if now - row.attemptedAt < ABSENCE_GRACE then .pending else .failed := by
  by_cases hsome : ∃ o ∈ K, o.clOrdId = row.clOrdId
  · obtain ⟨o, ho, hid⟩ := hsome
    rw [standing_of_mem hknown.distinct ho hid]
    have hin : o.phase.inFlight = true → now - row.attemptedAt < ABSENCE_GRACE := by
      intro hflight
      have htimely := hknown.timely o ho hflight
      rw [hknown.attempted row hrow o ho hid] at htimely
      omega
    have hl := hopen o ho hid
    have hc := hclosed o ho hid
    cases hphase : o.phase with
    | travelling => rw [if_pos (hin (by rw [hphase]; rfl)), outcome]
    | accepted v => rw [if_pos (hin (by rw [hphase]; rfl)), outcome]
    | gone => rw [outcome]
    | listed v =>
      rw [hphase] at hl
      cases hl
    | closed v =>
      rw [hphase] at hc
      cases hc
  · push Not at hsome
    rw [standing_of_none hsome, outcome]

end Standing

/-! ## What the lookup of a row gives -/

section LookedUp

variable {now : Int} {K : List RemoteOrder} {replies : Replies} {row : Order}

/-- A listing that shows an order of the row is read as that order. -/
theorem Lists.seen {here : Phase → Bool} {key clOrdId : String} {answer : HttpOutcome}
    {entries : List (String × Json)} (h : Lists K here key clOrdId answer entries)
    (hsome : ∃ o ∈ K, o.clOrdId = clOrdId ∧ here o.phase = true) :
    ∃ o ∈ K, o.clOrdId = clOrdId ∧ here o.phase = true ∧ ∃ k, k.txid = some o.txid ∧ Accurate o k ∧
      seenIn clOrdId key answer = .ok (.found k) := by
  obtain ⟨o, ho, hid, hhere⟩ := hsome
  obtain ⟨e, he, -⟩ := h.complete o ho hid hhere
  cases entries with
  | nil => cases he
  | cons first rest =>
    obtain ⟨o', ho', hid', hhere', htxid, k, hlookup, hk⟩ := h.ours first List.mem_cons_self
    refine ⟨o', ho', hid', hhere', k, lookup_txid hlookup, hk, ?_⟩
    refine seenIn_found.mpr ⟨_, first.1, first.2, h.reads, ?_, by rw [← htxid]; exact hlookup⟩
    exact .here ⟨_, h.echoed first List.mem_cons_self, by simp [echoes]⟩

/-- A listing that shows none is read as an absence. -/
theorem Lists.unseen {here : Phase → Bool} {key clOrdId : String} {answer : HttpOutcome}
    {entries : List (String × Json)} (h : Lists K here key clOrdId answer entries)
    (hnone : ∀ o ∈ K, o.clOrdId = clOrdId → here o.phase = false) :
    seenIn clOrdId key answer = .ok .notHere := by
  cases entries with
  | nil => exact seenIn_ok.mpr ⟨_, h.reads, sight_notHere.mpr ⟨_, rfl, rfl⟩⟩
  | cons e rest =>
    obtain ⟨o, ho, hid, hhere, -⟩ := h.ours e List.mem_cons_self
    rw [hnone o ho hid] at hhere
    cases hhere

/-- Where the order of a row is, as its lookup says. -/
inductive Sighted (K : List RemoteOrder) (row : Order) : OrderLookup → Prop where
  | order {o : RemoteOrder} {k : OrderLookup} : o ∈ K → o.clOrdId = row.clOrdId → o.phase ≠ .gone →
      k.txid = some o.txid → Accurate o k → Sighted K row k
  | nowhere : (∀ o ∈ K, o.clOrdId = row.clOrdId → o.phase.isListed = false) →
      (∀ o ∈ K, o.clOrdId = row.clOrdId → o.phase.isClosed = false) → Sighted K row ABSENT

/-- A listed order is not gone. -/
theorem ne_gone_of_isListed {p : Phase} (h : p.isListed = true) : p ≠ .gone := by
  rintro rfl
  cases h

theorem ne_gone_of_isClosed {p : Phase} (h : p.isClosed = true) : p ≠ .gone := by
  rintro rfl
  cases h

/-- The lookup of a row that is described says where its order is. -/
theorem lookedUp_described (hdescribed : Describes K replies row) :
    ∃ k, lookedUp replies row = .ok (some k) ∧ Sighted K row k := by
  cases hdescribed with
  | @named o entries entry ht ho hid hne hread hentry hexact =>
    obtain ⟨k, hlookup, hk⟩ := hexact
    have htxid : k.txid = some o.txid := lookup_txid hlookup
    have hdecides : Decides replies row o.txid entry := .queried ht hread hentry
    exact ⟨k, (lookedUp_found (by simp [htxid])).mpr ⟨o.txid, entry, hdecides, hlookup⟩,
      .order ho hid hne htxid hk⟩
  | unnamed ht hopen hclosed =>
    have hlooked : ∀ {k}, findOrderByClOrdId (replying replies) row.clOrdId = .ok (some k) →
        lookedUp replies row = .ok (some k) := by
      intro k hk
      rw [lookedUp, ht]
      exact hk
    by_cases hlisted : ∃ o ∈ K, o.clOrdId = row.clOrdId ∧ o.phase.isListed = true
    · obtain ⟨o, ho, hid, hl, k, htxid, hk, hseen⟩ := hopen.seen hlisted
      exact ⟨k, hlooked (findOrderByClOrdId_some.mpr (Or.inl hseen)),
        .order ho hid (ne_gone_of_isListed hl) htxid hk⟩
    · have hnone : ∀ o ∈ K, o.clOrdId = row.clOrdId → o.phase.isListed = false := by
        intro o ho hid
        by_contra hl
        exact hlisted ⟨o, ho, hid, by simpa using hl⟩
      have hunseen := hopen.unseen hnone
      by_cases hover : ∃ o ∈ K, o.clOrdId = row.clOrdId ∧ o.phase.isClosed = true
      · obtain ⟨o, ho, hid, hc, k, htxid, hk, hseen⟩ := hclosed.seen hover
        refine ⟨k, hlooked (findOrderByClOrdId_some.mpr (Or.inr (Or.inl ⟨?_, hseen⟩))),
          .order ho hid (ne_gone_of_isClosed hc) htxid hk⟩
        exact asksClosed_iff.mpr ⟨_, hunseen, by simp⟩
      · have hnone' : ∀ o ∈ K, o.clOrdId = row.clOrdId → o.phase.isClosed = false := by
          intro o ho hid
          by_contra hc
          exact hover ⟨o, ho, hid, by simpa using hc⟩
        exact ⟨ABSENT, hlooked (findOrderByClOrdId_some.mpr (Or.inr (Or.inr
          ⟨rfl, hunseen, hclosed.unseen hnone'⟩))), .nowhere hnone hnone'⟩

end LookedUp

/-! ## What settling writes -/

section Settling

variable {now : Int} {K : List RemoteOrder} {l : Ledger} {row : Order}

theorem textColumn_of_le {n : Nat} {s : String} (h : s.length ≤ n) : textColumn n s = .ok s := by
  rw [textColumn, if_pos h]

/-- An order that was closed executed something or nothing. -/
theorem eq_closed {p : Phase} (h : p.isClosed = true) : ∃ v, p = .closed v := by
  cases p with
  | closed v => exact ⟨v, rfl⟩
  | _ => cases h

/-- An order that is neither gone nor closed leaves its row `PENDING`. -/
theorem outcome_of_open {p : Phase} (hne : p ≠ .gone) (hc : p.isClosed = false) :
    outcome now row p = .pending := by
  cases p with
  | gone => exact absurd rfl hne
  | closed v => cases hc
  | _ => rfl

/-- The volume is written as its column has it. -/
theorem markFilled_stored (hrow : row ∈ l.rows) {txid : String} {k : OrderLookup} (htxid : txid.length ≤ 64)
    (hvolume : Storable k.volumeExecuted) (hprice : Storable k.price) (hfee : Storable k.fee)
    (hcost : Storable k.cost) :
    ∃ l' q, l.markFilled row.clOrdId txid k.volumeExecuted k.price k.fee k.cost = .ok l' ∧
      amountColumn k.volumeExecuted = .ok q ∧
      ∃ row' ∈ l'.rows, row'.clOrdId = row.clOrdId ∧ row'.status = .filled ∧ row'.executedVolume = some q := by
  obtain ⟨q, hq⟩ := hvolume
  obtain ⟨p, hp⟩ := hprice
  obtain ⟨f, hf⟩ := hfee
  obtain ⟨c, hc⟩ := hcost
  rw [Ledger.markFilled, Ledger.getByClOrdId_of_mem hrow]
  simp only [textColumn_of_le htxid, hq, hp, hf, hc, bind, Except.bind]
  exact ⟨_, q, rfl, rfl, _, Ledger.mem_modify.mpr (Or.inr ⟨row, hrow, rfl, rfl⟩), rfl, rfl, rfl⟩

/-- A failed row. -/
theorem markFailed_row (hrow : row ∈ l.rows) (error : Option String) :
    ∃ row' ∈ (l.markFailed row.clOrdId error).rows, row'.clOrdId = row.clOrdId ∧ row'.status = .failed :=
  ⟨_, Ledger.mem_modify.mpr (Or.inr ⟨row, hrow, rfl, rfl⟩), rfl, rfl⟩

/-- A failed row is what its order makes of it, where that is to fail. -/
theorem markFailed_cameTo (hrow : row ∈ l.rows) (error : Option String)
    (houtcome : outcome now row (standing K row) = .failed) :
    ∃ row' ∈ (l.markFailed row.clOrdId error).rows, CameTo now K row row' := by
  obtain ⟨row', hrow', hid, hstatus⟩ := markFailed_row hrow error
  refine ⟨row', hrow', hid, hstatus.trans houtcome.symm, ?_⟩
  intro hfilled
  rw [hstatus] at hfilled
  cases hfilled

/-- A row whose lookup says where its order is becomes what that makes of it. -/
theorem settle_sighted {rows : List Order} (hknown : Known now K rows) (hrow : row ∈ rows)
    (hmem : row ∈ l.rows) (hpending : row.status = .pending) {k : OrderLookup} (hk : Sighted K row k) :
    (tooSoon now row.attemptedAt (some k) = true ∧ outcome now row (standing K row) = .pending) ∨
    (tooSoon now row.attemptedAt (some k) = false ∧
      ∃ l', settle l row.clOrdId (some k) = .ok (outcome now row (standing K row), l') ∧
        ∃ row' ∈ l'.rows, CameTo now K row row') := by
  cases hk with
  | nowhere hopen hclosed =>
    have houtcome := outcome_of_unlisted hknown hrow hopen hclosed
    by_cases hsoon : now - row.attemptedAt < ABSENCE_GRACE
    · rw [if_pos hsoon] at houtcome
      exact Or.inl ⟨by simpa [tooSoon, ABSENT] using hsoon, houtcome⟩
    · rw [if_neg hsoon] at houtcome
      refine Or.inr ⟨by simpa [tooSoon, ABSENT] using hsoon, l.markFailed row.clOrdId none, ?_,
        markFailed_cameTo hmem none houtcome⟩
      rw [houtcome, settle]
      rfl
  | @order o k ho hid hne htxid hk =>
    have hstanding : standing K row = o.phase := standing_of_mem hknown.distinct ho hid
    refine Or.inr ⟨by simp [tooSoon, htxid], ?_⟩
    rw [hstanding, settle, htxid]
    dsimp only
    rw [hk.finished]
    by_cases hclosed : o.phase.isClosed = true
    · -- Off the book: what it executed decides.
      rw [if_pos hclosed]
      obtain ⟨v, hphase⟩ := eq_closed hclosed
      obtain ⟨d, hd, hvalue⟩ := hk.executed
      rw [hphase] at hvalue
      have hpositive : 0 < d.value ↔ 0 < v := by
        rw [hvalue]
        exact NNRat.cast_pos
      by_cases hv : 0 < v
      · obtain ⟨l', q, hmark, hq, row', hrow', hid', hstatus, hstored⟩ := markFilled_stored hmem
          (hknown.short o ho) hk.volume hk.price hk.fee hk.cost
        have hgt : k.volumeExecuted.gtZero = .ok true := by
          rw [hd, PyDecimal.gtZero, decide_eq_true (hpositive.mpr hv)]
        refine ⟨l', ?_, row', hrow', hid', ?_, fun _ => ⟨d, q, ?_, hd ▸ hq, hstored⟩⟩
        · rw [hgt, hphase, outcome, if_pos hv]
          dsimp only
          rw [hmark]
          rfl
        · rw [hstatus, hstanding, hphase, outcome, if_pos hv]
        · rw [hstanding, hphase]
          exact hvalue
      · have hgt : k.volumeExecuted.gtZero = .ok false := by
          rw [hd, PyDecimal.gtZero, decide_eq_false (fun h => hv (hpositive.mp h))]
        have hfails : outcome now row (standing K row) = .failed := by
          rw [hstanding, hphase, outcome, if_neg hv]
        rw [hgt, ← hstanding, hfails]
        exact ⟨_, rfl, markFailed_cameTo hmem _ hfails⟩
    · -- It may still fill, so the row only gets its name.
      rw [if_neg hclosed]
      have hpend : outcome now row o.phase = .pending := outcome_of_open hne (by simpa using hclosed)
      have hmark : l.markSent row.clOrdId o.txid = .ok (l.modify row.clOrdId
          (fun row => { row with txid := some o.txid }) fun _ => rfl) := by
        rw [Ledger.markSent, Ledger.getByClOrdId_of_mem hmem]
        simp only [textColumn_of_le (hknown.short o ho), bind, Except.bind]
        rfl
      refine ⟨_, by rw [hmark, hpend]; rfl, _,
        Ledger.mem_modify.mpr (Or.inr ⟨row, hmem, rfl, rfl⟩), rfl, ?_, ?_⟩
      · rw [hstanding, hpend]
        exact hpending
      · intro hfilled
        rw [hpending] at hfilled
        cases hfilled

end Settling

/-! ## All rows -/

section Rows

variable {now : Int} {K : List RemoteOrder} {replies : Replies}

/-- One row more has its turn: the loop goes on with what it became. -/
theorem play_resolveEach_cons {row : Order} {rest : List Order} (r : Resolution) (locals : Locals) {w : World}
    {k : OrderLookup} (hlooked : lookedUp replies row = .ok (some k)) {status : OrderStatus} {l' : Ledger}
    (hturn : (tooSoon now row.attemptedAt (some k) = true ∧ status = .pending ∧ l' = w.db.ledger) ∨
      (tooSoon now row.attemptedAt (some k) = false ∧ settle w.db.ledger row.clOrdId (some k) = .ok (status, l'))) :
    ∃ r', Proc.play (respond replies) (resolveEach now (row :: rest) r) locals w =
        Proc.play (respond replies) (resolveEach now rest r') locals
          { w with db := { w.db with ledger := l' } } ∧
      r'.lookupFailed = r.lookupFailed ∧ r'.clear = (r.clear && status ≠ .pending) := by
  have hlook := play_lookUp replies locals w row
  rw [hlooked] at hlook
  rw [resolveEach, proc_play_bind_ok _ hlook]
  dsimp only
  rw [if_neg (show ¬some k = none by simp)]
  rcases hturn with ⟨hsoon, rfl, rfl⟩ | ⟨hsoon, hrun⟩
  · rw [if_pos hsoon]
    exact ⟨_, rfl, rfl, by simp⟩
  · rw [if_neg (by simp [hsoon])]
    have hsettle := proc_play_attempt (ε := Exn) (L := Locals) (respond replies)
      (o := .tx (.settle row.clOrdId (some k))) (e := fun b => b) (l := locals) (w := w)
    simp only [respond, Txn.run, hrun] at hsettle
    rw [transact, proc_play_bind_ok _ hsettle]
    dsimp only
    by_cases hpending : status = .pending
    · rw [if_pos hpending]
      exact ⟨_, rfl, rfl, by simp [hpending]⟩
    · rw [if_neg hpending]
      exact ⟨_, rfl, rfl, by simp [hpending]⟩

/-- What resolving some rows comes to: each became what its order makes of it, and the other rows are
as they were. -/
structure Decided (now : Int) (K : List RemoteOrder) (rows : List Order) (r r' : Resolution)
    (l l' : Ledger) : Prop where
  lookups : r'.lookupFailed = r.lookupFailed
  clear : r'.clear = true ↔ r.clear = true ∧ ∀ row ∈ rows, outcome now row (standing K row) ≠ .pending
  ids : l'.rows.map Order.clOrdId = l.rows.map Order.clOrdId
  others : ∀ o ∈ l.rows, o.clOrdId ∉ rows.map Order.clOrdId → o ∈ l'.rows
  came : ∀ row ∈ rows, ∃ row' ∈ l'.rows, CameTo now K row row'

theorem modify_clOrdIds (l : Ledger) (c : String) (f : Order → Order) (hf : ∀ o, (f o).clOrdId = o.clOrdId) :
    (l.modify c f hf).rows.map Order.clOrdId = l.rows.map Order.clOrdId := by
  simp only [Ledger.modify, List.map_map]
  refine List.map_congr_left fun o _ => ?_
  simp only [Function.comp_apply]
  split
  · exact hf o
  · rfl

/-- The turn of a row that is described. -/
theorem turn_described {rows : List Order} {row : Order} {l : Ledger} (hknown : Known now K rows)
    (hrow : row ∈ rows) (hmem : row ∈ l.rows) (hpending : row.status = .pending)
    (hdescribed : Describes K replies row) :
    ∃ k l', lookedUp replies row = .ok (some k) ∧
      ((tooSoon now row.attemptedAt (some k) = true ∧ outcome now row (standing K row) = .pending ∧ l' = l) ∨
        (tooSoon now row.attemptedAt (some k) = false ∧
          settle l row.clOrdId (some k) = .ok (outcome now row (standing K row), l'))) ∧
      l'.rows.map Order.clOrdId = l.rows.map Order.clOrdId ∧
      (∀ o ∈ l.rows, o.clOrdId ≠ row.clOrdId → o ∈ l'.rows) ∧ ∃ row' ∈ l'.rows, CameTo now K row row' := by
  obtain ⟨k, hlooked, hk⟩ := lookedUp_described hdescribed
  rcases settle_sighted hknown hrow hmem hpending hk with ⟨hsoon, houtcome⟩ | ⟨hsoon, l', hrun, hcame⟩
  · refine ⟨k, l, hlooked, Or.inl ⟨hsoon, houtcome, rfl⟩, rfl, fun o ho _ => ho, row, hmem, rfl, ?_, ?_⟩
    · rw [hpending, houtcome]
    · intro hfilled
      rw [hpending] at hfilled
      cases hfilled
  · have hsettled := settle_ok hrun
    refine ⟨k, l', hlooked, Or.inr ⟨hsoon, hrun⟩, ?_, (settled_row hsettled hmem hpending).2, hcame⟩
    obtain ⟨f, hf, hrows, -⟩ := hsettled.rows
    rw [hrows, modify_clOrdIds]

/-- The rows take their turns, and none raises. -/
theorem resolveEach_decides {all rows : List Order} (r : Resolution) (locals : Locals) {w : World}
    (hknown : Known now K all) (hall : ∀ row ∈ rows, row ∈ all)
    (hrows : ∀ row ∈ rows, row ∈ w.db.ledger.rows ∧ row.status = .pending)
    (hnodup : (rows.map Order.clOrdId).Nodup) (hdescribed : ∀ row ∈ rows, Describes K replies row) :
    ∃ r' l', Proc.play (respond replies) (resolveEach now rows r) locals w =
        ((.ok r', locals), { w with db := { w.db with ledger := l' } }) ∧
      Decided now K rows r r' w.db.ledger l' := by
  induction rows generalizing r w with
  | nil => exact ⟨r, w.db.ledger, rfl, rfl, by simp, rfl, fun o ho _ => ho, by simp⟩
  | cons row rest ih =>
    rw [List.map_cons, List.nodup_cons] at hnodup
    obtain ⟨hmem, hpending⟩ := hrows row List.mem_cons_self
    obtain ⟨k, l₁, hlooked, hturn, hids, hothers, row', hrow', hcame⟩ :=
      turn_described hknown (hall row List.mem_cons_self) hmem hpending (hdescribed row List.mem_cons_self)
    obtain ⟨r₁, hplay, hlookups, hclear⟩ := play_resolveEach_cons r locals hlooked hturn
    have hapart : ∀ x ∈ rest, x.clOrdId ≠ row.clOrdId :=
      fun x hx heq => hnodup.1 (heq ▸ List.mem_map_of_mem hx)
    obtain ⟨r₂, l₂, hplay', hdecided⟩ := ih r₁ (w := { w with db := { w.db with ledger := l₁ } })
      (fun x hx => hall x (List.mem_cons_of_mem _ hx))
      (fun x hx => ⟨hothers x (hrows x (List.mem_cons_of_mem _ hx)).1 (hapart x hx),
        (hrows x (List.mem_cons_of_mem _ hx)).2⟩)
      hnodup.2 (fun x hx => hdescribed x (List.mem_cons_of_mem _ hx))
    refine ⟨r₂, l₂, hplay.trans hplay', hdecided.lookups.trans hlookups, ?_, hdecided.ids.trans hids, ?_, ?_⟩
    · rw [hdecided.clear, hclear, Bool.and_eq_true, decide_eq_true_eq, List.forall_mem_cons, and_assoc]
    · intro o ho hother
      rw [List.map_cons, List.mem_cons, not_or] at hother
      exact hdecided.others o (hothers o ho hother.1) hother.2
    · rw [List.forall_mem_cons]
      -- The later rows leave the row as its turn left it.
      exact ⟨⟨row', hdecided.others row' hrow' (hcame.clOrdId ▸ hnodup.1), hcame⟩, hdecided.came⟩

/-- Where Kraken's answers describe the orders of the rows that are `PENDING`, resolving raises
nothing and decides every one of them as its order stands. The account is clear exactly when none of
these orders may still fill or appear, and no other row changes. -/
theorem resolve_pending_decides (locals : Locals) {w : World} (hknown : Known now K w.db.ledger.rows)
    (hdescribed : ∀ row ∈ w.db.ledger.rows, row.status = .pending → Describes K replies row) :
    ∃ r l', Proc.play (respond replies) (resolvePending now) locals w =
        ((.ok r, locals), { w with db := { w.db with ledger := l' } }) ∧
      r.lookupFailed = false ∧
      (r.clear = true ↔ ∀ row ∈ w.db.ledger.rows, row.status = .pending →
        outcome now row (standing K row) ≠ .pending) ∧
      l'.rows.map Order.clOrdId = w.db.ledger.rows.map Order.clOrdId ∧
      (∀ row ∈ w.db.ledger.rows, row.status = .pending → ∃ row' ∈ l'.rows, CameTo now K row row') ∧
      ∀ row ∈ w.db.ledger.rows, row.status ≠ .pending → row ∈ l'.rows := by
  have hread : Proc.play (respond replies) (transact .pendingOrders) locals w =
      ((.ok w.db.ledger.pendingOrders, locals), w) := by
    rw [transact]
    exact proc_play_attempt (respond replies)
  obtain ⟨r, l', hplay, hdecided⟩ := resolveEach_decides ⟨true, [], false⟩ locals (w := w) hknown
    (fun row hrow => (Ledger.mem_pendingOrders.mp hrow).1)
    (fun row hrow => Ledger.mem_pendingOrders.mp hrow) (pendingOrders_nodup _)
    (fun row hrow => hdescribed row (Ledger.mem_pendingOrders.mp hrow).1 (Ledger.mem_pendingOrders.mp hrow).2)
  refine ⟨r, l', ?_, hdecided.lookups, ?_, hdecided.ids, ?_, ?_⟩
  · rw [resolvePending, proc_play_bind_ok _ hread]
    exact hplay
  · rw [hdecided.clear]
    simp only [Ledger.mem_pendingOrders, true_and, and_imp]
  · intro row hrow hpending
    exact hdecided.came row (Ledger.mem_pendingOrders.mpr ⟨hrow, hpending⟩)
  · intro row hrow hsettled
    refine hdecided.others row hrow fun hin => ?_
    obtain ⟨o, ho, hid⟩ := List.mem_map.mp hin
    obtain ⟨ho', hpending⟩ := Ledger.mem_pendingOrders.mp ho
    rw [Ledger.eq_of_clOrdId ho' hrow hid] at hpending
    exact hsettled hpending

end Rows

/-! ## An order that was filled meanwhile -/

/-- What Kraken has of the lost order: closed, half a coin executed. -/
def foundOrder : RemoteOrder :=
  { clOrdId := lostOrder.clOrdId, txid := "OQCLML-BW3P3-BUCMWZ", attemptedAt := 0, phase := .closed (1 / 2) }

/-- Its entry among the closed orders. -/
def foundEntry : Json :=
  .obj [("cl_ord_id", .str lostOrder.clOrdId), ("status", .str "closed"), ("vol", .str "0.5"),
    ("vol_exec", .str "0.5"), ("price", .str "200"), ("fee", .str "0.4"), ("cost", .str "100")]

/-- What is read of it. -/
def foundLookup : OrderLookup where
  txid := some foundOrder.txid
  status := some .closed
  volume := .finite ⟨5, -1⟩
  volumeExecuted := .finite ⟨5, -1⟩
  price := .finite ⟨200, 0⟩
  fee := .finite ⟨4, -1⟩
  cost := .finite ⟨100, 0⟩

/-- Nothing is open, and that entry is closed. -/
def foundListings : Replies :=
  always [("error", .arr []),
    ("result", .obj [("open", .obj []), ("closed", .obj [(foundOrder.txid, foundEntry)])])]

/-- The answer of the lost order was lost, and it is found filled. -/
theorem resolve_pending_decides_found :
    ∃ r l', Proc.play (respond foundListings) (resolvePending 1) {} lostWorld =
        ((.ok r, {}), { lostWorld with db := { lostWorld.db with ledger := l' } }) ∧
      r.clear = true ∧ ∃ row' ∈ l'.rows, CameTo 1 [foundOrder] lostOrder row' := by
  have hexact : Exact foundOrder foundEntry := by
    refine ⟨foundLookup, by decide, ?_⟩
    constructor
    · rfl
    · exact ⟨⟨5, -1⟩, rfl, by norm_num [Decimal.value, foundOrder, Phase.executed]⟩
    · exact ⟨.finite ⟨500000000000, -12⟩, by decide +kernel⟩
    · exact ⟨.finite ⟨200000000000000, -12⟩, by decide +kernel⟩
    · exact ⟨.finite ⟨400000000000, -12⟩, by decide +kernel⟩
    · exact ⟨.finite ⟨100000000000000, -12⟩, by decide +kernel⟩
  have hopen : Lists [foundOrder] Phase.isListed "open" lostOrder.clOrdId
      (openReply foundListings lostOrder.clOrdId) [] := by
    refine ⟨rfl, by simp, by simp, ?_⟩
    intro o ho hid hlisted
    rw [List.mem_singleton.mp ho] at hlisted
    cases hlisted
  have hclosed : Lists [foundOrder] Phase.isClosed "closed" lostOrder.clOrdId
      (closedReply foundListings lostOrder.clOrdId) [(foundOrder.txid, foundEntry)] := by
    refine ⟨rfl, ?_, ?_, ?_⟩
    · intro e he
      rw [List.mem_singleton.mp he]
      rfl
    · intro e he
      rw [List.mem_singleton.mp he]
      exact ⟨foundOrder, List.mem_cons_self, rfl, rfl, rfl, hexact⟩
    · intro o ho hid hover
      rw [List.mem_singleton.mp ho]
      exact ⟨_, List.mem_cons_self, rfl⟩
  have hknown : Known 1 [foundOrder] lostWorld.db.ledger.rows := by
    refine ⟨by simp, ?_, ?_, ?_⟩
    · intro row hrow o ho hid
      rw [List.mem_singleton.mp hrow, List.mem_singleton.mp ho]
      rfl
    · intro o ho
      rw [List.mem_singleton.mp ho]
      decide
    · intro o ho hflight
      rw [List.mem_singleton.mp ho] at hflight
      cases hflight
  have hdescribed : ∀ row ∈ lostWorld.db.ledger.rows, row.status = .pending →
      Describes [foundOrder] foundListings row := by
    intro row hrow hpending
    rw [List.mem_singleton.mp hrow]
    exact .unnamed rfl hopen hclosed
  obtain ⟨r, l', hplay, -, hclear, -, hcame, -⟩ := resolve_pending_decides {} hknown hdescribed
  refine ⟨r, l', hplay, hclear.mpr ?_, hcame lostOrder List.mem_cons_self rfl⟩
  intro row hrow hpending
  rw [List.mem_singleton.mp hrow]
  decide +kernel

end Coinpilot.Core
