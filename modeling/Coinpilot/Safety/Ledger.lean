import Coinpilot.Safety.History

/-!
# The ledger and Kraken

`LedgerOk` is what every state keeps: at most one row is unknown, every row belongs to an evaluation
that was recorded and, where Kraken is honest, every order at Kraken has its row, every txid in a row
names that order, and the order of a row that is settled is over. `Permitted` is what an operation needs
of the state it is called in. `ledgerRules` is the contract of the two; `Kept` is what the calls of
others leave alone, and the holder of the lock may rely on.
-/

set_option autoImplicit false

namespace Coinpilot.Safety

open Coinpilot.Lib Coinpilot.Lib.Program Coinpilot.Exchange Coinpilot.Engine Coinpilot.Core

/-! ## Rows and orders -/

/-- The rows of a ledger and the orders at Kraken. -/
structure RemoteOk (l : Ledger) (K : List RemoteOrder) : Prop where
  ids : (K.map RemoteOrder.clOrdId).Nodup
  txids : (K.map RemoteOrder.txid).Nodup
  rows : ∀ o ∈ K, ∃ row ∈ l.rows, row.clOrdId = o.clOrdId ∧ row.attemptedAt = o.attemptedAt
  named : ∀ row ∈ l.rows, ∀ t, row.txid = some t → ∃ o ∈ K, o.clOrdId = row.clOrdId ∧ o.txid = t
  settled : ∀ row ∈ l.rows, row.status ≠ .pending → ∀ o ∈ K, o.clOrdId = row.clOrdId →
    o.phase.isOver = true ∧ (row.status = .failed → o.phase.executed = 0)

theorem RemoteOk.evolves {l : Ledger} {K K' : List RemoteOrder} (h : RemoteOk l K)
    (hK : Evolves K K') : RemoteOk l K' where
  ids := by
    rw [hK.map_eq fun _ _ hl => hl.1]
    exact h.ids
  txids := by
    rw [hK.map_eq fun _ _ hl => hl.2.1]
    exact h.txids
  rows o' ho' := by
    obtain ⟨o, ho, hid, -, hat, -⟩ := hK.before ho'
    obtain ⟨row, hrow, hc, ha⟩ := h.rows o ho
    exact ⟨row, hrow, hc.trans hid.symm, ha.trans hat.symm⟩
  named row hrow t ht := by
    obtain ⟨o, ho, hc, htx⟩ := h.named row hrow t ht
    obtain ⟨o', ho', hid, htx', -⟩ := hK.after ho
    exact ⟨o', ho', hid.trans hc, htx'.trans htx⟩
  settled row hrow hs o' ho' hc := by
    obtain ⟨o, ho, hid, -, -, hl⟩ := hK.before ho'
    obtain ⟨hover, hzero⟩ := h.settled row hrow hs o ho (hid.symm.trans hc)
    rw [hl.eq_of_isOver hover]
    exact ⟨hover, hzero⟩

/-- A new order of a row that is still pending. -/
theorem RemoteOk.place {l : Ledger} {K : List RemoteOrder} (h : RemoteOk l K) {row : Order}
    (hrow : row ∈ l.rows) (hp : row.status = .pending) {o : RemoteOrder} (hc : o.clOrdId = row.clOrdId)
    (ha : o.attemptedAt = row.attemptedAt) (hnew : ∀ x ∈ K, x.clOrdId ≠ row.clOrdId)
    (htx : ∀ x ∈ K, x.txid ≠ o.txid) : RemoteOk l (K ++ [o]) where
  ids := by
    rw [List.map_append]
    refine List.Nodup.append h.ids (by simp) ?_
    intro id hid hmem
    obtain ⟨x, hx, rfl⟩ := List.mem_map.mp hid
    rw [List.map_singleton, List.mem_singleton] at hmem
    exact hnew x hx (hmem.trans hc)
  txids := by
    rw [List.map_append]
    refine List.Nodup.append h.txids (by simp) ?_
    intro t ht hmem
    obtain ⟨x, hx, rfl⟩ := List.mem_map.mp ht
    rw [List.map_singleton, List.mem_singleton] at hmem
    exact htx x hx hmem
  rows x hx := by
    rcases List.mem_append.mp hx with hx | hx
    · exact h.rows x hx
    · rw [List.mem_singleton] at hx
      subst hx
      exact ⟨row, hrow, hc.symm, ha.symm⟩
  named r hr t ht := by
    obtain ⟨x, hx, hxc, hxt⟩ := h.named r hr t ht
    exact ⟨x, List.mem_append_left _ hx, hxc, hxt⟩
  settled r hr hs x hx hxc := by
    rcases List.mem_append.mp hx with hx | hx
    · exact h.settled r hr hs x hx hxc
    · -- The new order's own row is pending.
      rw [List.mem_singleton] at hx
      subst hx
      have heq : r = row := Ledger.eq_of_clOrdId hr hrow (hxc.symm.trans hc)
      exact absurd (heq ▸ hp) hs

/-- A new row, with no order yet. -/
theorem RemoteOk.append {l l' : Ledger} {K : List RemoteOrder} (h : RemoteOk l K) {row : Order}
    (hl : l'.rows = l.rows ++ [row]) (hu : row.unknown) : RemoteOk l' K where
  ids := h.ids
  txids := h.txids
  rows o ho := by
    obtain ⟨r, hr, hc, ha⟩ := h.rows o ho
    exact ⟨r, hl ▸ List.mem_append_left _ hr, hc, ha⟩
  named r hr t ht := by
    rw [hl] at hr
    rcases List.mem_append.mp hr with hr | hr
    · exact h.named r hr t ht
    · rw [List.mem_singleton] at hr
      subst hr
      rw [hu.2] at ht
      cases ht
  settled r hr hs o ho hc := by
    rw [hl] at hr
    rcases List.mem_append.mp hr with hr | hr
    · exact h.settled r hr hs o ho hc
    · rw [List.mem_singleton] at hr
      subst hr
      exact absurd hu.1 hs

/-- What is written down of one order is true of it. -/
theorem RemoteOk.modify {l l' : Ledger} {K : List RemoteOrder} (h : RemoteOk l K) {c : String}
    {f : Order → Order} {hf : ∀ o, (f o).clOrdId = o.clOrdId} (hl : l'.rows = (l.modify c f hf).rows)
    (hat : ∀ o, (f o).attemptedAt = o.attemptedAt)
    (htx : ∀ row t, (f row).txid = some t → row.txid = some t ∨ ∃ o ∈ K, o.clOrdId = c ∧ o.txid = t)
    (hst : ∀ row ∈ l.rows, row.clOrdId = c → (f row).status ≠ .pending → ∀ o ∈ K, o.clOrdId = c →
      o.phase.isOver = true ∧ ((f row).status = .failed → o.phase.executed = 0)) : RemoteOk l' K where
  ids := h.ids
  txids := h.txids
  rows o ho := by
    obtain ⟨r, hr, hc, ha⟩ := h.rows o ho
    by_cases hrc : r.clOrdId = c
    · have hmem : f r ∈ l'.rows := hl ▸ Ledger.mem_modify.mpr (Or.inr ⟨r, hr, hrc, rfl⟩)
      exact ⟨f r, hmem, (hf r).trans hc, (hat r).trans ha⟩
    · have hmem : r ∈ l'.rows := hl ▸ Ledger.mem_modify.mpr (Or.inl ⟨hr, hrc⟩)
      exact ⟨r, hmem, hc, ha⟩
  named r hr t ht := by
    rw [hl] at hr
    rcases Ledger.mem_modify.mp hr with ⟨hr, -⟩ | ⟨r', hr', hrc, rfl⟩
    · exact h.named r hr t ht
    · rcases htx r' t ht with ht | ⟨o, ho, hoc, hot⟩
      · obtain ⟨o, ho, hoc, hot⟩ := h.named r' hr' t ht
        exact ⟨o, ho, hoc.trans (hf r').symm, hot⟩
      · exact ⟨o, ho, hoc.trans (hrc.symm.trans (hf r').symm), hot⟩
  settled r hr hs o ho hc := by
    rw [hl] at hr
    rcases Ledger.mem_modify.mp hr with ⟨hr, -⟩ | ⟨r', hr', hrc, rfl⟩
    · exact h.settled r hr hs o ho hc
    · exact hst r' hr' hrc hs o ho (hc.trans ((hf r').trans hrc))

/-- Two orders with one txid are one order. -/
theorem RemoteOk.eq_of_txid {l : Ledger} {K : List RemoteOrder} (h : RemoteOk l K) {o o' : RemoteOrder}
    (ho : o ∈ K) (ho' : o' ∈ K) (ht : o.txid = o'.txid) : o = o' :=
  List.inj_on_of_nodup_map h.txids ho ho' ht

/-! ## The invariant -/

/-- What every state keeps. -/
structure LedgerOk (honest : Prop) (w : World) : Prop where
  oneUnknown : ∀ a ∈ w.db.ledger.rows, ∀ b ∈ w.db.ledger.rows, a.unknown → b.unknown → a = b
  recorded : ∀ row ∈ w.db.ledger.rows, ∀ s, row.sessionId = some s → s < w.db.sessions.length
  remote : honest → RemoteOk w.db.ledger w.remote
  timely : honest → Timely ABSENCE_GRACE w.clock w.remote

/-- The same ledger, later. -/
theorem LedgerOk.later {honest : Prop} {w w' : World} (h : LedgerOk honest w)
    (hl : w'.db.ledger = w.db.ledger) (hs : w.db.sessions.length ≤ w'.db.sessions.length)
    (hr : honest → Evolves w.remote w'.remote ∧ Timely ABSENCE_GRACE w'.clock w'.remote) :
    LedgerOk honest w' where
  oneUnknown := by
    rw [hl]
    exact h.oneUnknown
  recorded row hrow s hs' := by
    rw [hl] at hrow
    exact (h.recorded row hrow s hs').trans_le hs
  remote hh := by
    rw [hl]
    exact (h.remote hh).evolves (hr hh).1
  timely hh := (hr hh).2

/-- A new user: no rows, no proposal, no orders, and nobody holds the lock. -/
structure Fresh (w : World) : Prop where
  rows : w.db.ledger.rows = []
  proposal : w.db.proposal = none
  remote : w.remote = []
  lock : w.lock = none

theorem Fresh.ledgerOk {w : World} (h : Fresh w) (honest : Prop) : LedgerOk honest w where
  oneUnknown a ha := by
    rw [h.rows] at ha
    cases ha
  recorded row hrow := by
    rw [h.rows] at hrow
    cases hrow
  remote _ := by
    rw [h.remote]
    refine ⟨by simp, by simp, ?_, ?_, ?_⟩
    · intro o ho
      cases ho
    · intro row hrow
      rw [h.rows] at hrow
      cases hrow
    · intro row hrow
      rw [h.rows] at hrow
      cases hrow
  timely _ o ho := by
    rw [h.remote] at ho
    cases ho

/-! ## What an operation needs -/

/-- The operations that are only called under the user's lock. -/
def Op.underLock : Op → Bool
  | .post r => r.creates.isSome
  | .tx (.decidePropose ..) => true
  | .tx (.decideApprove ..) => true
  | .tx .decideRebalance => true
  | .tx t => t.writesLedger
  | _ => false

/-- What a lookup says of the order it found: finished means closed, with the volume it says. -/
def TrueOf (o : RemoteOrder) (found : OrderLookup) : Prop :=
  isFinished found.status = true → o.phase.isClosed = true ∧ ∃ d, found.volumeExecuted = .finite d ∧
    d.value = (o.phase.executed : Rat)

/-- What a lookup of `clOrdId` says is true of the orders at Kraken. -/
def Truthful (K : List RemoteOrder) (clOrdId : String) : Option OrderLookup → Prop
  | none => True
  | some found =>
      match found.txid with
      | none => ∀ o ∈ K, o.clOrdId = clOrdId → o.phase = .gone
      | some t => ∃ o ∈ K, o.clOrdId = clOrdId ∧ o.txid = t ∧ TrueOf o found

/-- The status of an evaluation and the rows of its session. -/
def Agrees (status : EvaluationStatus) (rows : List Order) : Prop :=
  (status = .stopped ↔ ∃ row, rows.getLast? = some row ∧ row.unknown) ∧
  (status = .partly ↔ status ≠ .stopped ∧
    (∀ row ∈ rows, row.status = .filled ∨ row.status = .failed) ∧ ∃ row ∈ rows, row.status = .failed) ∧
  (status = .done ↔ rows ≠ [] ∧ ∀ row ∈ rows, row.status = .filled) ∧
  (status ≠ .stopped → status ≠ .partly → status ≠ .done → rows = [])

/-- A row of this client id is still pending. -/
def StillPending (l : Ledger) (clOrdId : String) : Prop :=
  ∃ row ∈ l.rows, row.clOrdId = clOrdId ∧ row.status = .pending

/-- What a transaction of call `i` needs. -/
def Justified (honest : Prop) (i : Nat) (w : Rec) : Txn → Prop
  | .settle clOrdId lookup =>
      StillPending w.now.db.ledger clOrdId ∧ (honest → Truthful w.now.remote clOrdId lookup)
  | .recordAttempt _ _ _ _ sessionId =>
      (∀ row ∈ w.now.db.ledger.rows, ¬row.unknown) ∧ sessionId < w.now.db.sessions.length
  | .markFailed clOrdId _ =>
      StillPending w.now.db.ledger clOrdId ∧ (honest → ∀ o ∈ w.now.remote, o.clOrdId ≠ clOrdId)
  | .markSent clOrdId txid =>
      StillPending w.now.db.ledger clOrdId ∧
        (honest → ∃ o ∈ w.now.remote, o.clOrdId = clOrdId ∧ o.txid = txid)
  | .finishEvaluation id status _ _ =>
      status ≠ .error → (Agrees status (w.now.db.ledger.ofSession id) ↔
        (∃ x ∈ posts i w.past, Lost x) ∨ AllRead none (posts i w.past))
  | _ => True

/-- What placing an order that trades needs: its row is written down, and every other one is settled
or was accepted and named in this call. -/
structure WriteAhead (honest : Prop) (i : Nat) (clOrdId : String) (w : Rec) : Prop where
  row : ∃ row ∈ w.now.db.ledger.rows, row.clOrdId = clOrdId ∧ row.unknown
  others : ∀ row ∈ w.now.db.ledger.rows, row.clOrdId ≠ clOrdId → row.status = .pending →
    ∃ t, row.txid = some t ∧ Sent (posts i w.past) row.clOrdId t
  fresh : honest → ∀ o ∈ w.now.remote, o.clOrdId ≠ clOrdId

/-- What an operation of a call needs of the state it is called in. -/
structure Permitted (honest : Prop) (i : Nat) (c : Request) (o : Op) (w : Rec) : Prop where
  lock : Op.underLock o = true → w.now.lock = some i
  places : ∀ clOrdId, o.creates = some clOrdId → WriteAhead honest i clOrdId w
  plans : o.plans = true → (∀ trigger, c ≠ .invest true trigger) →
    ∀ row ∈ w.now.db.ledger.rows, row.status ≠ .pending
  writes : ∀ t, o = .tx t → Justified honest i w t

/-! ## What the others leave alone -/

/-- What steps of the others and of the world leave alone for call `i`. -/
structure Kept (honest : Prop) (i : Nat) (w w' : Rec) : Prop where
  past : w.past <:+ w'.past
  posts : posts i w'.past = posts i w.past
  clock : w.now.clock ≤ w'.now.clock
  sessions : w.now.db.sessions.length ≤ w'.now.db.sessions.length
  held : w.now.lock = some i → w'.now.lock = some i ∧ w'.now.db.ledger = w.now.db.ledger ∧
    (honest → Evolves w.now.remote w'.now.remote)

theorem Kept.refl (honest : Prop) (i : Nat) (w : Rec) : Kept honest i w w :=
  ⟨List.suffix_refl _, rfl, le_rfl, le_rfl, fun h => ⟨h, rfl, fun _ => Evolves.refl _⟩⟩

theorem Kept.trans {honest : Prop} {i : Nat} {w₁ w₂ w₃ : Rec} (h : Kept honest i w₁ w₂)
    (h' : Kept honest i w₂ w₃) : Kept honest i w₁ w₃ where
  past := h.past.trans h'.past
  posts := h'.posts.trans h.posts
  clock := h.clock.trans h'.clock
  sessions := h.sessions.trans h'.sessions
  held hl := by
    obtain ⟨hl₂, hledger, hr⟩ := h.held hl
    obtain ⟨hl₃, hledger', hr'⟩ := h'.held hl₂
    exact ⟨hl₃, hledger'.trans hledger, fun hh => (hr hh).trans (hr' hh)⟩

theorem env_kept {honest : Prop} {w w' : Rec} (h : (system honest).recorded.env w w') (i : Nat) :
    Kept honest i w w' where
  past := h.2 ▸ List.suffix_refl _
  posts := by rw [h.2]
  clock := h.1.clock
  sessions := by rw [h.1.sessions]
  held hl := ⟨h.1.lock.trans hl, h.1.ledger, fun hh => (h.1.remote hh).1⟩

theorem died_kept {honest : Prop} {i j : Nat} (hj : j ≠ i) (w : Rec) :
    Kept honest j w ((system honest).recorded.died i w) where
  past := List.suffix_refl _
  posts := rfl
  clock := le_rfl
  sessions := le_rfl
  held hl := by
    refine ⟨?_, rfl, fun _ => Evolves.refl _⟩
    have hne : w.now.lock ≠ some i := by
      rw [hl]
      simpa using hj
    exact (if_neg hne).trans hl

/-! ## One operation -/

section Steps

variable {honest : Prop} {i : Nat} {c : Request} {o : Op} {b : Ans o} {w w' : Rec}

/-- What every operation does to the clock, the sessions and the exchanges of others. -/
theorem step_grows (h : (system honest).recorded.step i c o w b w') :
    w'.now.clock = w.now.clock ∧ w.now.db.sessions.length ≤ w'.now.db.sessions.length ∧
      ∀ j, j ≠ i → posts j w'.past = posts j w.past := by
  obtain ⟨ha, hpast⟩ := h
  have hposts : ∀ j, j ≠ i → posts j w'.past = posts j w.past := by
    intro j hj
    rw [hpast]
    exact posts_cons_other _ fun hi => hj hi.symm
  cases o with
  | tx t =>
    rcases ha with ⟨e, -, -, heq⟩ | ⟨a, db, hrun, -, heq⟩
    · rw [heq]
      exact ⟨rfl, le_rfl, hposts⟩
    · rw [heq]
      exact ⟨rfl, Txn.sessions_of_run hrun, hposts⟩
  | post r =>
    obtain ⟨remote, heq, -⟩ := ha
    rw [heq]
    exact ⟨rfl, le_rfl, hposts⟩
  | tryLock =>
    rcases ha with ⟨-, -, heq⟩ | ⟨-, heq⟩
    · rw [heq]
      exact ⟨rfl, le_rfl, hposts⟩
    · rw [heq]
      exact ⟨rfl, le_rfl, hposts⟩
  | unlock =>
    rcases ha with heq | ⟨-, heq⟩
    · rw [heq]
      exact ⟨rfl, le_rfl, hposts⟩
    · rw [heq]
      exact ⟨rfl, le_rfl, hposts⟩
  | now =>
    obtain ⟨-, heq⟩ := ha
    rw [heq]
    exact ⟨rfl, le_rfl, hposts⟩
  | _ =>
    have heq : w'.now = w.now := ha
    rw [heq]
    exact ⟨rfl, le_rfl, hposts⟩

/-- The ledger stays as it is, and so do the orders but for what may happen on its own, in every
operation that is not called under the lock. -/
theorem step_outside (h : (system honest).recorded.step i c o w b w') (ho : Op.underLock o = false) :
    w'.now.db.ledger = w.now.db.ledger ∧ (honest → w'.now.remote = w.now.remote) ∧
      (honest → Timely ABSENCE_GRACE w.now.clock w.now.remote →
        Timely ABSENCE_GRACE w'.now.clock w'.now.remote) := by
  obtain ⟨ha, -⟩ := h
  cases o with
  | tx t =>
    have hw : t.writesLedger = false := by
      cases t <;> first | rfl | cases ho
    rcases ha with ⟨e, -, -, heq⟩ | ⟨a, db, hrun, -, heq⟩
    · rw [heq]
      exact ⟨rfl, fun _ => rfl, fun _ ht => ht⟩
    · rw [heq]
      exact ⟨Txn.ledger_of_run hrun hw, fun _ => rfl, fun _ ht => ht⟩
  | post r =>
    have hr : r.creates = none := by simpa [Op.underLock] using ho
    obtain ⟨remote, heq, hremote⟩ := ha
    rw [heq]
    refine ⟨rfl, fun hh => (hremote hh).1.eq_of_creates hr, fun hh _ => (hremote hh).2⟩
  | tryLock =>
    rcases ha with ⟨-, -, heq⟩ | ⟨-, heq⟩
    · rw [heq]
      exact ⟨rfl, fun _ => rfl, fun _ ht => ht⟩
    · rw [heq]
      exact ⟨rfl, fun _ => rfl, fun _ ht => ht⟩
  | unlock =>
    rcases ha with heq | ⟨-, heq⟩
    · rw [heq]
      exact ⟨rfl, fun _ => rfl, fun _ ht => ht⟩
    · rw [heq]
      exact ⟨rfl, fun _ => rfl, fun _ ht => ht⟩
  | now =>
    obtain ⟨-, heq⟩ := ha
    rw [heq]
    exact ⟨rfl, fun _ => rfl, fun _ ht => ht⟩
  | _ =>
    have heq : w'.now = w.now := ha
    rw [heq]
    exact ⟨rfl, fun _ => rfl, fun _ ht => ht⟩

/-- Nobody loses the lock to another call. -/
theorem step_lock (h : (system honest).recorded.step i c o w b w') {j : Nat} (hj : j ≠ i)
    (hl : w.now.lock = some j) : w'.now.lock = some j := by
  obtain ⟨ha, -⟩ := h
  cases o with
  | tx t =>
    rcases ha with ⟨e, -, -, heq⟩ | ⟨a, db, -, -, heq⟩
    · rw [heq]
      exact hl
    · rw [heq]
      exact hl
  | post r =>
    obtain ⟨remote, heq, -⟩ := ha
    rw [heq]
    exact hl
  | tryLock =>
    rcases ha with ⟨-, hfree, -⟩ | ⟨-, heq⟩
    · rw [hl] at hfree
      cases hfree
    · rw [heq]
      exact hl
  | unlock =>
    rcases ha with heq | ⟨-, heq⟩
    · have hne : w.now.lock ≠ some i := by
        rw [hl]
        simpa using hj
      rw [heq]
      exact (if_neg hne).trans hl
    · rw [heq]
      exact hl
  | now =>
    obtain ⟨-, heq⟩ := ha
    rw [heq]
    exact hl
  | _ =>
    have heq : w'.now = w.now := ha
    rw [heq]
    exact hl

/-- A permitted operation leaves alone what the others rely on. -/
theorem step_kept (hp : Permitted honest i c o w) (h : (system honest).recorded.step i c o w b w')
    {j : Nat} (hj : j ≠ i) : Kept honest j w w' := by
  obtain ⟨hclock, hsessions, hposts⟩ := step_grows h
  refine ⟨h.2 ▸ List.suffix_cons _ _, hposts j hj, hclock.ge, hsessions,
    fun hl => ⟨step_lock h hj hl, ?_⟩⟩
  cases hu : Op.underLock o with
  | false =>
    obtain ⟨hledger, hremote, -⟩ := step_outside h hu
    refine ⟨hledger, fun hh => ?_⟩
    rw [hremote hh]
    exact Evolves.refl _
  | true =>
    -- Another call holds the lock, so this operation was not permitted.
    have hmine := hp.lock hu
    rw [hl] at hmine
    exact absurd (Option.some.inj hmine) hj

end Steps

/-! ## Writing rows -/

section Writes

variable {honest : Prop} {w : World} {l : Ledger}

/-- Writing down what became of one order. -/
theorem LedgerOk.modify (h : LedgerOk honest w) {c : String} {f : Order → Order}
    {hf : ∀ o, (f o).clOrdId = o.clOrdId} (hl : l.rows = (w.db.ledger.modify c f hf).rows)
    (hsession : ∀ o, (f o).sessionId = o.sessionId) (hunknown : ∀ o, (f o).unknown → o.unknown)
    (hremote : honest → RemoteOk l w.remote) :
    LedgerOk honest { w with db := { w.db with ledger := l } } where
  oneUnknown := by
    have hback : ∀ a ∈ l.rows, a.unknown → ∃ o ∈ w.db.ledger.rows, o.unknown ∧ o.clOrdId = a.clOrdId := by
      intro a ha hu
      rw [hl] at ha
      rcases Ledger.mem_modify.mp ha with ⟨ha, -⟩ | ⟨o, ho, -, rfl⟩
      · exact ⟨a, ha, hu, rfl⟩
      · exact ⟨o, ho, hunknown o hu, (hf o).symm⟩
    intro a ha b hb hau hbu
    obtain ⟨o, ho, hou, hoc⟩ := hback a ha hau
    obtain ⟨o', ho', hou', hoc'⟩ := hback b hb hbu
    have heq : o = o' := h.oneUnknown o ho o' ho' hou hou'
    exact Ledger.eq_of_clOrdId ha hb (hoc.symm.trans ((congrArg Order.clOrdId heq).trans hoc'))
  recorded row hrow s hs := by
    have hrow' : row ∈ l.rows := hrow
    rw [hl] at hrow'
    rcases Ledger.mem_modify.mp hrow' with ⟨hr, -⟩ | ⟨o, ho, -, rfl⟩
    · exact h.recorded row hr s hs
    · rw [hsession] at hs
      exact h.recorded o ho s hs
  remote := hremote
  timely := h.timely

/-- Writing an attempt down. -/
theorem LedgerOk.append (h : LedgerOk honest w) {o : Order} (hl : l.rows = w.db.ledger.rows ++ [o])
    (hu : o.unknown) {id : Nat} (hs : o.sessionId = some id) (hid : id < w.db.sessions.length)
    (hnone : ∀ row ∈ w.db.ledger.rows, ¬row.unknown) :
    LedgerOk honest { w with db := { w.db with ledger := l } } where
  oneUnknown := by
    have honly : ∀ a ∈ l.rows, a.unknown → a = o := by
      intro a ha hau
      rw [hl] at ha
      rcases List.mem_append.mp ha with ha | ha
      · exact absurd hau (hnone a ha)
      · exact List.mem_singleton.mp ha
    intro a ha b hb hau hbu
    rw [honly a ha hau, honly b hb hbu]
  recorded row hrow s hs' := by
    have hrow' : row ∈ l.rows := hrow
    rw [hl] at hrow'
    rcases List.mem_append.mp hrow' with hr | hr
    · exact h.recorded row hr s hs'
    · rw [List.mem_singleton] at hr
      subst hr
      rw [hs] at hs'
      cases hs'
      exact hid
  remote hh := (h.remote hh).append hl hu
  timely := h.timely

/-- Settling a row as filled or failed is true of its order: it is over and, if failed, executed
nothing. -/
theorem settled_over {l l' : Ledger} {K : List RemoteOrder} {c : String} {k : Option OrderLookup}
    {s : OrderStatus} (h : Settled l c k s l') (hK : RemoteOk l K) (hs : s ≠ .pending)
    (htrue : Truthful K c k) {o : RemoteOrder} (ho : o ∈ K) (hc : o.clOrdId = c) :
    o.phase.isOver = true ∧ (s = .failed → o.phase.executed = 0) := by
  have hsame : ∀ o' ∈ K, o'.clOrdId = c → o' = o := fun o' ho' hc' =>
    List.inj_on_of_nodup_map hK.ids ho' ho (hc'.trans hc.symm)
  cases h with
  | unknown => exact absurd rfl hs
  | absent ht =>
    simp only [Truthful, ht] at htrue
    rw [htrue o ho hc]
    exact ⟨rfl, fun _ => rfl⟩
  | filled ht hfin hgt hm =>
    simp only [Truthful, ht] at htrue
    obtain ⟨o', ho', hc', -, hclosed⟩ := htrue
    rw [hsame o' ho' hc'] at hclosed
    refine ⟨Phase.isOver_of_isClosed (hclosed hfin).1, nofun⟩
  | empty ht hfin hgt =>
    simp only [Truthful, ht] at htrue
    obtain ⟨o', ho', hc', -, hclosed⟩ := htrue
    rw [hsame o' ho' hc'] at hclosed
    obtain ⟨hover, d, hd, hv⟩ := hclosed hfin
    refine ⟨Phase.isOver_of_isClosed hover, fun _ => ?_⟩
    -- The volume it executed is not positive, so it is zero.
    rw [hd] at hgt
    have hle : ¬(0 : Rat) < d.value := by simpa [PyDecimal.gtZero] using hgt
    rw [hv] at hle
    have hzero : (o.phase.executed : Rat) ≤ 0 := not_lt.mp hle
    exact le_antisymm (by exact_mod_cast hzero) zero_le
  | named ht hfin hm => exact absurd rfl hs

/-- What a lookup said is written down. -/
theorem LedgerOk.settle (h : LedgerOk honest w) {c : String} {k : Option OrderLookup} {s : OrderStatus}
    (hset : Settled w.db.ledger c k s l) (hp : StillPending w.db.ledger c)
    (htrue : honest → Truthful w.remote c k) :
    LedgerOk honest { w with db := { w.db with ledger := l } } := by
  obtain ⟨f, hf, hrows, hspec⟩ := hset.rows
  refine h.modify hrows (fun o => (hspec o).1) (fun o => (hspec o).2.2.2.1) fun hh => ?_
  refine (h.remote hh).modify hrows (fun o => (hspec o).2.1) ?_ ?_
  · intro row t ht
    rcases (hspec row).2.2.2.2 with hsame | ⟨k', t', rfl, hk', hnew⟩
    · exact Or.inl (hsame ▸ ht)
    · rw [hnew] at ht
      obtain rfl := Option.some.inj ht
      have hk : Truthful w.remote c (some k') := htrue hh
      simp only [Truthful, hk'] at hk
      obtain ⟨o, ho, hoc, hot, -⟩ := hk
      exact Or.inr ⟨o, ho, hoc, hot⟩
  · -- The row was pending, so its status is what settling returned.
    intro row hrow hc hs o ho hoc
    obtain ⟨row', hrow', hc', hp'⟩ := hp
    obtain rfl : row = row' := Ledger.eq_of_clOrdId hrow hrow' (hc.trans hc'.symm)
    rw [(hspec row).2.2.1 hp'] at hs ⊢
    exact settled_over hset (h.remote hh) hs (htrue hh) ho hoc

/-- Writing down a txid that is true of the order. -/
theorem LedgerOk.markSent (h : LedgerOk honest w) {c t : String}
    (hl : l.rows = (w.db.ledger.modify c (fun o => { o with txid := some t }) fun _ => rfl).rows)
    (hp : StillPending w.db.ledger c) (htrue : honest → ∃ o ∈ w.remote, o.clOrdId = c ∧ o.txid = t) :
    LedgerOk honest { w with db := { w.db with ledger := l } } := by
  refine h.modify hl (fun _ => rfl) ?_ fun hh => ?_
  · rintro o ⟨-, hnone⟩
    cases hnone
  · refine (h.remote hh).modify hl (fun _ => rfl) ?_ ?_
    · intro row t' ht
      obtain rfl := Option.some.inj ht
      exact Or.inr (htrue hh)
    · intro row hrow hc hs o ho hoc
      obtain ⟨row', hrow', hc', hp'⟩ := hp
      obtain rfl : row = row' := Ledger.eq_of_clOrdId hrow hrow' (hc.trans hc'.symm)
      exact absurd hp' hs

/-- Writing down a refusal of an order that does not exist. -/
theorem LedgerOk.markFailed (h : LedgerOk honest w) {c : String} {e : Option String}
    (htrue : honest → ∀ o ∈ w.remote, o.clOrdId ≠ c) :
    LedgerOk honest { w with db := { w.db with ledger := w.db.ledger.markFailed c e } } := by
  refine h.modify rfl (fun _ => rfl) ?_ fun hh => ?_
  · rintro o ⟨hfailed, -⟩
    cases hfailed
  · refine (h.remote hh).modify rfl (fun _ => rfl) (fun row t ht => Or.inl ht) ?_
    intro row hrow hc hs o ho hoc
    exact absurd hoc (htrue hh o ho)

end Writes

/-! ## Every permitted operation -/

/-- A permitted operation keeps the invariant. -/
theorem step_ledgerOk {honest : Prop} {i : Nat} {c : Request} {o : Op} {b : Ans o} {w w' : Rec}
    (hi : LedgerOk honest w.now) (hp : Permitted honest i c o w)
    (h : (system honest).recorded.step i c o w b w') : LedgerOk honest w'.now := by
  obtain ⟨hclock, hsessions, -⟩ := step_grows h
  have hquiet : w'.now.db.ledger = w.now.db.ledger → (honest → w'.now.remote = w.now.remote) →
      (honest → Timely ABSENCE_GRACE w.now.clock w.now.remote →
        Timely ABSENCE_GRACE w'.now.clock w'.now.remote) → LedgerOk honest w'.now := by
    intro hledger hremote htimely
    refine hi.later hledger hsessions fun hh => ⟨?_, htimely hh (hi.timely hh)⟩
    rw [hremote hh]
    exact Evolves.refl _
  cases hu : Op.underLock o with
  | false =>
    obtain ⟨hledger, hremote, htimely⟩ := step_outside h hu
    exact hquiet hledger hremote htimely
  | true =>
    obtain ⟨ha, -⟩ := h
    cases o with
    | post r =>
      cases r with
      | addOrder pair side volume id inQuote validate =>
        obtain rfl : validate = false := by
          cases validate with
          | false => rfl
          | true => cases hu
        obtain ⟨remote, heq, hremote⟩ := ha
        obtain ⟨⟨row, hrow, hc, hpend⟩, -, hfresh⟩ := hp.places id rfl
        rw [heq]
        refine ⟨hi.oneUnknown, hi.recorded, fun hh => ?_, fun hh => (hremote hh).2⟩
        rcases (hremote hh).1 with ⟨hsame, -⟩ | ⟨ro, hnew, hrc, hrat, htx, -⟩
        · change RemoteOk w.now.db.ledger remote
          rw [hsame]
          exact hi.remote hh
        · change RemoteOk w.now.db.ledger remote
          rw [hnew]
          have hat : attemptedAt w.now id = row.attemptedAt := by
            unfold attemptedAt
            rw [← hc, Ledger.getByClOrdId_of_mem hrow]
            rfl
          refine (hi.remote hh).place hrow hpend.1 (hrc.trans hc.symm) (hrat.trans hat) ?_ htx
          rw [hc]
          exact hfresh hh
      | _ => cases hu
    | tx t =>
      have hj := hp.writes t rfl
      rcases ha with ⟨e, -, -, heq⟩ | ⟨a, db, hrun, -, heq⟩
      · exact hquiet (by rw [heq]) (fun _ => by rw [heq]) fun _ ht => by rw [heq]; exact ht
      · have hframe : t.writesLedger = false → LedgerOk honest w'.now := by
          intro hw
          refine hquiet ?_ (fun _ => by rw [heq]) fun _ ht => by rw [heq]; exact ht
          rw [heq]
          exact Txn.ledger_of_run hrun hw
        cases t with
        | settle id k =>
          obtain ⟨l, hset, rfl⟩ := settle_run hrun
          rw [heq]
          exact hi.settle hset hj.1 hj.2
        | recordAttempt id leg reason at' s =>
          obtain ⟨l, o, rfl, hl, -, hunknown, -, -, hs, -⟩ := recordAttempt_run hrun
          rw [heq]
          exact hi.append hl hunknown hs hj.2 hj.1
        | markSent id t =>
          obtain ⟨l, rfl, hl⟩ := markSent_run hrun
          rw [heq]
          exact hi.markSent hl hj.1 hj.2
        | markFailed id e =>
          cases hrun
          rw [heq]
          exact hi.markFailed hj.2
        | _ => exact hframe rfl
    | _ => cases hu

/-- The rules of the ledger. -/
def ledgerRules (honest : Prop) : Contract (system honest).recorded where
  inv w := LedgerOk honest w.now
  rely i w w' := Kept honest i w w'
  guard i c o w := Permitted honest i c o w
  rely_refl i w := Kept.refl honest i w
  rely_trans h h' := h.trans h'
  env_ok hi h := by
    refine ⟨hi.later h.1.ledger ?_ h.1.remote, env_kept h⟩
    rw [h.1.sessions]
  died_ok hi := ⟨hi.later rfl le_rfl fun hh => ⟨Evolves.refl _, hi.timely hh⟩, fun _ hj => died_kept hj _⟩
  step_ok hi hp h := ⟨step_ledgerOk hi hp h, fun _ hj => step_kept hp h hj⟩

end Coinpilot.Safety
