import Coinpilot.Safety.Ledger
import Coinpilot.Core.Failures

/-!
# The holder of the lock

What a call knows while it holds the user's lock: the ledger is what it last saw or wrote, nobody else
adds to its exchanges, and the orders at Kraken only move on (`At`). One rule for each kind of operation
says how that knowledge changes.
-/

set_option autoImplicit false

namespace Coinpilot.Safety

open Coinpilot.Lib Coinpilot.Lib.Program Coinpilot.Exchange Coinpilot.Engine Coinpilot.Core

/-- Call `i` holds the lock over the ledger `l`, has had the exchanges `xs`, and it is past `n`, with
`s` evaluations recorded. -/
structure At (i : Nat) (n : Int) (s : Nat) (l : Ledger) (xs : List Exchanged) (w : Rec) : Prop where
  lock : w.now.lock = some i
  ledger : w.now.db.ledger = l
  posts : posts i w.past = xs
  clock : n ≤ w.now.clock
  sessions : s ≤ w.now.db.sessions.length

/-- A property of the orders at Kraken that their moving on does not touch. -/
def Durable (R : List RemoteOrder → Prop) : Prop := ∀ {K K' : List RemoteOrder}, Evolves K K' → R K → R K'

theorem durable_true : Durable fun _ => True := fun _ _ => trivial

section Rules

variable {honest : Prop} {i : Nat} {c : Request} {n : Int} {s : Nat} {l : Ledger} {xs : List Exchanged}
  {R : List RemoteOrder → Prop} {α β : Type} {locals : Locals} {w : Rec}

theorem At.kept {w' : Rec} (h : At i n s l xs w) (hk : Kept honest i w w') : At i n s l xs w' where
  lock := (hk.held h.lock).1
  ledger := (hk.held h.lock).2.1.trans h.ledger
  posts := hk.posts.trans h.posts
  clock := h.clock.trans hk.clock
  sessions := h.sessions.trans hk.sessions

theorem at_stable : (ledgerRules honest).Stable i (At i n s l xs) := fun h hk _ => h.kept hk

/-- A transaction is permitted where it is justified. -/
theorem permitted_tx {t : Txn} (hl : Op.underLock (.tx t) = true → w.now.lock = some i)
    (hj : Justified honest i w t) : Permitted honest i c (.tx t) w where
  lock := hl
  places clOrdId h := by cases h
  plans h := by cases h
  writes t' ht := by
    cases ht
    exact hj

/-- An operation that touches neither rows nor orders is permitted. -/
theorem permitted_idle {o : Op} (hl : Op.underLock o = false) (hc : o.creates = none)
    (hp : o.plans = false) (ht : ∀ t, o = .tx t → Justified honest i w t) :
    Permitted honest i c o w where
  lock h := by
    rw [hl] at h
    cases h
  places clOrdId h := by
    rw [hc] at h
    cases h
  plans h := by
    rw [hp] at h
    cases h
  writes := ht

/-- What a transaction changes. -/
theorem wp_tx {t : Txn} {Q : Except Exn t.Ans → Locals → Rec → Prop} (hR : Durable R)
    (hw : At i n s l xs w) (hr : honest → R w.now.remote)
    (hj : ∀ w₁, At i n s l xs w₁ → LedgerOk honest w₁.now → (honest → R w₁.now.remote) →
      Justified honest i w₁ t)
    (herror : ∀ e w₂, e.isUnavailable = false → At i n s l xs w₂ → Q (.error e) locals w₂)
    (hok : ∀ (a : t.Ans) db (w₁ w₂ : Rec), At i n s l xs w₁ → LedgerOk honest w₁.now →
      (honest → R w₁.now.remote) → t.run w₁.now.clock w₁.now.db = .ok (a, db) →
      w₂.now = { w₁.now with db } → At i n s db.ledger xs w₂ → Q (.ok a) locals w₂) :
    (transact t).Wp (ledgerRules honest) i c Q locals w := by
  refine wp_attempt ?_
  intro w₁ hk hi
  have hw₁ : At i n s l xs w₁ := hw.kept hk
  have hr₁ : honest → R w₁.now.remote := fun hh => hR ((hk.held hw.lock).2.2 hh) (hr hh)
  refine ⟨permitted_tx (fun _ => hw₁.lock) (hj w₁ hw₁ hi hr₁), ?_⟩
  · rintro b w₂ ⟨hs, hpast⟩ -
    have hposts : posts i w₂.past = xs := by
      rw [hpast, posts_cons_quiet _ rfl]
      exact hw₁.posts
    rcases hs with ⟨e, rfl, he, heq⟩ | ⟨a, db, hrun, rfl, heq⟩
    · refine herror e w₂ ?_ ⟨?_, ?_, hposts, ?_, ?_⟩
      · rcases he with rfl | he
        · rfl
        · exact Txn.run_available t _ _ e he
      · rw [heq]
        exact hw₁.lock
      · rw [heq]
        exact hw₁.ledger
      · rw [heq]
        exact hw₁.clock
      · rw [heq]
        exact hw₁.sessions
    · refine hok a db w₁ w₂ hw₁ hi hr₁ hrun heq ⟨?_, ?_, hposts, ?_, ?_⟩
      · rw [heq]
        exact hw₁.lock
      · rw [heq]
      · rw [heq]
        exact hw₁.clock
      · rw [heq]
        exact hw₁.sessions.trans (Txn.sessions_of_run hrun)

/-- A transaction that writes no row and closes no evaluation. -/
theorem wp_tx_quiet {t : Txn} {Q : Except Exn t.Ans → Locals → Rec → Prop} (hw : At i n s l xs w)
    (ht : t.writesLedger = false) (hfin : ∀ id status at' log, t ≠ .finishEvaluation id status at' log)
    (herror : ∀ e w₂, e.isUnavailable = false → At i n s l xs w₂ → Q (.error e) locals w₂)
    (hok : ∀ (a : t.Ans) now (db db' : Db), db.ledger = l → t.run now db = .ok (a, db') → ∀ w₂,
      At i n s l xs w₂ → Q (.ok a) locals w₂) :
    (transact t).Wp (ledgerRules honest) i c Q locals w := by
  refine wp_tx durable_true hw (fun _ => trivial) ?_ herror ?_
  · intro w₁ _ _ _
    cases t with
    | settle id k => cases ht
    | recordAttempt id leg reason at' id' => cases ht
    | markFailed id e => cases ht
    | markSent id t => cases ht
    | finishEvaluation id status at' log => exact absurd rfl (hfin id status at' log)
    | _ => trivial
  · intro a db w₁ w₂ hw₁ _ _ hrun _ hw₂
    rw [Txn.ledger_of_run hrun ht, hw₁.ledger] at hw₂
    exact hok a _ _ db hw₁.ledger hrun w₂ hw₂

/-- What an exchange with Kraken adds. -/
theorem wp_post {r : PrivateCall} {Q : Except Exn HttpOutcome → Locals → Rec → Prop} (hR : Durable R)
    (hw : At i n s l xs w) (hr : honest → R w.now.remote)
    (hplaces : ∀ w₁ clOrdId, At i n s l xs w₁ → LedgerOk honest w₁.now → (honest → R w₁.now.remote) →
      r.creates = some clOrdId → WriteAhead honest i clOrdId w₁)
    (hplans : r = .balance → ∀ row ∈ l.rows, row.status ≠ .pending)
    (hQ : ∀ answer (w₁ w₂ : Rec), At i n s l xs w₁ → LedgerOk honest w₁.now →
      (honest → R w₁.now.remote) → (honest → Answers (attemptedAt w₁.now) r w₁.now.remote answer
        w₂.now.remote) → LedgerOk honest w₂.now → At i n s l ((r, answer) :: xs) w₂ →
      Q (.ok answer) locals w₂) :
    (privateClient.post r).Wp (ledgerRules honest) i c Q locals w := by
  refine wp_perform ?_
  intro w₁ hk hi
  have hw₁ : At i n s l xs w₁ := hw.kept hk
  have hr₁ : honest → R w₁.now.remote := fun hh => hR ((hk.held hw.lock).2.2 hh) (hr hh)
  refine ⟨⟨fun _ => hw₁.lock, ?_, ?_, by intro t ht; cases ht⟩, ?_⟩
  · intro clOrdId hc
    exact hplaces w₁ clOrdId hw₁ hi hr₁ hc
  · intro hp _
    have hbalance : r = .balance := by
      cases r with
      | balance => rfl
      | _ => cases hp
    rw [hw₁.ledger]
    exact hplans hbalance
  · rintro answer w₂ ⟨⟨remote, heq, hremote⟩, hpast⟩ hi₂
    refine hQ answer w₁ w₂ hw₁ hi hr₁ (fun hh => ?_) hi₂ ⟨?_, ?_, ?_, ?_, ?_⟩
    · rw [heq]
      exact (hremote hh).1
    · rw [heq]
      exact hw₁.lock
    · rw [heq]
      exact hw₁.ledger
    · rw [hpast]
      exact (posts_cons_post _).trans (congrArg _ hw₁.posts)
    · rw [heq]
      exact hw₁.clock
    · rw [heq]
      exact hw₁.sessions

/-- The clock. -/
theorem wp_currentTime {Q : Except Exn Int → Locals → Rec → Prop} (hw : At i n s l xs w)
    (hQ : ∀ t w₂, n ≤ t → At i t s l xs w₂ → Q (.ok t) locals w₂) :
    currentTime.Wp (ledgerRules honest) i c Q locals w := by
  refine wp_perform ?_
  intro w₁ hk _
  have hw₁ : At i n s l xs w₁ := hw.kept hk
  refine ⟨permitted_idle rfl rfl rfl (by intro t ht; cases ht), ?_⟩
  rintro t w₂ ⟨⟨rfl, heq⟩, hpast⟩ _
  refine hQ _ w₂ hw₁.clock ⟨?_, ?_, ?_, ?_, ?_⟩
  · rw [heq]
    exact hw₁.lock
  · rw [heq]
    exact hw₁.ledger
  · rw [hpast, posts_cons_quiet _ rfl]
    exact hw₁.posts
  · rw [heq]
  · rw [heq]
    exact hw₁.sessions

/-- An operation that neither writes rows, nor has an exchange, nor touches the lock. -/
theorem at_same {o : Op} {b : Ans o} {w₁ w₂ : Rec} (hw : At i n s l xs w₁)
    (hs : (system honest).recorded.step i c o w₁ b w₂) (ho : w₂.now = w₁.now)
    (hpost : exchangeOf ⟨i, c, o, b, w₁.now, w₂.now⟩ = none) :
    At i n s l xs w₂ := by
  refine ⟨?_, ?_, ?_, ?_, ?_⟩
  · rw [ho]
    exact hw.lock
  · rw [ho]
    exact hw.ledger
  · rw [hs.2, posts_cons_quiet _ hpost]
    exact hw.posts
  · rw [ho]
    exact hw.clock
  · rw [ho]
    exact hw.sessions

theorem wp_newClOrdId {Q : Except Exn String → Locals → Rec → Prop} (hw : At i n s l xs w)
    (hQ : ∀ id w₂, At i n s l xs w₂ → Q (.ok id) locals w₂) :
    newClOrdId.Wp (ledgerRules honest) i c Q locals w := by
  refine wp_perform ?_
  intro w₁ hk _
  refine ⟨permitted_idle rfl rfl rfl (by intro t ht; cases ht), ?_⟩
  intro id w₂ hs _
  exact hQ id w₂ (at_same (hw.kept hk) hs hs.1 rfl)

end Rules

end Coinpilot.Safety
