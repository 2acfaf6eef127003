import Coinpilot.Safety.Sending

/-!
# Placing orders under the lock

One order, from the row that is written down first to what is written down of the answer (`wp_send`),
and the loops over the sells and the buys, which keep `Sending` (`wp_sendAll`).
-/

set_option autoImplicit false

namespace Coinpilot.Safety

open Coinpilot.Lib Coinpilot.Lib.Program Coinpilot.Exchange Coinpilot.Engine Coinpilot.Core

/-- What the answer to a placement says is true: refused, there is no such order; sent, there is one
with this txid. -/
def PlacedTrue (clOrdId : String) (p : Placement) (K : List RemoteOrder) : Prop :=
  (p.outcome = .refused → ∀ o ∈ K, o.clOrdId ≠ clOrdId) ∧
    ∀ t, p.outcome = .sent → p.txid = some t → ∃ o ∈ K, o.clOrdId = clOrdId ∧ o.txid = t

theorem durable_fresh (clOrdId : String) : Durable fun K => ∀ o ∈ K, o.clOrdId ≠ clOrdId := by
  intro K K' hK h o' ho' hc
  obtain ⟨o, ho, hl⟩ := hK.before ho'
  exact h o ho (hl.1.symm.trans hc)

theorem durable_named (clOrdId t : String) :
    Durable fun K => ∃ o ∈ K, o.clOrdId = clOrdId ∧ o.txid = t := by
  rintro K K' hK ⟨o, ho, hc, ht⟩
  obtain ⟨o', ho', hl⟩ := hK.after ho
  exact ⟨o', ho', hl.1.trans hc, hl.2.1.trans ht⟩

theorem durable_placedTrue (clOrdId : String) (p : Placement) : Durable (PlacedTrue clOrdId p) := by
  intro K K' hK h
  refine ⟨fun hr => durable_fresh clOrdId hK (h.1 hr), ?_⟩
  intro t hs ht
  exact durable_named clOrdId t hK (h.2 t hs ht)

theorem Placed.placedTrue {at' : Int} {clOrdId : String} {K K' : List RemoteOrder} {p : Placement}
    (h : Placed at' clOrdId K p K') (hnew : ∀ o ∈ K, o.clOrdId ≠ clOrdId) : PlacedTrue clOrdId p K' := by
  rcases h with ⟨rfl, hsent⟩ | ⟨o, rfl, hc, -, -, hrefused, htx⟩
  · exact ⟨fun _ => hnew, fun t hs => absurd hs hsent⟩
  · refine ⟨fun hr => absurd hr hrefused, fun t hs ht => ?_⟩
    rw [htx hs] at ht
    exact ⟨o, by simp, hc, Option.some.inj ht⟩

section Rules

variable {honest : Prop} {i : Nat} {c : Request} {n : Int} {s id : Nat} {l : Ledger}
  {xs : List Exchanged} {locals : Locals} {w : Rec}

theorem At.later_clock {t : Int} (h : At i t s l xs w) (ht : n ≤ t) : At i n s l xs w where
  lock := h.lock
  ledger := h.ledger
  posts := h.posts
  clock := ht.trans h.clock
  sessions := h.sessions

/-- Placing one order, whose row comes last and is written down. -/
theorem wp_place {leg : PlannedLeg} {l₁ : Ledger} {row : Order}
    {Q : Except Exn Placement → Locals → Rec → Prop} (hrows : l₁.rows = l.rows ++ [row])
    (hu : row.unknown) (hs : Sending id false locals.legs l xs) (hw : At i n s l₁ xs w)
    (hfresh : honest → ∀ o ∈ w.now.remote, o.clOrdId ≠ row.clOrdId)
    (herror : ∀ w₂, At i n s l₁ xs w₂ → Q (.error (.python .typeError)) locals w₂)
    (hok : ∀ (x : Exchanged) w₂, x.1.creates = some row.clOrdId → At i n s l₁ (x :: xs) w₂ →
      (honest → PlacedTrue row.clOrdId (readPlacement false x.2) w₂.now.remote) →
      Q (.ok (readPlacement false x.2)) locals w₂) :
    (place leg row.clOrdId false).Wp (ledgerRules honest) i c Q locals w := by
  -- One order, whatever its side.
  have hpost : ∀ pair side volume inQuote,
      (privateClient.post (.addOrder pair side volume row.clOrdId inQuote false)).Wp (ledgerRules honest)
        i c (fun r locals w => match r with
          | .ok answer => Q (.ok (readPlacement false answer)) locals w
          | .error e => Q (.error e) locals w) locals w := by
    intro pair side volume inQuote
    refine wp_post (durable_fresh row.clOrdId) hw hfresh ?_ nofun ?_
    · intro w₁ clOrdId hw₁ hi₁ hnew hcreates
      obtain rfl : row.clOrdId = clOrdId := Option.some.inj hcreates
      refine ⟨⟨row, ?_, rfl, hu⟩, ?_, hnew⟩
      · rw [hw₁.ledger, hrows]
        simp
      · intro r hr hne hp
        rw [hw₁.ledger, hrows] at hr
        rcases List.mem_append.mp hr with hr | hr
        · cases ht : r.txid with
          | none => exact absurd ⟨hp, ht⟩ (hs.go rfl r hr)
          | some t => exact ⟨t, rfl, by rw [hw₁.posts]; exact hs.ours r hr hp t ht⟩
        · rw [List.mem_singleton] at hr
          exact absurd (congrArg Order.clOrdId hr) hne
    · intro answer w₁ w₂ _ _ hnew hans _ hw₂
      refine hok (_, answer) w₂ rfl hw₂ fun hh => ?_
      exact Placed.placedTrue (hans hh) (hnew hh)
  unfold place
  cases leg.side with
  | buy =>
    refine wp_bind (Proc.wp_mono (hpost leg.pair "buy" leg.amount true) ?_)
    rintro (e | answer) l' w' h
    · exact h
    · exact h
  | sell =>
    cases leg.volume with
    | none => exact herror w hw
    | some volume =>
      refine wp_bind (Proc.wp_mono (hpost leg.pair "sell" volume false) ?_)
      rintro (e | answer) l' w' h
      · exact h
      · exact h

/-- What is written down of the answer to the last row's order. -/
theorem wp_recordPlacement {l₁ : Ledger} {row : Order} {x : Exchanged}
    {Q : Except Exn Unit → Locals → Rec → Prop} (hrows : l₁.rows = l.rows ++ [row]) (hu : row.unknown)
    (hnew : ∀ r ∈ l.rows, r.clOrdId ≠ row.clOrdId) (hx : x.1.creates = some row.clOrdId)
    (hw : At i n s l₁ (x :: xs) w)
    (hplaced : honest → PlacedTrue row.clOrdId (readPlacement false x.2) w.now.remote)
    (herror : ∀ (e : Exn) (w₂ : Rec), e.isUnavailable = false → w₂.now.lock = some i →
      Q (.error e) locals w₂)
    (hok : ∀ (l' : Ledger) (row' : Order) xs' w₂, l'.rows = l.rows ++ [row'] →
      row'.clOrdId = row.clOrdId → row'.sessionId = row.sessionId → Became row' x xs xs' →
      At i n s l' xs' w₂ → Q (.ok ()) locals w₂) :
    (recordPlacement row.clOrdId (readPlacement false x.2)).Wp (ledgerRules honest) i c Q locals w := by
  have hmem : row ∈ l₁.rows := by
    rw [hrows]
    simp
  have hstill : ∀ w₁, At i n s l₁ (x :: xs) w₁ → StillPending w₁.now.db.ledger row.clOrdId := by
    intro w₁ hw₁
    exact ⟨row, hw₁.ledger ▸ hmem, rfl, hu.1⟩
  unfold recordPlacement
  cases hout : (readPlacement false x.2).outcome with
  | validated => exact absurd hout readPlacement_validated
  | unknown =>
    have hlost : Lost x := ⟨by rw [hx]; rfl, hout⟩
    exact hok l₁ row (x :: xs) w hrows rfl rfl (.lost hu hlost) hw
  | refused =>
    refine wp_tx (durable_placedTrue _ _) hw hplaced ?_ ?_ ?_
    · intro w₁ hw₁ _ hp₁
      exact ⟨hstill w₁ hw₁, fun hh => (hp₁ hh).1 hout⟩
    · intro e w₂ he hw₂
      exact herror e w₂ he hw₂.lock
    · intro _ db w₁ w₂ hw₁ _ _ hrun _ hw₂
      cases hrun
      rw [hw₁.ledger] at hw₂
      have hfailed := Ledger.markFailed_append hrows rfl hnew (readPlacement false x.2).error
      obtain ⟨row', hrows', hc, hsession, hstatus⟩ := hfailed
      refine hok _ row' (x :: xs) w₂ hrows' hc hsession ?_ hw₂
      refine .refused hstatus ?_ ?_
      · rintro ⟨-, hlost⟩
        rw [hout] at hlost
        cases hlost
      · rintro c' t ⟨-, hacc⟩
        rw [hacc] at hout
        cases hout
  | sent =>
    obtain ⟨t, hsent⟩ := readPlacement_sent hout
    have hacc : AcceptedAs x row.clOrdId t := ⟨hx, hsent⟩
    rw [show (readPlacement false x.2).txid = some t by rw [hsent]]
    -- The txid is written down, and then the fill is read.
    refine wp_bind (wp_tx (durable_placedTrue _ _) hw hplaced ?_ ?_ ?_)
    · intro w₁ hw₁ _ hp₁
      refine ⟨hstill w₁ hw₁, fun hh => (hp₁ hh).2 t hout ?_⟩
      rw [hsent]
    · intro e w₂ he hw₂
      exact herror e w₂ he hw₂.lock
    · intro _ db w₁ w₂ hw₁ _ _ hrun _ hw₂
      obtain ⟨l₂, rfl, hl₂⟩ := markSent_run hrun
      rw [hw₁.ledger, Ledger.modify_append hrows rfl hnew] at hl₂
      replace hw₂ : At i n s l₂ (x :: xs) w₂ := hw₂
      have hmem₂ : ({ row with txid := some t } : Order) ∈ l₂.rows := by
        rw [hl₂]
        simp
      refine wp_bind (wp_findOrderByTxid durable_true hw₂ (fun _ => trivial) ?_ ?_)
      · intro e answer w₃ hw₃
        exact herror _ w₃ rfl hw₃.lock
      · intro lookup entries answer w₃ hread hpick hw₃ hi₃ _ htrue
        -- What was found is the order of this row.
        have hreported : honest → Reported w₃.now.remote row.clOrdId n lookup := by
          intro hh
          cases lookup with
          | none => trivial
          | some k =>
            obtain ⟨o, ho, hot, hk⟩ := htrue hh k rfl
            obtain ⟨o', ho', hoc, hot'⟩ := (hi₃.remote hh).named _ (hw₃.ledger ▸ hmem₂) t rfl
            obtain rfl : o = o' := (hi₃.remote hh).eq_of_txid ho ho' (hot.trans hot'.symm)
            simp only [Reported, pickQueried_txid hpick]
            exact ⟨o, ho, hoc, hot, hk⟩
        have hfound : ∀ k, lookup = some k → k.txid = some t := by
          rintro k rfl
          exact pickQueried_txid hpick
        refine wp_bind (wp_tx (durable_reported _ _ _) hw₃ hreported ?_ ?_ ?_)
        · intro w₄ hw₄ _ hrep
          refine ⟨⟨{ row with txid := some t }, hw₄.ledger ▸ hmem₂, rfl, hu.1⟩, fun hh => ?_⟩
          have hr := hrep hh
          cases lookup with
          | none => trivial
          | some k =>
            simp only [Reported, hfound k rfl] at hr
            simp only [Truthful, hfound k rfl]
            exact hr
        · intro e w₄ he hw₄
          exact herror e w₄ he hw₄.lock
        · intro status db w₄ w₅ hw₄ _ _ hrun _ hw₅
          obtain ⟨l₃, hset, rfl⟩ := settle_run hrun
          rw [hw₄.ledger] at hset
          obtain ⟨f, hf, hl₃, hspec⟩ := hset.rows
          rw [Ledger.modify_append hl₂ rfl hnew] at hl₃
          obtain ⟨hsession, -, hstatus, -, htxid⟩ := hspec { row with txid := some t }
          have hstatus : (f { row with txid := some t }).status = status := hstatus hu.1
          have htxid : (f { row with txid := some t }).txid = some t := by
            rcases htxid with h | ⟨k, t', hk, ht', h⟩
            · exact h
            · rw [hfound k hk] at ht'
              rw [h, ht']
          have hfinished : status ≠ .pending ↔ FillRead t (.queryOrders t, answer) := by
            rw [hset.finished fun k hk => by rw [hfound k hk]; exact Option.some_ne_none t]
            constructor
            · rintro ⟨k, rfl, hfin⟩
              exact ⟨rfl, entries, k, hread, hpick, hfin⟩
            · rintro ⟨-, entries', k, hread', hpick', hfin⟩
              obtain rfl : entries = entries' := Except.ok.inj (hread.symm.trans hread')
              exact ⟨k, Except.ok.inj (hpick.symm.trans hpick'), hfin⟩
          have hc : (f { row with txid := some t }).clOrdId = row.clOrdId := hf _
          refine hok l₃ _ _ w₅ hl₃ hc hsession ?_ hw₅
          rw [← hc] at hacc
          by_cases hdone : status = .pending
          · refine .unread hacc rfl (fun h => hfinished.mpr h hdone) (hstatus.trans hdone) htxid
          · exact .read hacc (hfinished.mp hdone) (hstatus ▸ hdone)

/-- One order: its row first, then the order, then what is written down of the answer. -/
theorem wp_send {leg : PlannedLeg} {reason : OrderReason} {Q : Except Exn LegResult → Locals → Rec → Prop}
    (hid : id < s) (hs : Sending id false locals.legs l xs) (hw : At i n s l xs w)
    (herror : ∀ (e : Exn) (w₂ : Rec), e.isUnavailable = false → w₂.now.lock = some i →
      Q (.error e) locals w₂)
    (hok : ∀ result l' xs' w₂, Attempted id l xs result l' xs' → At i n s l' xs' w₂ →
      Q (.ok result) locals w₂) :
    (send id leg reason).Wp (ledgerRules honest) i c Q locals w := by
  refine wp_bind (wp_newClOrdId hw ?_)
  intro clOrdId w hw
  refine wp_bind (wp_currentTime hw ?_)
  intro at' w hn hw
  replace hw : At i n s l xs w := hw.later_clock hn
  -- The attempt is written down.
  refine wp_bind (wp_tx durable_true hw (fun _ => trivial) ?_ ?_ ?_)
  · intro w₁ hw₁ _ _
    exact ⟨hw₁.ledger ▸ hs.go rfl, hid.trans_le hw₁.sessions⟩
  · intro e w₂ he hw₂
    exact herror e w₂ he hw₂.lock
  intro _ db w₁ w₂ hw₁ hi₁ _ hrun hnow hw₂
  obtain ⟨l₁, row, rfl, hrows, rfl, hu, -, -, hsession, hnew⟩ := recordAttempt_run hrun
  rw [hw₁.ledger] at hrows hnew
  have hfresh : honest → ∀ o ∈ w₂.now.remote, o.clOrdId ≠ row.clOrdId := by
    intro hh o ho hc
    rw [hnow] at ho
    obtain ⟨r, hr, hrc, -⟩ := (hi₁.remote hh).rows o ho
    rw [hw₁.ledger] at hr
    exact hnew r hr (hrc.trans hc)
  refine wp_bind (wp_place hrows hu hs hw₂ hfresh ?_ ?_)
  · intro w₃ hw₃
    exact herror _ w₃ rfl hw₃.lock
  intro x w₃ hx hw₃ hplaced
  refine wp_bind (wp_recordPlacement hrows hu hnew hx hw₃ hplaced herror ?_)
  intro l' row' xs' w₄ hrows' hc hsession' hb hw₄
  have hmem : row' ∈ l'.rows := by
    rw [hrows']
    simp
  refine wp_bind (wp_tx_quiet hw₄ rfl nofun ?_ ?_)
  · intro e w₅ he hw₅
    exact herror e w₅ he hw₅.lock
  intro order now db db' hdb hrun w₅ hw₅
  have horder : order = some row' := by
    cases hrun
    rw [hdb, ← hc]
    exact Ledger.getByClOrdId_of_mem hmem
  subst horder
  refine hok _ l' xs' w₅ ⟨row', x, hrows', hsession'.trans hsession, rfl, rfl, ?_, hb⟩ hw₅
  rw [hc]
  exact hx

/-! ## The loops -/

/-- What holds between two orders, in the world. -/
def SendingIn (i : Nat) (n : Int) (s id : Nat) (stopped : Bool) (locals : Locals) (w : Rec) : Prop :=
  ∃ l xs, Sending id stopped locals.legs l xs ∧ At i n s l xs w

/-- How sending fails: the lock is still held, and Kraken was read. -/
def FailedIn (i : Nat) (e : Exn) (w : Rec) : Prop := e.isUnavailable = false ∧ w.now.lock = some i

theorem wp_attemptLeg {leg : PlannedLeg} {reason : OrderReason} {stopped : Bool} {snapshot : Nat}
    (hid : id < s) (h : SendingIn i n s id stopped locals w) :
    (attemptLeg id leg reason stopped snapshot).Wp (ledgerRules honest) i c
      (fun r locals w => match r with
        | .ok (result, stopped) => SendingIn i n s id stopped
            { locals with legs := locals.legs ++ [result] } w
        | .error e => FailedIn i e w) locals w := by
  obtain ⟨l, xs, hs, hw⟩ := h
  unfold attemptLeg
  cases leg.note with
  | some note => exact ⟨l, xs, hs.skip rfl, hw⟩
  | none =>
    cases stopped with
    | true => exact ⟨l, xs, hs.skip rfl, hw⟩
    | false =>
      have hsend : ∀ (locals : Locals) (w : Rec), Sending id false locals.legs l xs → At i n s l xs w →
          Proc.Wp (ledgerRules honest) i c (do
            let result ← send id leg reason
            return (result, result.status = .pending && result.txid = none))
          (fun r locals w => match r with
            | .ok (result, stopped) => SendingIn i n s id stopped
                { locals with legs := locals.legs ++ [result] } w
            | .error e => FailedIn i e w) locals w := by
        intro locals w hs hw
        refine wp_bind (wp_send hid hs hw ?_ ?_)
        · intro e w₂ he hl
          exact ⟨he, hl⟩
        · intro result l' xs' w₂ ha hw₂
          exact ⟨l', xs', hs.attempt ha, hw₂⟩
      -- Pinning the snapshot changes neither the rows nor the results.
      refine wp_bind ?_
      unfold pin
      refine wp_bind (wp_getLocals ?_)
      by_cases hp : locals.pinned = true
      · simp only [hp, if_true]
        exact hsend locals w hs hw
      · simp only [hp]
        refine wp_bind (wp_tx_quiet hw rfl nofun ?_ ?_)
        · intro e w₂ he hw₂
          exact ⟨he, hw₂.lock⟩
        · intro _ _ _ _ _ _ w₂ hw₂
          exact hsend _ w₂ hs hw₂

theorem wp_sendLeg {leg : PlannedLeg} {reason : OrderReason} {fiat : String} {stopped : Bool}
    {snapshot : Nat} (hid : id < s) (h : SendingIn i n s id stopped locals w) :
    (sendLeg id leg reason fiat stopped snapshot).Wp (ledgerRules honest) i c
      (fun r locals w => match r with
        | .ok (_, stopped) => SendingIn i n s id stopped locals w
        | .error e => FailedIn i e w) locals w := by
  refine wp_bind (Proc.wp_mono (wp_attemptLeg hid h) ?_)
  rintro (e | ⟨result, stopped'⟩) locals w h
  · exact h
  · exact h

theorem wp_sendSells {reason : OrderReason} {fiat : String} {snapshot : Nat} {places : Int}
    (hid : id < s) (legs : List PlannedLeg) (stopped : Bool) (budget : Option Rat) {locals : Locals}
    {w : Rec} (h : SendingIn i n s id stopped locals w) :
    (sendSells id reason fiat snapshot places legs stopped budget).Wp (ledgerRules honest) i c
      (fun r locals w => match r with
        | .ok (stopped, _) => SendingIn i n s id stopped locals w
        | .error e => FailedIn i e w) locals w := by
  induction legs generalizing stopped budget locals w with
  | nil => exact h
  | cons leg rest ih =>
    refine wp_bind (Proc.wp_mono (wp_sendLeg hid h) ?_)
    rintro (e | ⟨result, stopped'⟩) locals w h
    · exact h
    · dsimp only
      split
      · obtain ⟨l, xs, -, hw⟩ := h
        exact ⟨rfl, hw.lock⟩
      · exact ih stopped' _ h

theorem wp_sendBuys {reason : OrderReason} {fiat : String} {snapshot : Nat} (hid : id < s)
    (legs : List PlannedLeg) (stopped : Bool) {locals : Locals} {w : Rec}
    (h : SendingIn i n s id stopped locals w) :
    (sendBuys id reason fiat snapshot legs stopped).Wp (ledgerRules honest) i c
      (fun r locals w => match r with
        | .ok stopped => SendingIn i n s id stopped locals w
        | .error e => FailedIn i e w) locals w := by
  induction legs generalizing stopped locals w with
  | nil => exact h
  | cons leg rest ih =>
    refine wp_bind (Proc.wp_mono (wp_sendLeg hid h) ?_)
    rintro (e | ⟨result, stopped'⟩) locals w h
    · exact h
    · exact ih stopped' h

/-- Sending a plan. -/
theorem wp_sendAll {planned : Planned} {reason : OrderReason} {fiat : String} {snapshot : Nat}
    (hid : id < s) (h : SendingIn i n s id false locals w) :
    (sendAll id planned reason fiat snapshot).Wp (ledgerRules honest) i c
      (fun r locals w => match r with
        | .ok stopped => SendingIn i n s id stopped locals w
        | .error e => FailedIn i e w) locals w := by
  refine wp_bind (Proc.wp_mono (wp_sendSells hid _ _ _ h) ?_)
  rintro (e | ⟨stopped, budget⟩) locals w h
  · exact h
  · dsimp only
    split
    · obtain ⟨l, xs, -, hw⟩ := h
      exact ⟨rfl, hw.lock⟩
    · exact wp_sendBuys hid _ stopped h

end Rules

end Coinpilot.Safety
