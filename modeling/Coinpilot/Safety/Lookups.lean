import Coinpilot.Safety.Holder

/-!
# What a lookup says is true

A lookup under the lock says something true of the orders at Kraken, where Kraken is honest
(`Reported`). For an absence the grace matters: an order that may still be listed was attempted less
than the grace ago, and one that moved from open to closed in between is seen by the second listing.
-/

set_option autoImplicit false

namespace Coinpilot.Safety

open Coinpilot.Lib Coinpilot.Lib.Program Coinpilot.Exchange Coinpilot.Engine Coinpilot.Core

/-! ## Truth -/

/-- What a lookup of `clOrdId`, begun at `n`, says. An absence speaks of orders attempted the grace
before `n`. -/
def Reported (K : List RemoteOrder) (clOrdId : String) (n : Int) : Option OrderLookup → Prop
  | none => True
  | some found =>
      match found.txid with
      | none => ∀ o ∈ K, o.clOrdId = clOrdId → o.attemptedAt + ABSENCE_GRACE ≤ n → o.phase = .gone
      | some t => ∃ o ∈ K, o.clOrdId = clOrdId ∧ o.txid = t ∧ TrueOf o found

/-- A closed order stays as it was read. -/
theorem TrueOf.later {o o' : RemoteOrder} {found : OrderLookup} (h : TrueOf o found) (hl : o.Later o') :
    TrueOf o' found := by
  intro hfin
  obtain ⟨hclosed, hv⟩ := h hfin
  rw [hl.2.2.2.eq_of_isOver (Phase.isOver_of_isClosed hclosed)]
  exact ⟨hclosed, hv⟩

theorem durable_reported (clOrdId : String) (n : Int) (lookup : Option OrderLookup) :
    Durable fun K => Reported K clOrdId n lookup := by
  intro K K' hK h
  cases lookup with
  | none => trivial
  | some found =>
    simp only [Reported] at h ⊢
    cases ht : found.txid with
    | none =>
      simp only [ht] at h
      intro o' ho' hc hat
      obtain ⟨o, ho, hid, -, hat', hl⟩ := hK.before ho'
      have hgone : o.phase = .gone := h o ho (hid.symm.trans hc) (hat' ▸ hat)
      rw [hgone] at hl
      exact hl
    | some t =>
      simp only [ht] at h
      obtain ⟨o, ho, hc, htx, htrue⟩ := h
      obtain ⟨o', ho', hl⟩ := hK.after ho
      exact ⟨o', ho', hl.1.trans hc, hl.2.1.trans htx, htrue.later hl⟩

/-- What is reported of a row that was attempted long enough ago is true. -/
theorem Reported.truthful {l : Ledger} {K : List RemoteOrder} {row : Order} {n : Int}
    {lookup : Option OrderLookup} (h : Reported K row.clOrdId n lookup) (hK : RemoteOk l K)
    (hrow : row ∈ l.rows) (hgrace : tooSoon n row.attemptedAt lookup = false) :
    Truthful K row.clOrdId lookup := by
  cases lookup with
  | none => trivial
  | some found =>
    simp only [Reported, Truthful] at h ⊢
    cases ht : found.txid with
    | some t => simpa only [ht] using h
    | none =>
      simp only [ht] at h
      intro o ho hc
      -- The order was attempted when its row says.
      obtain ⟨row', hrow', hc', hat⟩ := hK.rows o ho
      obtain rfl : row' = row := Ledger.eq_of_clOrdId hrow' hrow (hc'.trans hc)
      refine h o ho hc ?_
      rw [← hat]
      have hlate : ¬(n - row'.attemptedAt < ABSENCE_GRACE) := by simpa [tooSoon, ht] using hgrace
      omega

/-- A true entry gives a true lookup. -/
theorem trueOf_entry {o : RemoteOrder} {entry : Json} {found : OrderLookup} (h : TrueEntry o entry)
    (hl : lookup o.txid entry = .ok found) : TrueOf o found := by
  obtain ⟨hclosed, hv⟩ := h found hl
  intro hfin
  refine ⟨hclosed ?_, hv⟩
  simpa [isFinished] using hfin

theorem items_of_falsy {j : Json} {entries : List (String × Json)} (h : j.truthy = false)
    (hi : j.items = .ok entries) : entries = [] := by
  cases j with
  | obj fields =>
    cases hi
    simpa [Json.truthy] using h
  | _ => cases hi

/-- What a true listing shows. -/
theorem listing_found {K : List RemoteOrder} {here : Phase → Bool} {key clOrdId : String}
    {answer : HttpOutcome} (h : TrueListing K here key clOrdId answer) {orders : Json}
    (hr : readListing key answer = .ok (some orders)) {found : OrderLookup}
    (hs : sight clOrdId (some orders) = .ok (.found found)) :
    ∃ t, found.txid = some t ∧ ∃ o ∈ K, o.clOrdId = clOrdId ∧ o.txid = t ∧ TrueOf o found := by
  rcases sight_some hs with ⟨hno, -⟩ | ⟨entries, hi, ⟨l, hl, hm⟩ | hno⟩
  · cases hno
  · cases hl
    obtain ⟨e, he, hl, raw, hget, hecho⟩ := matchOrder_txid hm
    obtain ⟨o, ho, hc, htx, htrue⟩ := (h orders hr).1 entries hi e he raw hget hecho
    refine ⟨e.1, lookup_txid hl, o, ho, hc, htx, trueOf_entry htrue ?_⟩
    rw [htx]
    exact hl
  · cases hno

/-- What a true listing that has nothing leaves out. -/
theorem listing_notHere {K : List RemoteOrder} {here : Phase → Bool} {key clOrdId : String}
    {answer : HttpOutcome} (h : TrueListing K here key clOrdId answer) {orders : Json}
    (hr : readListing key answer = .ok (some orders))
    (hs : sight clOrdId (some orders) = .ok .notHere) :
    ∀ o ∈ K, o.clOrdId = clOrdId → here o.phase = false := by
  intro o ho hc
  rcases sight_some hs with ⟨-, hfalsy⟩ | ⟨entries, hi, ⟨l, hl, -⟩ | hno⟩
  · cases hhere : here o.phase with
    | false => rfl
    | true =>
      obtain ⟨entries, entry, hi, hmem, -⟩ := (h orders hr).2 o ho hc hhere
      rw [items_of_falsy hfalsy hi] at hmem
      cases hmem
  · cases hl
  · cases hno

theorem sight_notHere_some {clOrdId : String} {raw : Option Json}
    (h : sight clOrdId raw = .ok .notHere) : ∃ orders, raw = some orders := by
  cases raw with
  | none => cases h
  | some orders => exact ⟨orders, rfl⟩

theorem sight_found_some {clOrdId : String} {raw : Option Json} {found : OrderLookup}
    (h : sight clOrdId raw = .ok (.found found)) : ∃ orders, raw = some orders := by
  cases raw with
  | none => cases h
  | some orders => exact ⟨orders, rfl⟩

/-! ## Lookups under the lock -/

section Rules

variable {honest : Prop} {i : Nat} {c : Request} {n : Int} {s : Nat} {l : Ledger} {xs : List Exchanged}
  {R : List RemoteOrder → Prop} {α : Type} {locals : Locals} {w : Rec}

/-- A read, and how its answer is read. -/
theorem wp_read {r : PrivateCall} {reader : HttpOutcome → Except PyError α}
    {Q : Except Exn α → Locals → Rec → Prop} (hR : Durable R) (hw : At i n s l xs w)
    (hr : honest → R w.now.remote) (hcreates : r.creates = none) (hbalance : r ≠ .balance)
    (herror : ∀ e answer w₂, At i n s l ((r, answer) :: xs) w₂ → Q (.error (.python e)) locals w₂)
    (hok : ∀ a answer (w₁ w₂ : Rec), reader answer = .ok a → At i n s l xs w₁ →
      LedgerOk honest w₁.now → (honest → R w₁.now.remote) →
      (honest → Answers (attemptedAt w₁.now) r w₁.now.remote answer w₂.now.remote) →
      LedgerOk honest w₂.now → At i n s l ((r, answer) :: xs) w₂ → Q (.ok a) locals w₂) :
    (KrakenClient.read privateClient r reader).Wp (ledgerRules honest) i c Q locals w := by
  refine wp_bind (wp_post hR hw hr ?_ (fun h => absurd h hbalance) ?_)
  · intro w₁ id _ _ _ h
    rw [hcreates] at h
    cases h
  · intro answer w₁ w₂ hw₁ hi₁ hr₁ hans hi₂ hw₂
    cases hread : reader answer with
    | error e =>
      simp only [hread]
      exact herror e answer w₂ hw₂
    | ok a =>
      simp only [hread]
      exact hok a answer w₁ w₂ hread hw₁ hi₁ hr₁ hans hi₂ hw₂

/-- What a lookup by txid found is the order of that txid. -/
theorem wp_findOrderByTxid {t : String} {Q : Except Exn (Option OrderLookup) → Locals → Rec → Prop}
    (hR : Durable R) (hw : At i n s l xs w) (hr : honest → R w.now.remote)
    (herror : ∀ e answer w₂, At i n s l ((.queryOrders t, answer) :: xs) w₂ →
      Q (.error (.python e)) locals w₂)
    (hok : ∀ lookup entries answer (w₂ : Rec), readQueried answer = .ok entries →
      pickQueried t entries = .ok lookup → At i n s l ((.queryOrders t, answer) :: xs) w₂ →
      LedgerOk honest w₂.now → (honest → R w₂.now.remote) →
      (honest → ∀ k, lookup = some k → ∃ o ∈ w₂.now.remote, o.txid = t ∧ TrueOf o k) →
      Q (.ok lookup) locals w₂) :
    (findOrderByTxid privateClient t).Wp (ledgerRules honest) i c Q locals w := by
  refine wp_bind (wp_read hR hw hr rfl nofun herror ?_)
  intro entries answer w₁ w₂ hread hw₁ hi₁ hr₁ hans hi₂ hw₂
  cases hpick : pickQueried t entries with
  | error e =>
    simp only [hpick]
    exact herror e answer w₂ hw₂
  | ok lookup =>
    simp only [hpick]
    refine hok lookup entries answer w₂ hread hpick hw₂ hi₂ ?_ ?_
    · intro hh
      rw [(hans hh).1]
      exact hr₁ hh
    · rintro hh k rfl
      obtain ⟨hsame, htrue⟩ := hans hh
      unfold pickQueried at hpick
      split at hpick
      · cases hpick
      · rename_i orders
        split at hpick
        · cases hpick
        · rename_i entry hentry
          obtain ⟨o, ho, htx, hoe⟩ := htrue orders hread entry hentry
          rw [hsame]
          cases hl : lookup t entry with
          | error e =>
            rw [hl] at hpick
            cases hpick
          | ok k' =>
            rw [hl] at hpick
            cases hpick
            exact ⟨o, ho, htx, trueOf_entry hoe (htx ▸ hl)⟩

/-- What is known after a listing of open orders that was empty: such an order is gone or closed. -/
def NotOpen (clOrdId : String) (n : Int) (K : List RemoteOrder) : Prop :=
  ∀ o ∈ K, o.clOrdId = clOrdId → o.attemptedAt + ABSENCE_GRACE ≤ n → o.phase.isOver = true

theorem durable_notOpen (clOrdId : String) (n : Int) : Durable (NotOpen clOrdId n) := by
  intro K K' hK h o' ho' hc hat
  obtain ⟨o, ho, hid, -, hat', hl⟩ := hK.before ho'
  have hover : o.phase.isOver = true := h o ho (hid.symm.trans hc) (hat' ▸ hat)
  rw [hl.eq_of_isOver hover]
  exact hover

/-- The second listing: what it finds is true, and what it does not find either is gone. -/
theorem wp_closedOrders {clOrdId : String} {unresolved : Bool}
    {Q : Except Exn (Option OrderLookup) → Locals → Rec → Prop} (hw : At i n s l xs w)
    (hr : honest → unresolved = false → NotOpen clOrdId n w.now.remote)
    (herror : ∀ e ys w₂, ¬Places ys → At i n s l (ys ++ xs) w₂ → Q (.error (.python e)) locals w₂)
    (hok : ∀ lookup ys (w₂ : Rec), ¬Places ys → At i n s l (ys ++ xs) w₂ → LedgerOk honest w₂.now →
      (honest → Reported w₂.now.remote clOrdId n lookup) → Q (.ok lookup) locals w₂) :
    (findIn privateClient clOrdId [closedOrders privateClient] unresolved).Wp (ledgerRules honest) i c Q
      locals w := by
  have hdur : Durable fun K => unresolved = false → NotOpen clOrdId n K :=
    fun hK h hu => durable_notOpen clOrdId n hK (h hu)
  have hnone : ∀ answer, ¬Places [(PrivateCall.closedOrders (some clOrdId), answer)] := by
    rintro answer ⟨x, hx, hcreates⟩
    rw [List.mem_singleton] at hx
    subst hx
    cases hcreates
  refine wp_bind (wp_read hdur hw hr rfl nofun ?_ ?_)
  · intro e answer w₂ hw₂
    exact herror e [_] w₂ (hnone answer) hw₂
  · intro raw answer w₁ w₂ hread hw₁ hi₁ hr₁ hans hi₂ hw₂
    cases hsight : sight clOrdId raw with
    | error e =>
      simp only [hsight]
      exact herror e [_] w₂ (hnone answer) hw₂
    | ok seen =>
      simp only [hsight]
      cases seen with
      | unresolved => exact hok none [_] w₂ (hnone answer) hw₂ hi₂ fun _ => trivial
      | found found =>
        refine hok (some found) [_] w₂ (hnone answer) hw₂ hi₂ fun hh => ?_
        obtain ⟨orders, rfl⟩ := sight_found_some hsight
        obtain ⟨hsame, hlisting⟩ := hans hh
        obtain ⟨t, ht, hfound⟩ := listing_found hlisting hread hsight
        simp only [Reported, ht, hsame]
        exact hfound
      | notHere =>
        cases unresolved with
        | true => exact hok none [_] w₂ (hnone answer) hw₂ hi₂ fun _ => trivial
        | false =>
          refine hok (some ABSENT) [_] w₂ (hnone answer) hw₂ hi₂ fun hh => ?_
          obtain ⟨orders, rfl⟩ := sight_notHere_some hsight
          obtain ⟨hsame, hlisting⟩ := hans hh
          rw [hsame]
          -- It is over and not closed, so it is gone.
          intro o ho hc hat
          have hover : o.phase.isOver = true := hr₁ hh rfl o ho hc hat
          have hclosed : o.phase.isClosed = false := listing_notHere hlisting hread hsight o ho hc
          exact Phase.eq_gone hover hclosed

/-- A lookup by client id under the lock. -/
theorem wp_findOrderByClOrdId {clOrdId : String}
    {Q : Except Exn (Option OrderLookup) → Locals → Rec → Prop} (hw : At i n s l xs w)
    (herror : ∀ e ys w₂, ¬Places ys → At i n s l (ys ++ xs) w₂ → Q (.error (.python e)) locals w₂)
    (hok : ∀ lookup ys (w₂ : Rec), ¬Places ys → At i n s l (ys ++ xs) w₂ → LedgerOk honest w₂.now →
      (honest → Reported w₂.now.remote clOrdId n lookup) → Q (.ok lookup) locals w₂) :
    (findOrderByClOrdId privateClient clOrdId).Wp (ledgerRules honest) i c Q locals w := by
  have hnone : ∀ answer, ¬Places [(PrivateCall.openOrders (some clOrdId), answer)] := by
    rintro answer ⟨x, hx, hcreates⟩
    rw [List.mem_singleton] at hx
    subst hx
    cases hcreates
  have hafter : ∀ {ys : List Exchanged} answer, ¬Places ys →
      ¬Places (ys ++ [(PrivateCall.openOrders (some clOrdId), answer)]) := by
    rintro ys answer hys ⟨x, hx, hcreates⟩
    rcases List.mem_append.mp hx with hx | hx
    · exact hys ⟨x, hx, hcreates⟩
    · exact hnone answer ⟨x, hx, hcreates⟩
  refine wp_bind (wp_read durable_true hw (fun _ => trivial) rfl nofun ?_ ?_)
  · intro e answer w₂ hw₂
    exact herror e [_] w₂ (hnone answer) hw₂
  · intro raw answer w₁ w₂ hread hw₁ hi₁ _ hans hi₂ hw₂
    have hnext : ∀ unresolved : Bool, (honest → unresolved = false → NotOpen clOrdId n w₂.now.remote) →
        (findIn privateClient clOrdId [closedOrders privateClient] unresolved).Wp (ledgerRules honest) i c
          Q locals w₂ := by
      intro unresolved hopen
      refine wp_closedOrders hw₂ hopen ?_ ?_
      · intro e ys w₃ hys hw₃
        exact herror e (ys ++ [_]) w₃ (hafter answer hys) (by simpa using hw₃)
      · intro lookup ys w₃ hys hw₃ hi₃ hrep
        exact hok lookup (ys ++ [_]) w₃ (hafter answer hys) (by simpa using hw₃) hi₃ hrep
    cases hsight : sight clOrdId raw with
    | error e =>
      simp only [hsight]
      exact herror e [_] w₂ (hnone answer) hw₂
    | ok seen =>
      simp only [hsight]
      cases seen with
      | unresolved => exact hnext true nofun
      | found found =>
        refine hok (some found) [_] w₂ (hnone answer) hw₂ hi₂ fun hh => ?_
        obtain ⟨orders, rfl⟩ := sight_found_some hsight
        obtain ⟨hsame, hlisting⟩ := hans hh
        obtain ⟨t, ht, hfound⟩ := listing_found hlisting hread hsight
        simp only [Reported, ht, hsame]
        exact hfound
      | notHere =>
        refine hnext false fun hh _ => ?_
        obtain ⟨orders, rfl⟩ := sight_notHere_some hsight
        obtain ⟨hsame, hlisting⟩ := hans hh
        rw [hsame]
        intro o ho hc hat
        -- The grace has passed, so the order is not in flight; and it is not open.
        have hnotOpen : o.phase.isListed = false := listing_notHere hlisting hread hsight o ho hc
        have hlate : o.attemptedAt + ABSENCE_GRACE ≤ w₁.now.clock := hat.trans hw₁.clock
        have hflight : o.phase.inFlight = false := by
          cases hf : o.phase.inFlight with
          | false => rfl
          | true => exact absurd (hi₁.timely hh o ho hf) (not_lt.mpr hlate)
        exact Phase.isOver_of hnotOpen hflight

/-- Looking a row up under the lock. -/
theorem wp_lookUp {row : Order} (hrow : row ∈ l.rows)
    {Q : Except Exn (Option OrderLookup) → Locals → Rec → Prop} (hw : At i n s l xs w)
    (herror : ∀ e ys w₂, ¬Places ys → At i n s l (ys ++ xs) w₂ → Q (.error (.python e)) locals w₂)
    (hok : ∀ lookup ys (w₂ : Rec), ¬Places ys → At i n s l (ys ++ xs) w₂ → LedgerOk honest w₂.now →
      (honest → Reported w₂.now.remote row.clOrdId n lookup) → Q (.ok lookup) locals w₂) :
    (lookUp row).Wp (ledgerRules honest) i c Q locals w := by
  unfold lookUp
  split
  · rename_i t ht
    have hnone : ∀ answer, ¬Places [(PrivateCall.queryOrders t, answer)] := by
      rintro answer ⟨x, hx, hcreates⟩
      rw [List.mem_singleton] at hx
      subst hx
      cases hcreates
    refine wp_findOrderByTxid durable_true hw (fun _ => trivial) ?_ ?_
    · intro e answer w₂ hw₂
      exact herror e [_] w₂ (hnone answer) hw₂
    · intro lookup entries answer w₂ _ hpick hw₂ hi₂ _ htrue
      refine hok lookup [_] w₂ (hnone answer) hw₂ hi₂ fun hh => ?_
      cases lookup with
      | none => trivial
      | some k =>
        -- The row's txid is that of one order only, and that order is the row's.
        obtain ⟨o, ho, hot, hok'⟩ := htrue hh k rfl
        obtain ⟨o', ho', hoc, hot'⟩ := (hi₂.remote hh).named row (hw₂.ledger ▸ hrow) t ht
        obtain rfl : o = o' := (hi₂.remote hh).eq_of_txid ho ho' (hot.trans hot'.symm)
        simp only [Reported, pickQueried_txid hpick]
        exact ⟨o, ho, hoc, hot, hok'⟩
  · exact wp_findOrderByClOrdId hw herror hok

end Rules

end Coinpilot.Safety
