import Coinpilot.Core.Rebalance
import Coinpilot.Core.FreeCash

/-!
# Which operations the code calls

Whatever the world answers: a lookup only looks up (`lookUp_only`), planning only reads and, without
sells, plans only buys (`plan_only`), resolving never places an order (`resolvePending_calls`), and
sending a list of buys never sells (`sendAll_calls`).
-/

set_option autoImplicit false

namespace Coinpilot.Core

open Coinpilot.Lib Coinpilot.Lib.Program Coinpilot.Exchange Coinpilot.Engine

/-! ## Kinds of operations -/

/-- The operations of a lookup. -/
def Op.looksUp : Op → Bool
  | .post (.openOrders _) => true
  | .post (.closedOrders _) => true
  | .post (.queryOrders _) => true
  | _ => false

/-- The operations of a plan. -/
def Op.plans : Op → Bool
  | .assetNames => true
  | .assetPairs => true
  | .ticker _ => true
  | .assetDecimals => true
  | .post .balance => true
  | _ => false

/-- The client id of an order that may be traded. -/
def Op.creates : Op → Option String
  | .post r => r.creates
  | _ => none

/-- An order that sells. -/
def Op.sells : Op → Bool
  | .post r => r.sells
  | _ => false

theorem Op.sells_creates {o : Op} (h : o.creates = none) : o.sells = false := by
  cases o with
  | post r =>
    cases r with
    | addOrder pair side volume clOrdId inQuote validate =>
      cases validate with
      | false => cases h
      | true => simp [Op.sells, PrivateCall.sells]
    | _ => rfl
  | _ => rfl

theorem transact_only {ok : Op → Prop} {t : Txn} (h : ok (.tx t)) :
    (transact t).Only ok fun _ => True := only_attempt h fun _ => trivial

theorem transact_calls {ok : Op → Prop} {J : Locals → Prop} {t : Txn} (h : ok (.tx t)) :
    (transact t).Calls ok J :=
  (transact_only h).calls

theorem currentTime_calls {ok : Op → Prop} {J : Locals → Prop} (h : ok .now) :
    currentTime.Calls ok J := calls_perform h

theorem newClOrdId_calls {ok : Op → Prop} {J : Locals → Prop} (h : ok .newUuid) :
    newClOrdId.Calls ok J := calls_perform h

/-- The note of an approval that went through stays as it is. -/
def NotedAs (executing : Bool) (l : Locals) : Prop := l.executing = executing

theorem logLines_calls {ok : Op → Prop} {b : Bool} (lines : List String) :
    (logLines lines).Calls ok (NotedAs b) := calls_modifyLocals fun _ h => h

theorem addLeg_calls {ok : Op → Prop} {b : Bool} (r : LegResult) :
    (addLeg r).Calls ok (NotedAs b) := calls_modifyLocals fun _ h => h

/-! ## Reads -/

theorem read_only {α : Type} (r : PrivateCall) (reader : HttpOutcome → Except PyError α) :
    (KrakenClient.read privateClient r reader).Only (· = Op.post r) fun _ => True := by
  have hpost : (privateClient.post r).Only (· = Op.post r) fun _ => True :=
    fun _ => ⟨rfl, fun _ => ⟨trivial, rfl⟩⟩
  refine only_bind hpost ?_ fun _ _ => trivial
  intro answer _
  cases reader answer with
  | ok a => exact only_pure trivial
  | error e => exact only_throw trivial

theorem findIn_only {c : String} {fetches : List (String → Work (Option Json))}
    (h : ∀ fetch ∈ fetches, (fetch c).Only (fun o => o.looksUp = true) fun _ => True)
    (unresolved : Bool) :
    (findIn privateClient c fetches unresolved).Only (fun o => o.looksUp = true) fun _ => True := by
  induction fetches generalizing unresolved with
  | nil => exact only_pure trivial
  | cons fetch rest ih =>
    have hrest := ih fun f hf => h f (List.mem_cons_of_mem _ hf)
    refine only_bind (h fetch List.mem_cons_self) ?_ fun _ _ => trivial
    intro orders _
    cases sight c orders with
    | error e => exact only_throw trivial
    | ok s =>
      cases s with
      | unresolved => exact hrest true
      | notHere => exact hrest unresolved
      | found order => exact only_pure trivial

/-- A lookup by client id only looks up. -/
theorem findOrderByClOrdId_only (c : String) :
    (findOrderByClOrdId privateClient c).Only (fun o => o.looksUp = true) fun _ => True := by
  refine findIn_only ?_ false
  intro fetch hf
  rcases List.mem_cons.mp hf with rfl | hf
  · exact Proc.only_mono (read_only _ _) (fun o ho => by rw [ho]; rfl) fun _ h => h
  · rw [List.mem_singleton] at hf
    subst hf
    exact Proc.only_mono (read_only _ _) (fun o ho => by rw [ho]; rfl) fun _ h => h

/-- A lookup by txid only looks up. -/
theorem findOrderByTxid_only (t : String) :
    (findOrderByTxid privateClient t).Only (fun o => o.looksUp = true) fun _ => True := by
  refine only_bind (Proc.only_mono (read_only _ _) (fun o ho => by rw [ho]; rfl) fun _ h => h) ?_
    fun _ _ => trivial
  intro orders _
  cases pickQueried t orders with
  | ok found => exact only_pure trivial
  | error e => exact only_throw trivial

theorem lookUp_only (o : Order) :
    (lookUp o).Only (fun o => o.looksUp = true) fun _ => True := by
  unfold lookUp
  split
  · exact findOrderByTxid_only _
  · exact findOrderByClOrdId_only _

/-! ## Planning -/

theorem assetNames_only : assetNames.Only (fun o => o.plans = true) fun _ => True :=
  only_attempt (by rfl) fun _ => trivial

theorem assetPairs_only : assetPairs.Only (fun o => o.plans = true) fun _ => True :=
  only_attempt (by rfl) fun _ => trivial

theorem assetDecimals_only : assetDecimals.Only (fun o => o.plans = true) fun _ => True :=
  only_attempt (by rfl) fun _ => trivial

theorem ticker_only (pairs : List String) :
    (ticker pairs).Only (fun o => o.plans = true) fun _ => True :=
  only_attempt (by rfl) fun _ => trivial

theorem orUnavailable_only {α : Type} {ok : Op → Prop} (what : String) (x : Option α) :
    (orUnavailable what x).Only ok fun _ => True := by
  cases x with
  | some a => exact only_pure trivial
  | none => exact only_throw trivial

theorem pairsFor_only (fiat : String) (configuredPairs names : Dict String String)
    (unmanaged : List String) :
    (pairsFor fiat configuredPairs names unmanaged).Only (fun o => o.plans = true) fun _ => True := by
  unfold pairsFor
  split
  · exact only_pure trivial
  · refine only_bind assetPairs_only ?_ fun _ _ => trivial
    intro pairs _
    refine only_bind (orUnavailable_only _ _) ?_ fun _ _ => trivial
    intro pairs _
    exact only_pure trivial

theorem quotesFor_only (pairOf : Dict String String) :
    (quotesFor pairOf).Only (fun o => o.plans = true) fun _ => True := by
  unfold quotesFor
  split
  · exact only_pure trivial
  · refine only_bind (ticker_only _) ?_ fun _ _ => trivial
    intro quotes _
    exact orUnavailable_only _ _

/-- Reading a portfolio only reads, and gives a view of the configured assets. -/
theorem readPortfolio_only (fiat : String) (configured : List Target) :
    (readPortfolio fiat configured).Only (fun o => o.plans = true) fun r => ∀ view, r = .ok view →
      ∃ balances names prices,
        buildView balances names fiat (configuredTargets configured) prices = .ok view := by
  have hfail : ∀ (e : Exn) (view : PortfolioView), Except.error e = Except.ok view →
      ∃ balances names prices,
        buildView balances names fiat (configuredTargets configured) prices = .ok view := by
    intro e view h
    cases h
  unfold readPortfolio
  refine only_bind assetNames_only ?_ fun e _ => hfail e
  intro names _
  refine only_bind (orUnavailable_only _ _) ?_ fun e _ => hfail e
  intro names _
  have hbalance : (balance privateClient).Only (fun o => o.plans = true) fun _ => True :=
    Proc.only_mono (read_only _ _) (fun o ho => by rw [ho]; rfl) fun _ h => h
  refine only_bind hbalance ?_ fun e _ => hfail e
  intro raw _
  refine only_bind (orUnavailable_only _ _) ?_ fun e _ => hfail e
  intro raw _
  refine only_bind (R := fun _ => True) (only_fromExcept trivial) ?_ fun e _ => hfail e
  intro entries _
  refine only_bind (pairsFor_only _ _ _ _) ?_ fun e _ => hfail e
  intro pairOf _
  refine only_bind (quotesFor_only _) ?_ fun e _ => hfail e
  intro quotes _
  split
  · rename_i view hview
    refine only_pure ?_
    intro view' heq
    obtain rfl := Except.ok.inj heq
    exact ⟨_, _, _, hview⟩
  · exact only_throw (hfail _)

/-- What a plan of an account satisfies: without sells, it has none. -/
def PlanOf (account : Account) (planned : Planned) : Prop :=
  account.policy.allowSells = false → ∀ leg ∈ planned.legs, leg.side = .buy

/-- Where a plan comes from: a view of the configured assets with a price for each, and the metadata of the
pairs. -/
def PlannedFrom (account : Account) (planned : Planned) : Prop :=
  ∃ balances names prices view metas places,
    buildView balances names account.fiat (configuredTargets account.targets) prices = .ok view ∧
      view.unpriced = [] ∧ planLegs account view metas places = .ok planned

theorem PlannedFrom.buys {account : Account} {planned : Planned} (h : PlannedFrom account planned) :
    PlanOf account planned := by
  intro hsells
  obtain ⟨_, _, _, _, _, _, -, -, hplan⟩ := h
  exact planLegs_buys hsells hplan

/-- Planning only reads, and plans from what it read. -/
theorem plan_only (account : Account) :
    (plan account).Only (fun o => o.plans = true) fun r =>
      ∀ planned, r = .ok planned → PlannedFrom account planned := by
  have hfail : ∀ (e : Exn) (planned : Planned), Except.error e = Except.ok planned →
      PlannedFrom account planned := by
    intro e planned h
    cases h
  unfold plan
  refine only_bind (readPortfolio_only _ _) ?_ fun e _ => hfail e
  intro view hread
  cases hunpriced : view.unpriced with
  | cons asset rest => exact only_throw (hfail _)
  | nil =>
    refine only_bind assetPairs_only ?_ fun e _ => hfail e
    intro metas _
    refine only_bind (orUnavailable_only _ _) ?_ fun e _ => hfail e
    intro metas _
    refine only_bind assetDecimals_only ?_ fun e _ => hfail e
    intro decimals _
    refine only_bind (orUnavailable_only _ _) ?_ fun e _ => hfail e
    intro places _
    refine only_fromExcept ?_
    intro planned hplan
    obtain ⟨balances, names, prices, hview⟩ := hread view rfl
    exact ⟨balances, names, prices, view, metas, places, hview, hunpriced, hplan⟩

/-! ## Resolving -/

/-- What resolving calls: lookups, and the transactions that read and settle the pending rows. -/
def Op.resolves : Op → Bool
  | .tx .pendingOrders => true
  | .tx (.settle ..) => true
  | o => o.looksUp

theorem resolveEach_calls {J : Locals → Prop} (now : Int) (pending : List Order) (r : Resolution) :
    (resolveEach now pending r).Calls (fun o => o.resolves = true) J := by
  induction pending generalizing r with
  | nil => exact calls_pure r
  | cons o rest ih =>
    have hlook : (lookUp o).Calls (fun o => o.resolves = true) J := by
      refine (lookUp_only o).calls.mono ?_
      intro op hop
      cases op with
      | post q => exact hop
      | _ => cases hop
    refine calls_bind hlook ?_
    intro lookup
    dsimp only
    split
    · exact ih _
    · refine calls_bind (transact_calls rfl) ?_
      intro status
      split
      · exact ih _
      · exact ih _

theorem resolvePending_calls {J : Locals → Prop} (now : Int) :
    (resolvePending now).Calls (fun o => o.resolves = true) J := by
  refine calls_bind (transact_calls rfl) ?_
  intro pending
  exact resolveEach_calls now pending _

/-! ## Sending -/

/-- What sending calls besides placing orders. -/
def Op.records : Op → Bool
  | .now => true
  | .newUuid => true
  | .tx (.recordAttempt ..) => true
  | .tx (.markFailed ..) => true
  | .tx (.markSent ..) => true
  | .tx (.settle ..) => true
  | .tx (.getByClOrdId _) => true
  | .tx (.pinSnapshot _) => true
  | o => o.looksUp

/-- What sending legs of these sides calls. -/
def SendsOnly (sells : Bool) (o : Op) : Prop :=
  o.records = true ∨ (o.creates.isSome = true ∧ (o.sells = true → sells = true))

theorem looksUp_records {o : Op} (h : o.looksUp = true) : o.records = true := by
  cases o with
  | post r => exact h
  | _ => cases h

theorem place_calls {sells : Bool} {J : Locals → Prop} {leg : PlannedLeg}
    (h : leg.side = .sell → sells = true) (c : String) :
    (place leg c false).Calls (SendsOnly sells) J := by
  unfold place
  cases hs : leg.side with
  | buy =>
    refine calls_bind (calls_perform (Or.inr ⟨rfl, ?_⟩)) fun _ => calls_pure _
    intro hsell
    simp [Op.sells, PrivateCall.sells] at hsell
  | sell =>
    cases leg.volume with
    | none => exact calls_throw _
    | some v =>
      exact calls_bind (calls_perform (Or.inr ⟨rfl, fun _ => h hs⟩)) fun _ => calls_pure _

theorem records_only {t : Txn} (h : Op.records (.tx t) = true) :
    (transact t).Only (fun o => o.records = true) fun _ => True := transact_only h

/-- Writing an answer down only records. -/
theorem recordPlacement_only (c : String) (p : Placement) :
    (recordPlacement c p).Only (fun o => o.records = true) fun _ => True := by
  unfold recordPlacement
  cases p.outcome with
  | refused => exact records_only rfl
  | validated => exact only_pure trivial
  | unknown => exact only_pure trivial
  | sent =>
    cases p.txid with
    | none => exact only_pure trivial
    | some txid =>
      refine only_bind (R := fun _ => True) (records_only rfl) ?_ fun _ _ => trivial
      intro _ _
      have hlookup : (findOrderByTxid privateClient txid).Only (fun o => o.records = true) fun _ => True :=
        Proc.only_mono (findOrderByTxid_only txid) (fun o ho => looksUp_records ho) fun _ h => h
      refine only_bind hlookup ?_ fun _ _ => trivial
      intro lookup _
      exact only_bind (R := fun _ => True) (records_only rfl) (fun _ _ => only_pure trivial) fun _ _ => trivial

theorem recordPlacement_calls {sells : Bool} {J : Locals → Prop} (c : String) (p : Placement) :
    (recordPlacement c p).Calls (SendsOnly sells) J :=
  (recordPlacement_only c p).calls.mono fun _ ho => Or.inl ho

theorem send_calls {sells : Bool} {J : Locals → Prop} {leg : PlannedLeg}
    (h : leg.side = .sell → sells = true) (id : Nat) (reason : OrderReason) :
    (send id leg reason).Calls (SendsOnly sells) J := by
  refine calls_bind (newClOrdId_calls (Or.inl rfl)) ?_
  intro c
  refine calls_bind (currentTime_calls (Or.inl rfl)) ?_
  intro at'
  refine calls_bind (transact_calls (Or.inl rfl)) ?_
  intro _
  refine calls_bind (place_calls h c) ?_
  intro p
  refine calls_bind (recordPlacement_calls c p) ?_
  intro _
  refine calls_bind (transact_calls (Or.inl rfl)) ?_
  intro order
  cases order with
  | some o => exact calls_pure _
  | none => exact calls_throw _

theorem sendLeg_calls {sells b : Bool} {leg : PlannedLeg} (h : leg.side = .sell → sells = true) (id : Nat)
    (reason : OrderReason) (fiat : String) (stopped : Bool) (snapshot : Nat) :
    (sendLeg id leg reason fiat stopped snapshot).Calls (SendsOnly sells) (NotedAs b) := by
  have hattempt : (attemptLeg id leg reason stopped snapshot).Calls (SendsOnly sells) (NotedAs b) := by
    unfold attemptLeg
    split
    · exact calls_pure _
    · split
      · exact calls_pure _
      · have hpin : (pin snapshot).Calls (SendsOnly sells) (NotedAs b) := by
          refine calls_bind calls_getLocals ?_
          intro l
          split
          · exact calls_pure _
          · exact calls_bind (transact_calls (Or.inl rfl)) fun _ => calls_modifyLocals fun _ h => h
        refine calls_bind hpin ?_
        intro _
        exact calls_bind (send_calls h id reason) fun _ => calls_pure _
  refine calls_bind hattempt ?_
  rintro ⟨result, stopped'⟩
  refine calls_bind (addLeg_calls _) ?_
  intro _
  exact calls_bind (logLines_calls _) fun _ => calls_pure _

theorem sendSells_calls {sells b : Bool} {legs : List PlannedLeg}
    (h : ∀ leg ∈ legs, leg.side = .sell → sells = true) (id : Nat) (reason : OrderReason) (fiat : String)
    (snapshot : Nat) (places : Int) (stopped : Bool) (budget : Option Rat) :
    (sendSells id reason fiat snapshot places legs stopped budget).Calls (SendsOnly sells) (NotedAs b) := by
  induction legs generalizing stopped budget with
  | nil => exact calls_pure _
  | cons leg rest ih =>
    refine calls_bind (sendLeg_calls (h leg List.mem_cons_self) id reason fiat stopped snapshot) ?_
    rintro ⟨result, stopped'⟩
    dsimp only
    split
    · exact calls_throw _
    · exact ih (fun l hl => h l (List.mem_cons_of_mem _ hl)) _ _

theorem sendBuys_calls {sells b : Bool} {legs : List PlannedLeg}
    (h : ∀ leg ∈ legs, leg.side = .sell → sells = true) (id : Nat) (reason : OrderReason) (fiat : String)
    (snapshot : Nat) (stopped : Bool) :
    (sendBuys id reason fiat snapshot legs stopped).Calls (SendsOnly sells) (NotedAs b) := by
  induction legs generalizing stopped with
  | nil => exact calls_pure _
  | cons leg rest ih =>
    refine calls_bind (sendLeg_calls (h leg List.mem_cons_self) id reason fiat stopped snapshot) ?_
    rintro ⟨result, stopped'⟩
    exact ih (fun l hl => h l (List.mem_cons_of_mem _ hl)) _

/-- Shrinking a buy changes its amount and its note. -/
theorem shrink_side (factor : Rat) (fiat : String) (leg : PlannedLeg) :
    (shrink factor fiat leg).side = leg.side := by
  unfold shrink
  split
  · dsimp only
    split <;> rfl
  · rfl

theorem within_side {buys fitted : List PlannedLeg} {budget : Option Rat} {fiat : String}
    (h : within buys budget fiat = .ok fitted) {side : Side} (hs : ∀ leg ∈ buys, leg.side = side) :
    ∀ leg ∈ fitted, leg.side = side := by
  unfold within at h
  split at h
  · cases h
  · split at h
    · cases h
      exact hs
    · split at h
      · cases h
      · cases h
        intro leg hleg
        obtain ⟨old, hold, rfl⟩ := List.mem_map.mp hleg
        rw [shrink_side]
        exact hs old hold

/-- Sending a plan places orders of the plan's sides only. -/
theorem sendAll_calls {sells b : Bool} {planned : Planned}
    (h : ∀ leg ∈ planned.legs, leg.side = .sell → sells = true) (id : Nat) (reason : OrderReason)
    (fiat : String) (snapshot : Nat) :
    (sendAll id planned reason fiat snapshot).Calls (SendsOnly sells) (NotedAs b) := by
  refine calls_bind (sendSells_calls ?_ id reason fiat snapshot _ _ _) ?_
  · intro leg hleg
    exact h leg (List.mem_of_mem_filter hleg)
  · rintro ⟨stopped, budget⟩
    dsimp only
    split
    · exact calls_throw _
    · rename_i buys hb
      refine sendBuys_calls ?_ id reason fiat snapshot stopped
      intro leg hleg hsell
      have hbuys : ∀ leg ∈ planned.ofSide .buy, leg.side = .buy := by
        intro l hl
        simpa [Planned.ofSide] using (List.mem_filter.mp hl).2
      rw [within_side hb hbuys leg hleg] at hsell
      cases hsell

/-- A preview draws client ids and has orders validated. -/
theorem previewLegs_calls {ok : Op → Prop} {J : Locals → Prop} (hid : ok .newUuid)
    (hvalidate : ∀ pair side volume clOrdId inQuote, ok (.post (.addOrder pair side volume clOrdId inQuote true)))
    (legs : List PlannedLeg) : (previewLegs legs).Calls ok J := by
  induction legs with
  | nil => exact calls_pure _
  | cons leg rest ih =>
    have hleg : (previewLeg leg).Calls ok J := by
      unfold previewLeg
      cases leg.note with
      | some note => exact calls_pure _
      | none =>
        refine calls_bind (newClOrdId_calls hid) ?_
        intro clOrdId
        have hplace : (place leg clOrdId true).Calls ok J := by
          unfold place
          cases leg.side with
          | buy => exact calls_bind (calls_perform (hvalidate _ _ _ _ _)) fun _ => calls_pure _
          | sell =>
            cases leg.volume with
            | none => exact calls_throw _
            | some v => exact calls_bind (calls_perform (hvalidate _ _ _ _ _)) fun _ => calls_pure _
        exact calls_bind hplace fun _ => calls_pure _
    refine calls_bind hleg ?_
    intro r
    exact calls_bind ih fun _ => calls_pure _

end Coinpilot.Core
