import Coinpilot.Safety.Placements
import Coinpilot.Safety.Evaluations
import Coinpilot.Safety.Replay
import Coinpilot.Core.Failures

/-!
# The preview is the investment

A preview and an investment that read the same account and the same market: what the preview has
validated is what the investment places, in the same order, and each leg is skipped with the same note
(`preview_is_investment`). Both run the plan over the same answers, so they have the same plan; its legs
pass the sells loop and the budget unchanged, because together they ask for no more than the budget.
-/

set_option autoImplicit false

namespace Coinpilot.Safety

open Coinpilot.Lib Coinpilot.Lib.Program Coinpilot.Exchange Coinpilot.Engine Coinpilot.Core

/-! ## What both read -/

/-- What a call reads before it sends: the account, and what Kraken says for the plan. -/
def Op.readsAccount : Op → Bool
  | .tx (.load _) => true
  | o => o.plans

/-- The reads of a trace. -/
def accountReads (t : Trace) : Trace := t.filter fun x => Op.readsAccount x.1

@[simp] theorem accountReads_nil : accountReads [] = [] := rfl

@[simp] theorem accountReads_append (t₁ t₂ : Trace) :
    accountReads (t₁ ++ t₂) = accountReads t₁ ++ accountReads t₂ := List.filter_append t₁ t₂

theorem readsAccount_of_plans {o : Op} (h : o.plans = true) : Op.readsAccount o = true := by
  cases o with
  | tx t => cases h
  | _ => exact h

theorem accountReads_of_plans {t : Trace} (h : ∀ x ∈ t, x.1.plans = true) : accountReads t = t :=
  List.filter_eq_self.mpr fun x hx => readsAccount_of_plans (h x hx)

/-- A part of a call that neither reads the account nor places an order. -/
def Aside (t : Trace) : Prop := orders t = [] ∧ accountReads t = []

theorem aside_of_quiet {t : Trace}
    (h : ∀ x ∈ t, orderOf x.1 = none ∧ Op.readsAccount x.1 = false) : Aside t := by
  refine ⟨orders_of_quiet fun x hx => (h x hx).1, ?_⟩
  refine List.filter_eq_nil_iff.mpr ?_
  intro x hx
  simp [(h x hx).2]

theorem aside_nil : Aside [] := ⟨rfl, rfl⟩

theorem Aside.append {t₁ t₂ : Trace} (h₁ : Aside t₁) (h₂ : Aside t₂) : Aside (t₁ ++ t₂) := by
  refine ⟨?_, ?_⟩
  · rw [orders_append, h₁.1, h₂.1, List.append_nil]
  · rw [accountReads_append, h₁.2, h₂.2, List.append_nil]

section Single

variable {o : Op}

/-- One operation beside the reads and the orders. -/
theorem aside_single (b : Ans o) (ho : orderOf o = none) (hr : Op.readsAccount o = false) : Aside [⟨o, b⟩] := by
  refine aside_of_quiet ?_
  intro x hx
  rw [List.mem_singleton.mp hx]
  exact ⟨ho, hr⟩

end Single

/-- What sending calls does not read the account. -/
theorem readsAccount_of_sends {sells : Bool} {o : Op} (h : SendsOnly sells o) : Op.readsAccount o = false := by
  rcases h with h | ⟨h, -⟩
  · cases o with
    | tx t => cases t <;> first | rfl | cases h
    | post r => cases r <;> first | rfl | cases h
    | _ => first | rfl | cases h
  · cases o with
    | post r => cases r <;> first | rfl | cases h
    | _ => cases h

/-! ## Answers of an undisturbed investment -/

/-- One answer to an investment in which no order is pending, no answer to an order is lost, the switches
stay as the scheduler found them, and no transaction raises what only a read of Kraken does. -/
structure Calm (x : Answer Op Ans) : Prop where
  nonePending : ∀ rows, x = ⟨.tx .pendingOrders, (.ok rows : Except Exn (List Order))⟩ → rows = []
  known : ¬LostAnswer x
  stillOn : ∀ settings, x = ⟨.tx .readSettings, (.ok settings : Except Exn (Option UserSettings))⟩ →
    ∃ s, settings = some s ∧ s.investCashEnabled = true ∧ s.paused = false
  available : ∀ tx e, x = ⟨.tx tx, .error e⟩ → e.isUnavailable = false

/-- What a calm call raises after its plan. -/
abbrev RaisesOther {α : Type} (m : Work α) : Prop := m.Raises Calm fun e => e.isUnavailable = false

theorem transact_raises (x : Txn) : RaisesOther (transact x) :=
  raises_attempt fun b e hgood hb => hgood.available x e (by rw [show b = .error e from hb])

theorem place_raises (leg : PlannedLeg) (c : String) (validate : Bool) : RaisesOther (place leg c validate) := by
  unfold place
  cases leg.side with
  | buy => exact raises_bind (raises_perform _) fun _ => raises_pure _
  | sell =>
    cases leg.volume with
    | none => exact raises_throw rfl
    | some v => exact raises_bind (raises_perform _) fun _ => raises_pure _

theorem findOrderByTxid_raises (txid : String) : RaisesOther (findOrderByTxid privateClient txid) := by
  have hread : RaisesOther (queryOrders privateClient txid) := by
    refine raises_bind (raises_perform _) ?_
    intro answer
    cases readQueried answer with
    | ok found => exact raises_pure _
    | error e => exact raises_throw rfl
  refine raises_bind hread ?_
  intro found
  split
  · exact raises_pure _
  · exact raises_throw rfl

theorem recordPlacement_raises (c : String) (p : Placement) : RaisesOther (recordPlacement c p) := by
  unfold recordPlacement
  split
  · exact transact_raises _
  · refine raises_bind (transact_raises _) fun _ => raises_bind (findOrderByTxid_raises _) ?_
    intro lookup
    exact raises_bind (transact_raises _) fun _ => raises_pure _
  · exact raises_pure _

theorem send_raises (id : Nat) (leg : PlannedLeg) (reason : OrderReason) : RaisesOther (send id leg reason) := by
  refine raises_bind (raises_perform Op.newUuid) fun c => raises_bind (raises_perform Op.now) ?_
  intro at'
  refine raises_bind (transact_raises _) fun _ => raises_bind (place_raises _ _ _) ?_
  intro placement
  refine raises_bind (recordPlacement_raises _ _) fun _ => raises_bind (transact_raises _) ?_
  intro order
  cases order with
  | some order => exact raises_pure _
  | none => exact raises_throw rfl

theorem sendLeg_raises (id : Nat) (leg : PlannedLeg) (reason : OrderReason) (fiat : String) (stopped : Bool)
    (snapshot : Nat) : RaisesOther (sendLeg id leg reason fiat stopped snapshot) := by
  have hpin : RaisesOther (pin snapshot) := by
    refine raises_bind raises_getLocals ?_
    intro l
    split
    · exact raises_pure _
    · exact raises_bind (transact_raises _) fun _ => raises_modifyLocals _
  have hattempt : RaisesOther (attemptLeg id leg reason stopped snapshot) := by
    unfold attemptLeg
    split
    · exact raises_pure _
    · split
      · exact raises_pure _
      · exact raises_bind hpin fun _ => raises_bind (send_raises _ _ _) fun _ => raises_pure _
  refine raises_bind hattempt ?_
  rintro ⟨result, stopped'⟩
  exact raises_bind (raises_modifyLocals _) fun _ => raises_bind (raises_modifyLocals _) fun _ => raises_pure _

theorem sendSells_raises (id : Nat) (reason : OrderReason) (fiat : String) (snapshot : Nat) (places : Int)
    (legs : List PlannedLeg) (stopped : Bool) (budget : Option Rat) :
    RaisesOther (sendSells id reason fiat snapshot places legs stopped budget) := by
  induction legs generalizing stopped budget with
  | nil => exact raises_pure _
  | cons leg rest ih =>
    refine raises_bind (sendLeg_raises id leg reason fiat stopped snapshot) ?_
    rintro ⟨result, stopped'⟩
    dsimp only
    split
    · exact raises_throw rfl
    · exact ih _ _

theorem sendBuys_raises (id : Nat) (reason : OrderReason) (fiat : String) (snapshot : Nat)
    (legs : List PlannedLeg) (stopped : Bool) :
    RaisesOther (sendBuys id reason fiat snapshot legs stopped) := by
  induction legs generalizing stopped with
  | nil => exact raises_pure _
  | cons leg rest ih =>
    refine raises_bind (sendLeg_raises id leg reason fiat stopped snapshot) ?_
    rintro ⟨result, stopped'⟩
    exact ih _

theorem sendAll_raises (id : Nat) (planned : Planned) (reason : OrderReason) (fiat : String)
    (snapshot : Nat) : RaisesOther (sendAll id planned reason fiat snapshot) := by
  refine raises_bind (sendSells_raises id reason fiat snapshot _ _ _ _) ?_
  rintro ⟨stopped, budget⟩
  dsimp only
  split
  · exact raises_throw rfl
  · exact sendBuys_raises id reason fiat snapshot _ _

/-! ## What both do with the plan -/

/-- The asset and the note of a result. -/
def noted (r : LegResult) : String × Option String := (r.asset, r.note)

/-- The asset and the note of a leg. -/
def legNote (leg : PlannedLeg) : String × Option String := (leg.asset, leg.note)

/-- The orders of a call are those of the legs that its plan does not skip, and its notes are the notes of the
legs. Without a plan there are none. -/
def AsPlanned (validate : Bool) (plan : Except Exn Planned) (os : List Ordered)
    (notes : List (String × Option String)) : Prop :=
  match plan with
  | .ok planned =>
      os = planned.legs.filterMap (unskippedOrder validate) ∧ notes = planned.legs.map legNote
  | .error _ => os = [] ∧ notes = []

section Paths

variable {l l' : Locals} {t : Trace}

/-- A calm list of buys is sent as it is. -/
theorem sendBuys_path {id : Nat} {reason : OrderReason} {fiat : String} {snapshot : Nat}
    {legs : List PlannedLeg} {stopped : Bool} (hcalm : ∀ x ∈ t, Calm x)
    (h : (sendBuys id reason fiat snapshot legs false).Path l t (.ok stopped) l') :
    orders t = legs.filterMap (unskippedOrder false) ∧
      l'.legs.map noted = l.legs.map noted ++ legs.map legNote := by
  induction legs generalizing l l' t with
  | nil =>
    obtain ⟨rfl, -, rfl⟩ := path_pure h
    exact ⟨rfl, by simp⟩
  | cons leg rest ih =>
    obtain ⟨⟨result, stopped'⟩, l₁, t₁, t₂, h₁, h₂, rfl⟩ := path_bind_ok h
    obtain ⟨htried, hlegs⟩ := sendLeg_path h₁
    have hcalm₂ : ∀ x ∈ t₂, Calm x := fun x hx => hcalm x (List.mem_append_right _ hx)
    -- The leg is skipped with its own note, or its row is known.
    have hleg : stopped' = false ∧ orders t₁ = (unskippedOrder false leg).toList ∧ noted result = legNote leg := by
      cases htried with
      | skipped hnote hnone => exact ⟨rfl, by simp [hnone, unskippedOrder, hnote], by simp [noted, legNote, skipped, hnote]⟩
      | halted hnote hstopped hnone => cases hstopped
      | @sent c order hnote _ horders hmem =>
        have hknown := (hcalm _ (List.mem_append_left _ hmem)).known
        refine ⟨?_, by simp [horders, unskippedOrder, hnote], by simp [noted, legNote, fromRow, hnote]⟩
        rw [Bool.and_eq_false_iff, decide_eq_false_iff_not, decide_eq_false_iff_not]
        by_contra hboth
        rw [not_or, not_not, not_not] at hboth
        have hpending : order.status = .pending := by
          cases hs : order.status with
          | pending => rfl
          | filled => simp [fromRow, LegStatus.ofOrder, hs] at hboth
          | failed => simp [fromRow, LegStatus.ofOrder, hs] at hboth
        exact hknown ⟨c, order, rfl, hpending, hboth.2⟩
    obtain ⟨rfl, horders, hnoted⟩ := hleg
    obtain ⟨hrest, hnotes⟩ := ih hcalm₂ h₂
    refine ⟨?_, ?_⟩
    · rw [orders_append, horders, hrest, List.filterMap_cons]
      cases unskippedOrder false leg <;> rfl
    · rw [hnotes, hlegs]
      simp [hnoted]

/-- A calm investment sends its whole plan. -/
theorem sendAll_path {id : Nat} {planned : Planned} {reason : OrderReason} {fiat : String} {snapshot : Nat}
    {stopped : Bool} (hcalm : ∀ x ∈ t, Calm x) (hsells : planned.ofSide .sell = [])
    (hbuys : planned.ofSide .buy = planned.legs)
    (hwithin : within planned.legs (some planned.freeCash) fiat = .ok planned.legs)
    (h : (sendAll id planned reason fiat snapshot).Path l t (.ok stopped) l') :
    orders t = planned.legs.filterMap (unskippedOrder false) ∧
      l'.legs.map noted = l.legs.map noted ++ planned.legs.map legNote := by
  obtain ⟨⟨stopped₀, budget⟩, l₁, t₁, t₂, h₁, h₂, rfl⟩ := path_bind_ok h
  rw [hsells] at h₁
  obtain ⟨rfl, heq, rfl⟩ := path_pure h₁
  cases heq
  dsimp only at h₂
  rw [hbuys, hwithin] at h₂
  exact sendBuys_path hcalm h₂

/-- Sending does not read the account. -/
theorem sendAll_reads {id : Nat} {planned : Planned} {reason : OrderReason} {fiat : String} {snapshot : Nat}
    {r : Except Exn Bool} (h : (sendAll id planned reason fiat snapshot).Path l t r l') :
    accountReads t = [] := by
  have hcalls := @sendAll_calls true l.executing planned (fun _ _ _ => rfl) id reason fiat snapshot
  obtain ⟨hops, -⟩ := hcalls.path h rfl
  refine List.filter_eq_nil_iff.mpr ?_
  intro x hx
  simp [readsAccount_of_sends (hops x hx)]

/-- A part of a calm call beside its reads and its orders: it leaves the locals alone, gives `R`, and what it
raises is no failed read. -/
def Beside {α : Type} (R : α → Prop) (m : Work α) : Prop :=
  ∀ l t r l', m.Path l t r l' → (∀ x ∈ t, Calm x) →
    Aside t ∧ l' = l ∧ ((∃ a, r = .ok a ∧ R a) ∨ ∃ e, r = .error e ∧ e.isUnavailable = false)

theorem beside_pure {α : Type} {R : α → Prop} {a : α} (h : R a) : Beside R (pure a : Work α) := by
  intro l t r l' hpath _
  obtain ⟨rfl, rfl, rfl⟩ := path_pure hpath
  exact ⟨aside_nil, rfl, Or.inl ⟨a, rfl, h⟩⟩

theorem beside_perform {o : Op} (ho : orderOf o = none) (hr : Op.readsAccount o = false) :
    Beside (fun _ => True) (perform o : Work (Ans o)) := by
  intro l t r l' hpath _
  obtain ⟨b, rfl, rfl, rfl⟩ := path_perform hpath
  exact ⟨aside_single b ho hr, rfl, Or.inl ⟨b, rfl, trivial⟩⟩

/-- A transaction, and what a calm answer to it is. -/
theorem beside_transact {x : Txn} {R : x.Ans → Prop} (hx : Op.readsAccount (.tx x) = false)
    (h : ∀ a, Calm ⟨.tx x, .ok a⟩ → R a) : Beside R (transact x) := by
  intro l t r l' hpath hcalm
  obtain ⟨rfl, hquiet, rfl⟩ := transact_path hpath
  refine ⟨⟨hquiet, (aside_single (o := .tx x) r rfl hx).2⟩, rfl, ?_⟩
  have hanswer := hcalm _ List.mem_cons_self
  cases r with
  | ok a => exact Or.inl ⟨a, rfl, h a hanswer⟩
  | error e => exact Or.inr ⟨e, rfl, hanswer.available x e rfl⟩

/-- A call whose first part is beside what it reads and places, and that does not fail there. -/
theorem Beside.bind {α β : Type} {R : α → Prop} {m : Work α} (hm : Beside R m) {f : α → Work β}
    {r : Except Exn β} (h : (m >>= f).Path l t r l') (hcalm : ∀ x ∈ t, Calm x)
    (hr : ∀ e, r = .error e → e.isUnavailable = true) :
    ∃ a t₁ t₂, R a ∧ (f a).Path l t₂ r l' ∧ orders t = orders t₂ ∧ accountReads t = accountReads t₂ ∧
      t = t₁ ++ t₂ ∧ ∀ x ∈ t₂, Calm x := by
  rcases path_bind h with ⟨a, l₁, t₁, t₂, h₁, h₂, rfl⟩ | ⟨e, h₁, rfl⟩
  · obtain ⟨⟨horders, hreads⟩, rfl, ⟨a', ha, hR⟩ | ⟨e, he, -⟩⟩ :=
      hm _ _ _ _ h₁ fun x hx => hcalm x (List.mem_append_left _ hx)
    · obtain rfl := Except.ok.inj ha
      exact ⟨a, t₁, t₂, hR, h₂, by simp [horders], by simp [hreads], rfl,
        fun x hx => hcalm x (List.mem_append_right _ hx)⟩
    · cases he
  · obtain ⟨-, -, ⟨a, ha, -⟩ | ⟨e', he, hother⟩⟩ := hm _ _ _ _ h₁ hcalm
    · cases ha
    · obtain rfl := Except.error.inj he
      rw [hr e rfl] at hother
      cases hother

/-- With no order pending, resolving reads that and goes on. -/
theorem beside_resolvePending (now : Int) : Beside (· = ⟨true, [], false⟩) (resolvePending now) := by
  intro l t r l' hpath hcalm
  have hpending : Beside (fun rows => rows = []) (transact .pendingOrders) :=
    beside_transact (x := .pendingOrders) rfl fun rows h => h.nonePending rows rfl
  rcases path_bind hpath with ⟨rows, l₁, t₁, t₂, h₁, h₂, rfl⟩ | ⟨e, h₁, rfl⟩
  · obtain ⟨haside, rfl, ⟨rows', hrows, rfl⟩ | ⟨e, he, -⟩⟩ :=
      hpending _ _ _ _ h₁ fun x hx => hcalm x (List.mem_append_left _ hx)
    · obtain rfl := Except.ok.inj hrows
      obtain ⟨rfl, rfl, rfl⟩ := path_pure h₂
      exact ⟨haside.append aside_nil, rfl, Or.inl ⟨_, rfl, rfl⟩⟩
    · cases he
  · obtain ⟨haside, rfl, ⟨rows, hrows, -⟩ | hother⟩ := hpending _ _ _ _ h₁ hcalm
    · cases hrows
    · exact ⟨haside, rfl, Or.inr (by simpa using hother)⟩

/-- A decision that lets every plan through when nothing disturbs it. -/
def LetsThrough (decide : Decision) : Prop := ∀ planned, Beside (· = none) (decide planned)

theorem sendIt_through : LetsThrough sendIt := fun _ => beside_pure rfl

theorem stillScheduled_through : LetsThrough stillScheduled := by
  intro planned l t r l' hpath hcalm
  have hread : Beside (fun settings : Option UserSettings =>
      ∃ s, settings = some s ∧ s.investCashEnabled = true ∧ s.paused = false) (transact .readSettings) :=
    beside_transact (x := .readSettings) rfl fun settings h => h.stillOn settings rfl
  rcases path_bind hpath with ⟨settings, l₁, t₁, t₂, h₁, h₂, rfl⟩ | ⟨e, h₁, rfl⟩
  · obtain ⟨haside, rfl, ⟨settings', hs, s, rfl, hinvest, hpaused⟩ | ⟨e, he, -⟩⟩ :=
      hread _ _ _ _ h₁ fun x hx => hcalm x (List.mem_append_left _ hx)
    · obtain rfl := Except.ok.inj hs
      simp only [Option.filter_some, hinvest, if_true, hpaused, Bool.false_eq_true, if_false] at h₂
      obtain ⟨rfl, rfl, rfl⟩ := path_pure h₂
      exact ⟨haside.append aside_nil, rfl, Or.inl ⟨_, rfl, rfl⟩⟩
    · cases he
  · obtain ⟨haside, rfl, ⟨settings, hs, -⟩ | hother⟩ := hread _ _ _ _ h₁ hcalm
    · cases hs
    · exact ⟨haside, rfl, Or.inr (by simpa using hother)⟩

/-- Planning is all of the account's reads, and leaves the locals alone. -/
theorem plan_path {account : Account} {r : Except Exn Planned} (h : (plan account).Path l t r l') :
    orders t = [] ∧ accountReads t = t ∧ l' = l ∧ ∀ planned, r = .ok planned → PlannedFrom account planned := by
  obtain ⟨hops, hplanned, rfl⟩ := (plan_only account).path h
  exact ⟨orders_of_quiet fun x hx => orderOf_plans (hops x hx), accountReads_of_plans hops, rfl, hplanned⟩

/-- What an account without sells and with weights of at least zero plans, the executor sends as it is. -/
structure Investing (account : Account) : Prop where
  noSells : account.policy.allowSells = false
  weights : ∀ target ∈ account.targets, 0 ≤ target.targetPct.value

/-- The budget of an investment is the engine's investable cash, and it never shrinks the buys. -/
structure InvestsAll (account : Account) (planned : Planned) : Prop where
  budget : ∃ v, engineValuation account.targets planned.view = .ok v ∧
    planned.freeCash = investableCash v (targetWeights account.targets)
  noSells : planned.ofSide .sell = []
  buys : planned.ofSide .buy = planned.legs
  unshrunk : within planned.legs (some planned.freeCash) account.fiat = .ok planned.legs

theorem Investing.all {account : Account} (h : Investing account) {planned : Planned}
    (hplanned : PlannedFrom account planned) : InvestsAll account planned := by
  obtain ⟨balances, names, prices, view, metas, places, hview, hpriced, hplan⟩ := hplanned
  obtain ⟨hbudget, hsells, hbuys, hwithin⟩ := within_investment h.noSells h.weights hview hpriced hplan
  have hsame : planned.view = view := by
    unfold planLegs at hplan
    split at hplan
    · cases hplan
    · split at hplan
      · cases hplan
      · obtain rfl := Except.ok.inj hplan
        rfl
  exact ⟨hsame ▸ hbudget, hsells, hbuys, hwithin⟩

/-- The steps of a calm investment: it plans, and does what the plan says. -/
theorem evaluateSteps_path {id : Nat} {account : Account} (hinvesting : Investing account) {decide : Decision}
    (hthrough : LetsThrough decide) {r : Except Exn EvaluationStatus} (hcalm : ∀ x ∈ t, Calm x)
    (h : (evaluateSteps id account .invest decide).Path l t r l')
    (hr : ∀ e, r = .error e → e.isUnavailable = true) :
    ∃ plan' notes, (plan account).Path l (accountReads t) plan' l ∧
      l'.legs.map noted = l.legs.map noted ++ notes ∧ AsPlanned false plan' (orders t) notes := by
  obtain ⟨now, -, t₁, -, h₁, ho₁, ha₁, -, hcalm₁⟩ :=
    (beside_perform (o := .now) rfl rfl).bind h hcalm hr
  obtain ⟨_, -, t₂, rfl, h₂, ho₂, ha₂, -, hcalm₂⟩ := (beside_resolvePending now).bind h₁ hcalm₁ hr
  -- Nothing was resolved, so nothing is logged.
  have hlog : Beside (fun _ => True) (logLines []) := by
    intro l t r l' hpath _
    obtain ⟨rfl, rfl, rfl⟩ := path_modifyLocals hpath
    exact ⟨aside_nil, by simp, Or.inl ⟨_, rfl, trivial⟩⟩
  obtain ⟨_, -, t₃, -, h₃, ho₃, ha₃, -, hcalm₃⟩ := hlog.bind h₂ hcalm₂ hr
  rw [ho₁, ho₂, ho₃, ha₁, ha₂, ha₃]
  clear ho₁ ho₂ ho₃ ha₁ ha₂ ha₃
  simp only [if_true] at h₃
  rcases path_bind h₃ with ⟨planned, l₄, t₄, u₄, h₄, k₄, rfl⟩ | ⟨e, h₄, rfl⟩
  · obtain ⟨ho₄, ha₄, rfl, hplanned⟩ := plan_path h₄
    have hall := hinvesting.all (hplanned planned rfl)
    have hcalm₄ : ∀ x ∈ u₄, Calm x := fun x hx => hcalm₃ x (List.mem_append_right _ hx)
    obtain ⟨asOf, -, t₅, -, h₅, ho₅, ha₅, -, hcalm₅⟩ :=
      (beside_perform (o := .now) rfl rfl).bind k₄ hcalm₄ hr
    obtain ⟨snapshot, -, t₆, -, h₆, ho₆, ha₆, -, hcalm₆⟩ :=
      (beside_transact (R := fun _ => True) rfl fun _ _ => trivial).bind h₅ hcalm₅ hr
    obtain ⟨_, -, t₇, rfl, h₇, ho₇, ha₇, -, hcalm₇⟩ := (hthrough planned).bind h₆ hcalm₆ hr
    rcases path_bind h₇ with ⟨stopped, l₈, t₈, u₈, h₈, h₉, rfl⟩ | ⟨e, h₈, rfl⟩
    · have ha₈ := sendAll_reads h₈
      obtain ⟨ho₈, hnotes⟩ := sendAll_path (fun x hx => hcalm₇ x (List.mem_append_left _ hx)) hall.noSells
        hall.buys hall.unshrunk h₈
      -- After the orders, only the log.
      have hend : u₈ = [] ∧ l'.legs = l₈.legs := by
        rcases path_bind h₉ with ⟨l₉, l₁₀, t₉, u₉, hget, h₁₀, rfl⟩ | ⟨e, hget, -⟩
        · obtain ⟨rfl, hl, rfl⟩ := path_getLocals hget
          obtain rfl := Except.ok.inj hl
          split at h₁₀
          · rcases path_bind h₁₀ with ⟨_, l₁₁, t₁₀, u₁₀, hlogged, h₁₁, rfl⟩ | ⟨e, hlogged, -⟩
            · obtain ⟨rfl, -, rfl⟩ := path_modifyLocals hlogged
              obtain ⟨rfl, -, rfl⟩ := path_pure h₁₁
              exact ⟨rfl, rfl⟩
            · obtain ⟨-, he, -⟩ := path_modifyLocals hlogged
              cases he
          · obtain ⟨rfl, -, rfl⟩ := path_pure h₁₀
            exact ⟨rfl, rfl⟩
        · obtain ⟨-, he, -⟩ := path_getLocals hget
          cases he
      obtain ⟨rfl, hlegs⟩ := hend
      have hreads : accountReads (t₄ ++ u₄) = t₄ := by simp [ha₄, ha₅, ha₆, ha₇, ha₈]
      have horders : orders (t₄ ++ u₄) = planned.legs.filterMap (unskippedOrder false) := by
        simp [ho₄, ho₅, ho₆, ho₇, ho₈]
      rw [hreads]
      exact ⟨.ok planned, _, h₄, hlegs ▸ hnotes, horders, rfl⟩
    · have hother : e.isUnavailable = false := sendAll_raises _ _ _ _ _ _ _ _ _ h₈ hcalm₇
      rw [hr e rfl] at hother
      cases hother
  · -- The read that failed is the end of the evaluation.
    obtain ⟨ho₄, ha₄, rfl, -⟩ := plan_path h₄
    rw [ha₄]
    exact ⟨.error e, [], h₄, by simp, ho₄, rfl⟩

/-! ## Both calls -/

theorem of_ok {α : Type} {a : α} : ∀ e : Exn, (Except.ok a : Except Exn α) = .error e → e.isUnavailable = true :=
  nofun

/-- The steps of a calm investment with their exceptions caught, when they end in a status. -/
theorem caught_path {id : Nat} {account : Account} (hinvesting : Investing account) {decide : Decision}
    (hthrough : LetsThrough decide) {status : EvaluationStatus} (hcalm : ∀ x ∈ t, Calm x)
    (h : (caught (evaluateSteps id account .invest decide)).Path l t (.ok (.ok status)) l') :
    ∃ plan' notes, (plan account).Path l (accountReads t) plan' l ∧
      l'.legs.map noted = l.legs.map noted ++ notes ∧ AsPlanned false plan' (orders t) notes := by
  rcases path_tryCatch h with ⟨a, h₁, -⟩ | ⟨e, l₁, t₁, t₂, h₁, h₂, rfl⟩
  · rcases path_bind h₁ with ⟨a, l₁, t₁, t₂, h₂, h₃, rfl⟩ | ⟨e, -, he⟩
    · obtain ⟨rfl, -, rfl⟩ := path_pure h₃
      rw [List.append_nil] at hcalm ⊢
      exact evaluateSteps_path hinvesting hthrough hcalm h₂ of_ok
    · cases he
  · rcases path_bind h₁ with ⟨a, l₂, t₃, t₄, -, h₄, -⟩ | ⟨e', h₃, he⟩
    · obtain ⟨-, he, -⟩ := path_pure h₄
      cases he
    · obtain rfl := Except.error.inj he
      cases e with
      | portfolioUnavailable what =>
        rcases path_bind h₂ with ⟨_, l₂, t₃, t₄, hlogged, h₄, rfl⟩ | ⟨e, hlogged, -⟩
        · obtain ⟨rfl, -, rfl⟩ := path_modifyLocals hlogged
          obtain ⟨rfl, -, rfl⟩ := path_pure h₄
          simp only [List.append_nil] at hcalm ⊢
          refine evaluateSteps_path hinvesting hthrough hcalm h₃ ?_
          intro e he
          obtain rfl := Except.error.inj he
          rfl
        · obtain ⟨-, he, -⟩ := path_modifyLocals hlogged
          cases he
      | _ =>
        obtain ⟨-, hr, -⟩ := path_pure h₂
        cases hr

/-- The record around the steps adds nothing to what they read and place. -/
theorem runEvaluation_path {account : Account} (hinvesting : Investing account) {decide : Decision}
    (hthrough : LetsThrough decide) {operation : Operation} {trigger : Trigger} {result : EvaluationResult}
    (hcalm : ∀ x ∈ t, Calm x) (hl : l.legs = [])
    (h : (runEvaluation account .invest decide operation trigger).Path l t (.ok result) l') :
    ∃ plan', (plan account).Path l (accountReads t) plan' l ∧
      AsPlanned false plan' (orders t) (result.legs.map noted) := by
  obtain ⟨startedAt, -, t₁, -, h₁, ho₁, ha₁, -, hcalm₁⟩ :=
    (beside_perform (o := .now) rfl rfl).bind h hcalm of_ok
  obtain ⟨id, -, t₂, -, h₂, ho₂, ha₂, -, hcalm₂⟩ :=
    (beside_transact (R := fun _ => True) rfl fun _ _ => trivial).bind h₁ hcalm₁ of_ok
  rw [ho₁, ho₂, ha₁, ha₂]
  obtain ⟨outcome, l₃, t₃, u₃, h₃, k₃, rfl⟩ := path_bind_ok h₂
  have hcalm₃ : ∀ x ∈ u₃, Calm x := fun x hx => hcalm₂ x (List.mem_append_right _ hx)
  obtain ⟨finishedAt, -, t₄, -, h₄, ho₄, ha₄, -, hcalm₄⟩ :=
    (beside_perform (o := .now) rfl rfl).bind k₃ hcalm₃ of_ok
  obtain ⟨l₅, l₆, t₅, u₅, hget, h₅, rfl⟩ := path_bind_ok h₄
  obtain ⟨rfl, hl₅, rfl⟩ := path_getLocals hget
  obtain rfl := Except.ok.inj hl₅
  obtain ⟨_, -, t₆, -, h₆, ho₆, ha₆, -, -⟩ :=
    (beside_transact (R := fun _ => True) rfl fun _ _ => trivial).bind h₅ hcalm₄ of_ok
  obtain ⟨status, l₇, t₇, u₇, h₇, h₈, rfl⟩ := path_bind_ok h₆
  obtain ⟨rfl, hstatus, rfl⟩ := path_fromExcept h₇
  obtain ⟨rfl, hresult, rfl⟩ := path_pure h₈
  obtain rfl := Except.ok.inj hresult
  subst hstatus
  obtain ⟨plan', notes, hplan, hnotes, hplanned⟩ :=
    caught_path hinvesting hthrough (fun x hx => hcalm₂ x (List.mem_append_left _ hx)) h₃
  rw [hl, List.map_nil, List.nil_append] at hnotes
  rw [List.nil_append] at ho₄ ha₄
  refine ⟨plan', ?_, ?_⟩
  · simpa [ha₄, ha₆] using hplan
  · simpa [ho₄, ho₆, hnotes] using hplanned

/-- A calm investment that returns: it read the account and the market, and did what its plan says. -/
theorem invest_path {trigger : Trigger} {result : EvaluationResult} (hcalm : ∀ x ∈ t, Calm x)
    (hinvesting : ∀ account, (⟨.tx (.load false), (.ok account : Except Exn Account)⟩ : Answer Op Ans) ∈ t →
      Investing account) (h : (invest false trigger).Path {} t (.ok result) l') :
    ∃ account reads plan', accountReads t = ⟨.tx (.load false), (.ok account : Except Exn Account)⟩ :: reads ∧
      (plan account).Path {} reads plan' {} ∧ AsPlanned false plan' (orders t) (result.legs.map noted) := by
  obtain ⟨account, l₁, t₁, u₁, h₁, k₁, rfl⟩ := path_bind_ok h
  obtain ⟨rfl, ho₁, rfl⟩ := transact_path h₁
  have haccount := hinvesting account (by simp)
  have hcalm₁ : ∀ x ∈ u₁, Calm x := fun x hx => hcalm x (List.mem_append_right _ hx)
  obtain ⟨_, l₂, t₂, u₂, h₂, k₂, rfl⟩ := path_bind_ok k₁
  obtain ⟨b, rfl, -, rfl⟩ := path_attempt h₂
  obtain ⟨ho₂, ha₂⟩ := aside_single (o := .unseal account.sealed) b rfl rfl
  have hcalm₂ : ∀ x ∈ u₂, Calm x := fun x hx => hcalm₁ x (List.mem_append_right _ hx)
  obtain ⟨taken, l₃, t₃, u₃, h₃, k₃, rfl⟩ := path_bind_ok k₂
  obtain ⟨b₃, rfl, -, rfl⟩ := path_attempt h₃
  obtain ⟨ho₃, ha₃⟩ := aside_single (o := .tryLock) b₃ rfl rfl
  have hcalm₃ : ∀ x ∈ u₃, Calm x := fun x hx => hcalm₂ x (List.mem_append_right _ hx)
  cases taken with
  | false =>
    obtain ⟨-, he, -⟩ := path_throw k₃
    cases he
  | true =>
    obtain ⟨r₄, l₄, t₄, s, t₅, h₄, h₅, rfl, ⟨-, rfl⟩ | ⟨e, -, he⟩⟩ := path_tryFinally k₃
    · obtain ⟨b₅, rfl, -, rfl⟩ := path_attempt h₅
      obtain ⟨ho₅, ha₅⟩ := aside_single (o := .unlock) b₅ rfl rfl
      have hthrough : LetsThrough (if trigger = .scheduler then stillScheduled else sendIt) := by
        split
        · exact stillScheduled_through
        · exact sendIt_through
      obtain ⟨plan', hplan, hplanned⟩ := runEvaluation_path haccount hthrough
        (fun x hx => hcalm₃ x (List.mem_append_left _ hx)) rfl h₄
      refine ⟨account, _, plan', ?_, hplan, ?_⟩
      · simp only [accountReads_append, ha₂, ha₃, ha₅, List.nil_append, List.append_nil]
        rfl
      · simp only [orders_append, ho₁, ho₂, ho₃, ho₅, List.nil_append, List.append_nil]
        exact hplanned
    · cases he

/-- A preview that returns and found no order pending: the same with its orders validated. -/
theorem preview_path {trigger : Trigger} {result : EvaluationResult}
    (hclear : ∀ b, (⟨.tx .hasUnresolved, (.ok b : Except Exn Bool)⟩ : Answer Op Ans) ∈ t → b = false)
    (h : (invest true trigger).Path l t (.ok result) l') :
    ∃ account reads plan', accountReads t = ⟨.tx (.load false), (.ok account : Except Exn Account)⟩ :: reads ∧
      (plan account).Path l reads plan' l ∧ AsPlanned true plan' (orders t) (result.legs.map noted) := by
  obtain ⟨account, l₁, t₁, u₁, h₁, k₁, rfl⟩ := path_bind_ok h
  obtain ⟨rfl, ho₁, rfl⟩ := transact_path h₁
  obtain ⟨_, l₂, t₂, u₂, h₂, k₂, rfl⟩ := path_bind_ok k₁
  obtain ⟨b, rfl, -, rfl⟩ := path_attempt h₂
  obtain ⟨ho₂, ha₂⟩ := aside_single (o := .unseal account.sealed) b rfl rfl
  obtain ⟨unresolved, l₃, t₃, u₃, h₃, k₃, rfl⟩ := path_bind_ok k₂
  obtain ⟨rfl, ho₃, rfl⟩ := transact_path h₃
  obtain ⟨-, ha₃⟩ := aside_single (o := .tx .hasUnresolved) (.ok unresolved) rfl rfl
  obtain rfl := hclear unresolved (by simp)
  rw [if_neg (by decide)] at k₃
  obtain ⟨outcome, l₄, t₄, u₄, h₄, k₄, rfl⟩ := path_bind_ok k₃
  -- Everything before the plan and the legs.
  have hreads : ∀ rest : Trace, accountReads ([⟨.tx (.load false), .ok account⟩] ++ ([⟨.unseal account.sealed, b⟩] ++
      ([⟨.tx .hasUnresolved, .ok false⟩] ++ rest))) =
      ⟨.tx (.load false), (.ok account : Except Exn Account)⟩ :: accountReads rest := by
    intro rest
    simp only [accountReads_append, ha₂, ha₃, List.nil_append]
    rfl
  have horders : ∀ rest : Trace, orders ([⟨.tx (.load false), .ok account⟩] ++ ([⟨.unseal account.sealed, b⟩] ++
      ([⟨.tx .hasUnresolved, .ok false⟩] ++ rest))) = orders rest := by
    intro rest
    simp only [orders_append, ho₁, ho₂, ho₃, List.nil_append]
  rw [hreads, horders]
  clear hreads horders ho₁ ho₂ ha₂ ho₃ ha₃
  rcases path_tryCatch h₄ with ⟨a, h₅, ha⟩ | ⟨e, l₅, t₅, t₆, h₅, h₆, rfl⟩
  · obtain ⟨planned, l₅, t₅, t₆, h₆, h₇, rfl⟩ := path_bind_ok h₅
    obtain ⟨ho₅, ha₅, rfl, -⟩ := plan_path h₆
    obtain ⟨rfl, hplanned, rfl⟩ := path_pure h₇
    obtain rfl := Except.ok.inj ha
    obtain rfl := Except.ok.inj hplanned
    obtain ⟨legs, l₆, t₇, t₈, h₈, h₉, rfl⟩ := path_bind_ok k₄
    obtain ⟨rfl, ho₇, hnotes⟩ := previewLegs_path h₈
    obtain ⟨rfl, hresult, rfl⟩ := path_pure h₉
    obtain rfl := Except.ok.inj hresult
    have hlegs : (previewLegs planned.legs).Calls (fun o => Op.readsAccount o = false) fun _ => True := by
      apply previewLegs_calls
      · rfl
      · intro pair side volume clOrdId inQuote
        rfl
    have ha₇ : accountReads t₇ = [] := by
      refine List.filter_eq_nil_iff.mpr ?_
      intro x hx
      simp [(hlegs.path h₈ trivial).1 x hx]
    refine ⟨account, t₅, .ok planned, ?_, h₆, ?_, hnotes⟩
    · simp [ha₅, ha₇]
    · simp [ho₅, ho₇]
  · rcases path_bind h₅ with ⟨planned, l₆, t₇, t₈, -, h₈, -⟩ | ⟨e', h₆', he⟩
    · obtain ⟨-, he, -⟩ := path_pure h₈
      cases he
    · obtain rfl := Except.error.inj he
      obtain ⟨ho₅, ha₅, rfl, -⟩ := plan_path h₆'
      cases e with
      | portfolioUnavailable what =>
        obtain ⟨rfl, hout, rfl⟩ := path_pure h₆
        obtain rfl := Except.ok.inj hout
        obtain ⟨rfl, hresult, rfl⟩ := path_pure k₄
        obtain rfl := Except.ok.inj hresult
        refine ⟨account, t₅, .error (.portfolioUnavailable what), ?_, h₆', ?_, rfl⟩
        · simp [ha₅]
        · simp [ho₅]
      | _ =>
        obtain ⟨-, hout, -⟩ := path_throw h₆
        cases hout

end Paths

/-! ## In every run -/

/-- No order of the user is pending when call `i` looks. -/
def NonePending (i : Nat) (past : List Ev) : Prop :=
  ∀ e ∈ past, e.who = i → e.op = .tx .hasUnresolved ∨ e.op = .tx .pendingOrders →
    ∀ row ∈ e.before.db.ledger.rows, row.status ≠ .pending

/-- No answer to an order of call `i` is lost: each row it reads back is named or settled. -/
def NoneLost (i : Nat) (past : List Ev) : Prop :=
  ∀ e ∈ past, e.who = i → ∀ c, e.op = .tx (.getByClOrdId c) →
    ∀ row, e.before.db.ledger.getByClOrdId c = some row → ¬(row.status = .pending ∧ row.txid = none)

/-- When call `i` reads the switches, investing is on and nothing is paused. -/
def StillInvesting (i : Nat) (past : List Ev) : Prop :=
  ∀ e ∈ past, e.who = i → e.op = .tx .readSettings →
    ∃ s, e.before.db.settings = some s ∧ s.investCashEnabled = true ∧ s.paused = false

/-- No stored weight is below zero. -/
def WeightsStored (past : List Ev) : Prop :=
  ∀ e ∈ past, ∀ row ∈ e.before.db.assets, 0 ≤ row.targetPct.value

/-- What a transaction that was answered did. -/
theorem tx_answered {honest : Prop} {i : Nat} {x : Txn} {w w' : World} {r : Except Exn x.Ans}
    (h : answered honest i (.tx x) w r w') :
    (∃ e, r = .error e ∧ e.isUnavailable = false) ∨
      ∃ a db, r = .ok a ∧ x.run w.clock w.db = .ok (a, db) := by
  rcases h with ⟨e, rfl, rfl | he, -⟩ | ⟨a, db, hrun, rfl, -⟩
  · exact Or.inl ⟨_, rfl, rfl⟩
  · exact Or.inl ⟨e, rfl, Txn.run_available x _ _ e he⟩
  · exact Or.inr ⟨a, db, rfl, hrun⟩

section Runs

variable {honest : Prop} {w₀ : World} {σ : State}

/-- Every answered operation was answered by the world. -/
theorem answered_of_runs (h : Runs honest (startOf w₀) σ) {e : Ev} (he : e ∈ σ.world.past) :
    answered honest e.who e.op e.before e.ans e.after := by
  have hcode : ∀ c, (program c).Only (fun _ => True) fun _ => True := fun _ => only_any _
  exact ((only_of_reaches hcode h).2 e he).2

/-- The answers of a run in which nothing disturbs call `i` are calm. -/
theorem calm_of_runs (h : Runs honest (startOf w₀) σ) {i : Nat} (hpending : NonePending i σ.world.past)
    (hlost : NoneLost i σ.world.past) (hon : StillInvesting i σ.world.past) :
    ∀ x ∈ traceOf i σ.world.past, Calm x := by
  intro x hx
  obtain ⟨e, he, hwho, rfl⟩ := mem_traceOf.mp hx
  have hans := answered_of_runs h he
  obtain ⟨who, call, op, ans, before, after⟩ := e
  subst hwho
  constructor
  · intro rows hrows
    cases hrows
    rcases tx_answered hans with ⟨e, he', -⟩ | ⟨a, db, ha, hrun⟩
    · cases he'
    · obtain rfl := Except.ok.inj ha
      obtain ⟨hrows, -⟩ := Prod.mk.inj (Except.ok.inj hrun)
      rw [← hrows]
      refine List.eq_nil_iff_forall_not_mem.mpr ?_
      intro row hrow
      obtain ⟨hmem, hstatus⟩ := Ledger.mem_pendingOrders.mp hrow
      exact hpending _ he rfl (Or.inr rfl) row hmem hstatus
  · rintro ⟨c, order, hrow, hpend, hnone⟩
    cases hrow
    rcases tx_answered hans with ⟨e, he', -⟩ | ⟨a, db, ha, hrun⟩
    · cases he'
    · obtain rfl := Except.ok.inj ha
      obtain ⟨hget, -⟩ := Prod.mk.inj (Except.ok.inj hrun)
      exact hlost _ he rfl c rfl order hget ⟨hpend, hnone⟩
  · intro settings hs
    cases hs
    rcases tx_answered hans with ⟨e, he', -⟩ | ⟨a, db, ha, hrun⟩
    · cases he'
    · obtain rfl := Except.ok.inj ha
      obtain ⟨hsettings, -⟩ := Prod.mk.inj (Except.ok.inj hrun)
      rw [← hsettings]
      exact hon _ he rfl rfl
  · intro tx e heq
    cases heq
    rcases tx_answered hans with ⟨e', he', hother⟩ | ⟨a, db, ha, -⟩
    · obtain rfl := Except.error.inj he'
      exact hother
    · cases ha

/-- The account that an investment loads has no sells and no weight below zero. -/
theorem investing_of_runs (h : Runs honest (startOf w₀) σ) (hweights : WeightsStored σ.world.past) {i : Nat}
    {account : Account}
    (hx : (⟨.tx (.load false), (.ok account : Except Exn Account)⟩ : Answer Op Ans) ∈ traceOf i σ.world.past) :
    Investing account := by
  obtain ⟨e, he, -, heq⟩ := mem_traceOf.mp hx
  have hans := answered_of_runs h he
  have hassets := hweights e he
  obtain ⟨who, call, op, ans, before, after⟩ := e
  cases heq
  rcases tx_answered hans with ⟨e, he', -⟩ | ⟨a, db, ha, hrun⟩
  · cases he'
  · obtain rfl := Except.ok.inj ha
    simp only [Txn.run] at hrun
    cases hload : loadAccount before.db false with
    | error e => rw [hload] at hrun; cases hrun
    | ok a =>
      rw [hload] at hrun
      cases hrun
      unfold loadAccount at hload
      split at hload
      · cases hload
      · split at hload
        · cases hload
        · obtain rfl := Except.ok.inj hload
          refine ⟨rfl, ?_⟩
          intro target htarget
          obtain ⟨row, hrow, rfl⟩ := List.mem_map.mp htarget
          exact hassets row ((List.mem_insertionSort _).mp hrow)

/-- What a preview that finds no order pending is told. -/
theorem unresolved_of_runs (h : Runs honest (startOf w₀) σ) {i : Nat} (hpending : NonePending i σ.world.past)
    {b : Bool} (hx : (⟨.tx .hasUnresolved, (.ok b : Except Exn Bool)⟩ : Answer Op Ans) ∈
      traceOf i σ.world.past) : b = false := by
  obtain ⟨e, he, hwho, heq⟩ := mem_traceOf.mp hx
  have hans := answered_of_runs h he
  obtain ⟨who, call, op, ans, before, after⟩ := e
  cases heq
  rcases tx_answered hans with ⟨e, he', -⟩ | ⟨a, db, ha, hrun⟩
  · cases he'
  · obtain rfl := Except.ok.inj ha
    obtain ⟨hb, -⟩ := Prod.mk.inj (Except.ok.inj hrun)
    rw [← hb]
    refine Bool.eq_false_iff.mpr ?_
    intro hany
    obtain ⟨row, hmem, hstatus⟩ := List.any_eq_true.mp hany
    exact hpending _ he hwho (Or.inl rfl) row hmem (by simpa using hstatus)

/-- One plan, validated and placed. -/
theorem same_of_plan {plan' : Except Exn Planned} {os os' : List Ordered}
    {notes notes' : List (String × Option String)} (h : AsPlanned true plan' os notes)
    (h' : AsPlanned false plan' os' notes') :
    os' = os.map (fun o => { o with validate := false }) ∧ (∀ o ∈ os, o.validate = true) ∧ notes = notes' := by
  cases plan' with
  | error e =>
    obtain ⟨rfl, rfl⟩ := h
    obtain ⟨rfl, rfl⟩ := h'
    exact ⟨rfl, nofun, rfl⟩
  | ok planned =>
    obtain ⟨rfl, rfl⟩ := h
    obtain ⟨rfl, rfl⟩ := h'
    refine ⟨?_, ?_, rfl⟩
    · rw [List.map_filterMap]
      refine List.filterMap_congr ?_
      intro leg _
      unfold unskippedOrder legOrder
      split
      · rw [Option.map_map]
        rfl
      · rfl
    · intro o ho
      obtain ⟨leg, -, hleg⟩ := List.mem_filterMap.mp ho
      unfold unskippedOrder legOrder at hleg
      split at hleg
      · obtain ⟨volume, -, rfl⟩ := Option.map_eq_some_iff.mp hleg
        rfl
      · cases hleg

/-- What a preview may call. -/
def Op.ofPreview : Op → Bool
  | .tx (.load _) => true
  | .unseal _ => true
  | o => Op.previews o

theorem ofPreview_db {i : Nat} {o : Op} (ho : Op.ofPreview o = true) {w w' : World} {b : Ans o}
    (h : answered honest i o w b w') : w'.db = w.db := by
  cases o with
  | tx x =>
    rcases h with ⟨e, -, -, rfl⟩ | ⟨a, db, hrun, -, rfl⟩
    · rfl
    · cases x with
      | load sells =>
        simp only [Txn.run] at hrun
        cases hload : loadAccount w.db sells with
        | error e => rw [hload] at hrun; cases hrun
        | ok account =>
          rw [hload] at hrun
          cases hrun
          rfl
      | hasUnresolved =>
        cases hrun
        rfl
      | _ => cases ho
  | post r =>
    obtain ⟨remote, rfl, -⟩ := h
    rfl
  | now =>
    obtain ⟨-, rfl⟩ := h
    rfl
  | tryLock => cases ho
  | unlock => cases ho
  | _ =>
    rw [show w' = w from h]

/-- Every operation of a preview leaves the database as it is. -/
theorem preview_writes_nothing (h : Runs honest (startOf w₀) σ) {e : Ev} (he : e ∈ σ.world.past)
    {trigger : Trigger} (hcall : e.call = .invest true trigger) : e.after.db = e.before.db := by
  have hcode : ∀ c, (program c).Only (fun o => ∀ trigger, c = .invest true trigger → Op.ofPreview o = true)
      fun _ => True := by
    intro c
    by_cases hc : ∃ trigger, c = .invest true trigger
    · obtain ⟨trigger, rfl⟩ := hc
      have hpreview : (handle (.invest true trigger)).Calls (fun o => Op.ofPreview o = true) fun _ => True := by
        refine calls_bind (m := invest true trigger) ?_ fun _ => calls_pure _
        refine calls_bind (transact_calls rfl) ?_
        intro account
        have hunseal : (krakenFor account.sealed).Calls (fun o => Op.ofPreview o = true) fun _ => True := by
          apply calls_attempt
          rfl
        refine calls_bind hunseal ?_
        intro _
        refine (previewInvestment_only account).mono ?_
        intro o ho
        cases o with
        | tx t => cases t <;> first | rfl | exact ho
        | _ => first | rfl | exact ho
      exact only_mono (hpreview {} trivial) (fun o ho _ _ => ho) fun _ _ => trivial
    · refine only_mono (only_any _) ?_ fun _ _ => trivial
      intro o _ trigger htrigger
      exact absurd ⟨trigger, htrigger⟩ hc
  obtain ⟨hop, hstep⟩ := (only_of_reaches hcode h).2 e he
  exact ofPreview_db (hop trigger hcall) hstep

/-- A preview and an investment of the same account, in any runs, that read the same of Kraken while no order
is pending: when no answer to an order is lost, what the preview has validated is what the investment
places, in the same order, and each leg is skipped with the same note. The budget of an investment is the
engine's investable cash and does not shrink its buys. A preview writes nothing. -/
theorem preview_is_investment (hσ : Runs honest (startOf w₀) σ) {w₁ : World} {τ : State}
    (hτ : Runs honest (startOf w₁) τ) :
    (∀ i j trigger trigger' preview result locals locals',
      σ.threads i = .live (.invest true trigger) (.ret (.ok (.evaluated preview), locals)) →
      τ.threads j = .live (.invest false trigger') (.ret (.ok (.evaluated result), locals')) →
      accountReads (traceOf i σ.world.past) = accountReads (traceOf j τ.world.past) →
      NonePending i σ.world.past → NonePending j τ.world.past → NoneLost j τ.world.past →
      StillInvesting j τ.world.past → WeightsStored τ.world.past →
      orders (traceOf j τ.world.past) =
          (orders (traceOf i σ.world.past)).map (fun o => { o with validate := false }) ∧
        (∀ o ∈ orders (traceOf i σ.world.past), o.validate = true) ∧
        preview.legs.map noted = result.legs.map noted) ∧
    (∀ account, Investing account → ∀ l t planned l', (plan account).Path l t (.ok planned) l' →
      InvestsAll account planned) ∧
    ∀ e ∈ σ.world.past, ∀ trigger, e.call = .invest true trigger → e.after.db = e.before.db := by
  refine ⟨?_, ?_, fun e he trigger hcall => preview_writes_nothing hσ he hcall⟩
  · intro i j trigger trigger' preview result locals locals' hi hj hsame hclear hclear' hlost hon hweights
    obtain ⟨_, l₁, t₁, u₁, hpreview, hret₁, ht₁⟩ := path_bind_ok (path_of_returned hσ hi)
    obtain ⟨_, l₂, t₂, u₂, hinvest, hret₂, ht₂⟩ := path_bind_ok (path_of_returned hτ hj)
    obtain ⟨rfl, heq₁, -⟩ := path_pure hret₁
    obtain ⟨rfl, heq₂, -⟩ := path_pure hret₂
    cases heq₁
    cases heq₂
    rw [List.append_nil] at ht₁ ht₂
    rw [ht₁] at hsame ⊢
    rw [ht₂] at hsame ⊢
    have hnone : ∀ b, (⟨.tx .hasUnresolved, (.ok b : Except Exn Bool)⟩ : Answer Op Ans) ∈ t₁ → b = false := by
      intro b hb
      rw [← ht₁] at hb
      exact unresolved_of_runs hσ hclear hb
    have hcalm := calm_of_runs hτ hclear' hlost hon
    rw [ht₂] at hcalm
    obtain ⟨account, reads, plan₁, hreads, hplan₁, hdone₁⟩ := preview_path hnone hpreview
    obtain ⟨account', reads', plan₂, hreads', hplan₂, hdone₂⟩ := invest_path hcalm
      (fun account hx => investing_of_runs hτ hweights (ht₂.symm ▸ hx)) hinvest
    -- The same reads, so the same account and the same plan.
    rw [hreads, hreads'] at hsame
    obtain ⟨hload, rfl⟩ := List.cons.inj hsame
    cases hload
    obtain ⟨-, heq⟩ := Prog.Path.unique hplan₁ hplan₂ (rfl : _ ++ [] = _ ++ [])
    obtain rfl : plan₁ = plan₂ := congrArg Prod.fst heq
    exact same_of_plan hdone₁ hdone₂
  · intro account hinvesting l t planned l' hpath
    exact hinvesting.all ((plan_path hpath).2.2.2 planned rfl)

end Runs

/-! ## A run of both -/

/-- The same read with the same answer. -/
def sameRead : Answer Op Ans → Answer Op Ans → Bool
  | ⟨.tx (.load s), (b : Except Exn Account)⟩, ⟨.tx (.load s'), (b' : Except Exn Account)⟩ => s = s' ∧ b = b'
  | ⟨.post .balance, .answered b⟩, ⟨.post .balance, .answered b'⟩ => b.same b'
  | ⟨.assetNames, (b : Except Exn (Option (Dict String String)))⟩,
    ⟨.assetNames, (b' : Except Exn (Option (Dict String String)))⟩ => b = b'
  | ⟨.assetPairs, (b : Except Exn (Option (Dict String PairMeta)))⟩,
    ⟨.assetPairs, (b' : Except Exn (Option (Dict String PairMeta)))⟩ => b = b'
  | ⟨.ticker pairs, (b : Except Exn (Option (Dict String Decimal)))⟩,
    ⟨.ticker pairs', (b' : Except Exn (Option (Dict String Decimal)))⟩ => pairs = pairs' ∧ b = b'
  | ⟨.assetDecimals, (b : Except Exn (Option (Dict String Int)))⟩,
    ⟨.assetDecimals, (b' : Except Exn (Option (Dict String Int)))⟩ => b = b'
  | _, _ => false

theorem eq_of_sameRead {x y : Answer Op Ans} (h : sameRead x y = true) : x = y := by
  unfold sameRead at h
  split at h
  · obtain ⟨rfl, rfl⟩ := of_decide_eq_true h
    rfl
  · rw [Json.eq_of_same h]
  · rw [of_decide_eq_true h]
  · rw [of_decide_eq_true h]
  · obtain ⟨rfl, rfl⟩ := of_decide_eq_true h
    rfl
  · rw [of_decide_eq_true h]
  · cases h

/-- The same reads, one by one. -/
def sameReads : Trace → Trace → Bool
  | [], [] => true
  | x :: xs, y :: ys => sameRead x y && sameReads xs ys
  | _, _ => false

theorem eq_of_sameReads {t t' : Trace} (h : sameReads t t' = true) : t = t' := by
  induction t generalizing t' with
  | nil =>
    cases t' with
    | nil => rfl
    | cons y ys => cases h
  | cons x xs ih =>
    cases t' with
    | nil => cases h
    | cons y ys =>
      rw [sameReads, Bool.and_eq_true] at h
      rw [eq_of_sameRead h.1, ih h.2]

/-- An event that disturbs neither a preview nor an investment. -/
def quietEvent (e : Ev) : Bool :=
  (match e.op with
    | .tx .hasUnresolved => e.before.db.ledger.rows.all fun row => row.status ≠ .pending
    | .tx .pendingOrders => e.before.db.ledger.rows.all fun row => row.status ≠ .pending
    | .tx (.getByClOrdId c) => (e.before.db.ledger.getByClOrdId c).all fun row =>
        !(row.status = .pending && row.txid = none)
    | .tx .readSettings => e.before.db.settings.any fun s => s.investCashEnabled && !s.paused
    | _ => true) &&
  e.before.db.assets.all fun row => 0 ≤ row.targetPct.value

theorem quiet_ok {past : List Ev} (h : past.all quietEvent = true) (i : Nat) :
    NonePending i past ∧ NoneLost i past ∧ StillInvesting i past ∧ WeightsStored past := by
  have hevent : ∀ e ∈ past, quietEvent e = true := fun e he => List.all_eq_true.mp h e he
  refine ⟨?_, ?_, ?_, ?_⟩
  · rintro e he - (hop | hop) row hrow
    · have hq := hevent e he
      simp only [quietEvent, hop, Bool.and_eq_true, List.all_eq_true, decide_eq_true_eq] at hq
      exact hq.1 row hrow
    · have hq := hevent e he
      simp only [quietEvent, hop, Bool.and_eq_true, List.all_eq_true, decide_eq_true_eq] at hq
      exact hq.1 row hrow
  · rintro e he - c hop row hrow ⟨hpending, hnone⟩
    have hq := hevent e he
    simp [quietEvent, hop, hrow, hpending, hnone] at hq
  · rintro e he - hop
    have hq := hevent e he
    simp only [quietEvent, hop, Bool.and_eq_true] at hq
    obtain ⟨s, hs, hon⟩ := (Option.any_eq_true _ _).mp hq.1
    simp only [Bool.and_eq_true, Bool.not_eq_true'] at hon
    exact ⟨s, hs, hon⟩
  · intro e he row hrow
    have hq := hevent e he
    simp only [quietEvent, Bool.and_eq_true, List.all_eq_true, decide_eq_true_eq] at hq
    exact hq.2 row hrow

/-- Call 0 was a preview and call 1 an investment of one order, and nothing disturbed them. -/
def bothDone (σ : State) : Bool :=
  match σ.threads 0, σ.threads 1 with
  | .live (.invest true .api) (.ret (.ok (.evaluated _), _)),
    .live (.invest false .api) (.ret (.ok (.evaluated _), _)) =>
      sameReads (accountReads (traceOf 0 σ.world.past)) (accountReads (traceOf 1 σ.world.past)) &&
        σ.world.past.all quietEvent && (orders (traceOf 1 σ.world.past)).length = 1
  | _, _ => false

theorem bothDone_ok {σ : State} (h : bothDone σ = true) :
    ∃ preview result locals locals',
      σ.threads 0 = .live (.invest true .api) (.ret (.ok (.evaluated preview), locals)) ∧
      σ.threads 1 = .live (.invest false .api) (.ret (.ok (.evaluated result), locals')) ∧
      accountReads (traceOf 0 σ.world.past) = accountReads (traceOf 1 σ.world.past) ∧
      σ.world.past.all quietEvent = true ∧ (orders (traceOf 1 σ.world.past)).length = 1 := by
  unfold bothDone at h
  split at h
  · rename_i preview locals result locals' h₀ h₁
    rw [Bool.and_eq_true, Bool.and_eq_true, decide_eq_true_eq] at h
    exact ⟨preview, result, locals, locals', h₀, h₁, eq_of_sameReads h.1.1, h.1.2, h.2⟩
  · cases h

/-- A user with 1000 euro previews an investment and then makes it. -/
def previewThenInvest : List (Turn Request Reply) :=
  .spawn 0 (.invest true .api) :: acts 0 .accept 10 ++ .spawn 1 (.invest false .api) :: acts 1 .accept 26

/-- In that run, the one order that is placed is the one that was validated. -/
theorem preview_is_investment_once : ∃ σ preview result locals locals',
    Runs True (startOf (newUser false)) σ ∧
      σ.threads 0 = .live (.invest true .api) (.ret (.ok (.evaluated preview), locals)) ∧
      σ.threads 1 = .live (.invest false .api) (.ret (.ok (.evaluated result), locals')) ∧
      (orders (traceOf 1 σ.world.past)).length = 1 ∧
      orders (traceOf 1 σ.world.past) =
        (orders (traceOf 0 σ.world.past)).map (fun o => { o with validate := false }) ∧
      preview.legs.map noted = result.legs.map noted := by
  obtain ⟨σ, hσ, hc⟩ := reaches_of_replay program (krakenResponder True (marketOf "1000" "0"))
    (startOf (newUser false)) previewThenInvest bothDone (by decide +kernel)
  obtain ⟨preview, result, locals, locals', h₀, h₁, hsame, hquiet, hone⟩ := bothDone_ok hc
  obtain ⟨hpending, -, -, hweights⟩ := quiet_ok hquiet 0
  obtain ⟨hpending', hlost, hon, -⟩ := quiet_ok hquiet 1
  obtain ⟨horders, -, hnotes⟩ := (preview_is_investment hσ hσ).1 0 1 .api .api preview result locals locals' h₀ h₁
    hsame hpending hpending' hlost hon hweights
  exact ⟨σ, preview, result, locals, locals', hσ, h₀, h₁, hone, horders, hnotes⟩

end Coinpilot.Safety
