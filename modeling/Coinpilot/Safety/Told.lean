import Coinpilot.Safety.Sending
import Coinpilot.Safety.Placements
import Coinpilot.Safety.Preview

/-!
# What a result tells of its orders

The results of an evaluation beside the orders of its trace. Each result that is not skipped tells of one
order (`toldOrder`), and sending a plan adds results that tell of exactly what it sent (`sendAll_reports`);
everything else of an evaluation places none. The status that its steps end with says whether anything was sent
(`evaluateSteps_accounts`), and an exception that ends them after an order is one of the database or of the
language. This holds along answers that the world can give (`Genuine`).
-/

set_option autoImplicit false

namespace Coinpilot.Safety

open Coinpilot.Lib Coinpilot.Lib.Program Coinpilot.Exchange Coinpilot.Engine Coinpilot.Core

/-! ## What a result says of its orders -/

/-- The amount that a result names: fiat of a buy, volume of a sell. -/
def amountOf (r : LegResult) : Option Decimal :=
  match r.side with
  | .buy => some r.amountFiat
  | .sell => r.volume

/-- The order that a result tells of. A skipped leg has none. -/
def toldOrder (validate : Bool) (r : LegResult) : Option Ordered :=
  if r.status = .skipped then none
  else (amountOf r).map fun volume => ⟨r.pair, r.side.value, volume, validate⟩

/-- A result of a leg that was sent names the amount that was sent. -/
def Named (r : LegResult) : Prop := r.status ≠ .skipped → (amountOf r).isSome

/-- The results of some legs tell of exactly the orders of a trace, in their order. -/
structure Tells (validate : Bool) (results : List LegResult) (t : Trace) : Prop where
  told : orders t = results.filterMap (toldOrder validate)
  named : ∀ r ∈ results, Named r

theorem tells_nil {validate : Bool} : Tells validate [] [] := ⟨rfl, by simp⟩

theorem Tells.append {validate : Bool} {rs₁ rs₂ : List LegResult} {t₁ t₂ : Trace} (h₁ : Tells validate rs₁ t₁)
    (h₂ : Tells validate rs₂ t₂) : Tells validate (rs₁ ++ rs₂) (t₁ ++ t₂) := by
  refine ⟨?_, ?_⟩
  · rw [orders_append, h₁.told, h₂.told, List.filterMap_append]
  · intro r hr
    rcases List.mem_append.mp hr with hr | hr
    · exact h₁.named r hr
    · exact h₂.named r hr

/-- A part of a trace without an order adds nothing to tell. -/
theorem tells_of_quiet {validate : Bool} {t : Trace} (h : orders t = []) : Tells validate [] t :=
  ⟨h, by simp⟩

/-- Something was sent exactly when a result is not skipped. -/
theorem Tells.sent_iff {validate : Bool} {results : List LegResult} {t : Trace}
    (h : Tells validate results t) : orders t ≠ [] ↔ ∃ r ∈ results, r.status ≠ .skipped := by
  rw [h.told, Ne, List.filterMap_eq_nil_iff]
  constructor
  · intro hsome
    by_contra hnone
    apply hsome
    intro r hr
    by_contra hne
    apply hnone
    refine ⟨r, hr, ?_⟩
    intro hskipped
    apply hne
    rw [toldOrder, if_pos hskipped]
  · rintro ⟨r, hr, hsent⟩ hall
    have hnone := hall r hr
    rw [toldOrder, if_neg hsent, Option.map_eq_none_iff] at hnone
    have hsome := h.named r hr hsent
    rw [hnone] at hsome
    cases hsome

/-! ## Results of one leg -/

/-- A planned leg that is sent has an amount to send. -/
theorem orderVolume_isSome {leg : PlannedLeg} (h : leg.note = none) : (orderVolume leg).isSome := by
  obtain ⟨m, least, -, -, -, -, hvolume⟩ := leg.sized h
  rw [orderVolume]
  split
  · rfl
  · rename_i hside
    exact hvolume hside

theorem toldOrder_fromRow (leg : PlannedLeg) (order : Order) :
    toldOrder false (fromRow leg order) = legOrder false leg := by
  have hsent : (fromRow leg order).status ≠ .skipped := ofOrder_ne_skipped order.status
  rw [toldOrder, if_neg hsent]
  rfl

theorem named_fromRow {leg : PlannedLeg} (h : leg.note = none) (order : Order) : Named (fromRow leg order) :=
  fun _ => orderVolume_isSome h

theorem named_skipped (leg : PlannedLeg) (note : String) : Named (skipped leg note) := by
  intro h
  exact absurd rfl h

/-- What became of a leg tells of its order. -/
theorem LegTried.tells {leg : PlannedLeg} {stopped stopped' : Bool} {t : Trace} {result : LegResult}
    (h : LegTried leg stopped t (.ok (result, stopped'))) : Tells false [result] t := by
  cases h with
  | skipped hnote hnone =>
    refine ⟨by rw [hnone]; rfl, ?_⟩
    intro r hr
    rw [List.mem_singleton.mp hr]
    exact named_skipped leg _
  | halted hnote hstopped hnone =>
    refine ⟨by rw [hnone]; rfl, ?_⟩
    intro r hr
    rw [List.mem_singleton.mp hr]
    exact named_skipped leg _
  | @sent c order hnote hgoing horders hread =>
    refine ⟨?_, ?_⟩
    · rw [horders, List.filterMap_cons, toldOrder_fromRow]
      cases legOrder false leg <;> rfl
    · intro r hr
      rw [List.mem_singleton.mp hr]
      exact named_fromRow hnote order

/-- It stops only what it was told to stop, or what it sent itself. -/
theorem LegTried.stops {leg : PlannedLeg} {stopped : Bool} {t : Trace} {result : LegResult}
    (h : LegTried leg stopped t (.ok (result, true))) : stopped = true ∨ result.status ≠ .skipped := by
  generalize hr : (Except.ok (result, true) : Except Exn (LegResult × Bool)) = r at h
  cases h with
  | skipped hnote hnone =>
    obtain ⟨-, rfl⟩ := Prod.mk.inj (Except.ok.inj hr)
    exact Or.inl rfl
  | halted hnote hstopped hnone => exact Or.inl hstopped
  | @sent c order hnote hgoing horders hread =>
    obtain ⟨rfl, -⟩ := Prod.mk.inj (Except.ok.inj hr)
    exact Or.inr (ofOrder_ne_skipped order.status)
  | raised hnote hgoing horders => cases hr

/-! ## Answers that the world can give -/

/-- An answer that the world can give to somebody. -/
def Genuine (x : Answer Op Ans) : Prop :=
  ∃ (honest : Prop) (i : Nat) (w w' : World), answered honest i x.1 w x.2 w'

/-- What a part of a call raises along genuine answers is the database's or the language's. -/
abbrev RaisesPlain {α : Type} (m : Work α) : Prop := m.Raises Genuine fun e => e.isPlain = true

theorem genuine_tx {x : Txn} {r : Except Exn x.Ans} (h : Genuine ⟨.tx x, r⟩) :
    (∃ e, r = .error e ∧ (x.judges = false → e.isPlain = true)) ∨
      ∃ now db a db', r = .ok a ∧ x.run now db = .ok (a, db') := by
  obtain ⟨honest, i, w, w', h⟩ := h
  rcases h with ⟨e, rfl, rfl | he, -⟩ | ⟨a, db, hrun, rfl, -⟩
  · exact Or.inl ⟨_, rfl, fun _ => rfl⟩
  · refine Or.inl ⟨e, rfl, ?_⟩
    intro hx
    exact Txn.run_plainly hx _ _ e he
  · exact Or.inr ⟨w.clock, w.db, a, db, rfl, hrun⟩

theorem transact_plain {x : Txn} (hx : x.judges = false) : RaisesPlain (transact x) := by
  apply raises_attempt
  rintro b e hgood rfl
  rcases genuine_tx hgood with ⟨e', he, hplain⟩ | ⟨now, db, a, db', ha, -⟩
  · obtain rfl := Except.error.inj he
    exact hplain hx
  · cases ha


/-! ## Sending -/

/-- What a part of a call that may send does along genuine answers: its orders are those that the results it
adds tell of, and it raises only what the database or the language does. `P` and `Q` are about the results
so far. -/
def Reports {α : Type} (P : List LegResult → Prop) (m : Work α) (Q : α → List LegResult → Prop) : Prop :=
  ∀ l t r l', m.Path l t r l' → (∀ x ∈ t, Genuine x) → P l.legs →
    (∃ a results, r = .ok a ∧ l'.legs = l.legs ++ results ∧ Tells false results t ∧ Q a l'.legs) ∨
      ∃ e, r = .error e ∧ e.isPlain = true

section Reports

variable {α β : Type} {P : List LegResult → Prop}

theorem reports_pure {Q : α → List LegResult → Prop} (a : α) (h : ∀ results, P results → Q a results) :
    Reports P (pure a : Work α) Q := by
  intro l t r l' hpath _ hP
  obtain ⟨rfl, rfl, rfl⟩ := path_pure hpath
  exact Or.inl ⟨a, [], rfl, (List.append_nil _).symm, tells_of_quiet rfl, h _ hP⟩

theorem reports_throw {Q : α → List LegResult → Prop} {e : Exn} (h : e.isPlain = true) :
    Reports P (throw e : Work α) Q := by
  intro l t r l' hpath _ _
  obtain ⟨-, rfl, -⟩ := path_throw hpath
  exact Or.inr ⟨e, rfl, h⟩

theorem reports_bind {Q : α → List LegResult → Prop} {R : β → List LegResult → Prop} {m : Work α}
    {f : α → Work β} (hm : Reports P m Q) (hf : ∀ a, Reports (Q a) (f a) R) : Reports P (m >>= f) R := by
  intro l t r l' hpath hgood hP
  rcases path_bind hpath with ⟨a, l₁, t₁, t₂, h₁, h₂, rfl⟩ | ⟨e, h₁, rfl⟩
  · rcases hm _ _ _ _ h₁ (fun x hx => hgood x (List.mem_append_left _ hx)) hP with
      ⟨a', results₁, ha, hlegs₁, htells₁, hQ⟩ | ⟨e, he, -⟩
    · obtain rfl := Except.ok.inj ha
      rcases hf a _ _ _ _ h₂ (fun x hx => hgood x (List.mem_append_right _ hx)) hQ with
        ⟨b, results₂, rfl, hlegs₂, htells₂, hR⟩ | hraised
      · refine Or.inl ⟨b, results₁ ++ results₂, rfl, ?_, htells₁.append htells₂, hR⟩
        rw [hlegs₂, hlegs₁, List.append_assoc]
      · exact Or.inr hraised
    · cases he
  · rcases hm _ _ _ _ h₁ hgood hP with ⟨a, results, ha, -⟩ | ⟨e', he, hplain⟩
    · cases ha
    · obtain rfl := Except.error.inj he
      exact Or.inr ⟨e, rfl, hplain⟩

end Reports

theorem place_plain (leg : PlannedLeg) (c : String) (validate : Bool) : RaisesPlain (place leg c validate) := by
  unfold place
  cases leg.side with
  | buy => exact raises_bind (raises_perform _) fun _ => raises_pure _
  | sell =>
    cases leg.volume with
    | none => exact raises_throw rfl
    | some v => exact raises_bind (raises_perform _) fun _ => raises_pure _

theorem findOrderByTxid_plain (txid : String) : RaisesPlain (findOrderByTxid privateClient txid) := by
  have hread : RaisesPlain (queryOrders privateClient txid) := by
    refine raises_bind (raises_perform _) ?_
    intro answer
    cases readQueried answer with
    | ok found => exact raises_pure _
    | error e => exact raises_throw rfl
  refine raises_bind hread ?_
  intro found
  split
  · exact raises_pure _
  · exact raises_throw rfl

theorem recordPlacement_plain (c : String) (p : Placement) : RaisesPlain (recordPlacement c p) := by
  unfold recordPlacement
  split
  · exact transact_plain rfl
  · refine raises_bind (transact_plain rfl) ?_
    intro _
    refine raises_bind (findOrderByTxid_plain _) ?_
    intro lookup
    exact raises_bind (transact_plain rfl) fun _ => raises_pure _
  · exact raises_pure _

theorem send_plain (id : Nat) (leg : PlannedLeg) (reason : OrderReason) : RaisesPlain (send id leg reason) := by
  refine raises_bind (raises_perform Op.newUuid) ?_
  intro c
  refine raises_bind (raises_perform Op.now) ?_
  intro at'
  refine raises_bind (transact_plain rfl) ?_
  intro _
  refine raises_bind (place_plain _ _ _) ?_
  intro placement
  refine raises_bind (recordPlacement_plain _ _) ?_
  intro _
  refine raises_bind (transact_plain rfl) ?_
  intro order
  cases order with
  | some order => exact raises_pure _
  | none => exact raises_throw rfl

theorem sendLeg_plain (id : Nat) (leg : PlannedLeg) (reason : OrderReason) (fiat : String) (stopped : Bool)
    (snapshot : Nat) : RaisesPlain (sendLeg id leg reason fiat stopped snapshot) := by
  have hpin : RaisesPlain (pin snapshot) := by
    refine raises_bind raises_getLocals ?_
    intro l
    split
    · exact raises_pure _
    · exact raises_bind (transact_plain rfl) fun _ => raises_modifyLocals _
  have hattempt : RaisesPlain (attemptLeg id leg reason stopped snapshot) := by
    unfold attemptLeg
    split
    · exact raises_pure _
    · split
      · exact raises_pure _
      · exact raises_bind hpin fun _ => raises_bind (send_plain _ _ _) fun _ => raises_pure _
  refine raises_bind hattempt ?_
  rintro ⟨result, stopped'⟩
  exact raises_bind (raises_modifyLocals _) fun _ => raises_bind (raises_modifyLocals _) fun _ => raises_pure _

/-- A loop that was stopped has sent something. -/
def StoppedBy (stopped : Bool) (results : List LegResult) : Prop :=
  stopped = true → ∃ r ∈ results, r.status ≠ .skipped

theorem sendLeg_reports (id : Nat) (leg : PlannedLeg) (reason : OrderReason) (fiat : String) (stopped : Bool)
    (snapshot : Nat) : Reports (StoppedBy stopped) (sendLeg id leg reason fiat stopped snapshot)
      fun answer results => StoppedBy answer.2 results := by
  intro l t r l' hpath hgood hstopped
  cases r with
  | error e => exact Or.inr ⟨e, rfl, sendLeg_plain _ _ _ _ _ _ _ _ _ _ hpath hgood⟩
  | ok answer =>
    obtain ⟨htried, hlegs⟩ := sendLeg_path hpath
    obtain ⟨result, stopped'⟩ := answer
    refine Or.inl ⟨_, [result], rfl, hlegs, htried.tells, ?_⟩
    intro (hstop : stopped' = true)
    subst hstop
    rw [hlegs]
    rcases htried.stops with hbefore | hsent
    · obtain ⟨r, hr, hne⟩ := hstopped hbefore
      exact ⟨r, List.mem_append_left _ hr, hne⟩
    · exact ⟨result, by simp, hsent⟩

theorem sendSells_reports (id : Nat) (reason : OrderReason) (fiat : String) (snapshot : Nat) (places : Int)
    (legs : List PlannedLeg) (stopped : Bool) (budget : Option Rat) :
    Reports (StoppedBy stopped) (sendSells id reason fiat snapshot places legs stopped budget)
      fun answer results => StoppedBy answer.1 results := by
  induction legs generalizing stopped budget with
  | nil => exact reports_pure _ fun _ h => h
  | cons leg rest ih =>
    apply reports_bind (sendLeg_reports id leg reason fiat stopped snapshot)
    rintro ⟨result, stopped'⟩
    dsimp only
    split
    · exact reports_throw rfl
    · exact ih _ _

theorem sendBuys_reports (id : Nat) (reason : OrderReason) (fiat : String) (snapshot : Nat)
    (legs : List PlannedLeg) (stopped : Bool) :
    Reports (StoppedBy stopped) (sendBuys id reason fiat snapshot legs stopped) StoppedBy := by
  induction legs generalizing stopped with
  | nil => exact reports_pure _ fun _ h => h
  | cons leg rest ih =>
    apply reports_bind (sendLeg_reports id leg reason fiat stopped snapshot)
    rintro ⟨result, stopped'⟩
    exact ih _

/-- Sending a plan tells of each order it places. -/
theorem sendAll_reports (id : Nat) (planned : Planned) (reason : OrderReason) (fiat : String) (snapshot : Nat) :
    Reports (fun _ => True) (sendAll id planned reason fiat snapshot) StoppedBy := by
  have hsells := sendSells_reports id reason fiat snapshot planned.fiatPlaces (planned.ofSide .sell) false
    (some planned.freeCash)
  have hstart : Reports (fun _ => True) (sendSells id reason fiat snapshot planned.fiatPlaces
      (planned.ofSide .sell) false (some planned.freeCash)) fun answer results => StoppedBy answer.1 results := by
    intro l t r l' hpath hgood _
    apply hsells l t r l' hpath hgood
    intro hfalse
    cases hfalse
  apply reports_bind hstart
  rintro ⟨stopped, budget⟩
  dsimp only
  split
  · exact reports_throw rfl
  · exact sendBuys_reports id reason fiat snapshot _ _


/-! ## Around the sending -/

/-- A part of a call that places no order and adds no result, with what it gives along genuine answers. -/
def PlacesNone {α : Type} (m : Work α) (Q : α → Prop) : Prop :=
  ∀ l t r l', m.Path l t r l' → (∀ x ∈ t, Genuine x) →
    orders t = [] ∧ l'.legs = l.legs ∧ ∀ a, r = .ok a → Q a

/-- What a part that may send does from the start of a call: its orders are those that its results tell of,
and what it raises after an order is the database's or the language's. -/
def Accounts {α : Type} (m : Work α) (Q : α → List LegResult → Prop) : Prop :=
  ∀ l t r l', m.Path l t r l' → (∀ x ∈ t, Genuine x) → l.legs = [] →
    (∃ a, r = .ok a ∧ Tells false l'.legs t ∧ Q a l'.legs) ∨
      ∃ e, r = .error e ∧ (orders t = [] ∧ l'.legs = [] ∨ e.isPlain = true)

section PlacesNone

variable {α β : Type} {Q : α → Prop} {R : β → List LegResult → Prop}

theorem placesNone_of_calls {ok : Op → Prop} {m : Work α} (hm : ∀ legs, m.Calls ok fun l => l.legs = legs)
    (hok : ∀ o, ok o → orderOf o = none) : PlacesNone m fun _ => True := by
  intro l t r l' hpath _
  obtain ⟨hops, hlegs⟩ := (hm l.legs).path hpath rfl
  exact ⟨orders_of_quiet fun x hx => hok _ (hops x hx), hlegs, fun _ _ => trivial⟩

theorem placesNone_of_only {ok : Op → Prop} {R' : Except Exn α → Prop} {m : Work α} (hm : m.Only ok R')
    (hok : ∀ o, ok o → orderOf o = none) : PlacesNone m fun _ => True :=
  placesNone_of_calls (fun _ => hm.calls) hok

theorem placesNone_pure {a : α} (h : Q a) : PlacesNone (pure a : Work α) Q := by
  intro l t r l' hpath _
  obtain ⟨rfl, rfl, rfl⟩ := path_pure hpath
  refine ⟨rfl, rfl, ?_⟩
  intro b hb
  rw [← Except.ok.inj hb]
  exact h

theorem placesNone_logLines (lines : List String) : PlacesNone (logLines lines) fun _ => True := by
  intro l t r l' hpath _
  obtain ⟨rfl, rfl, rfl⟩ := path_modifyLocals hpath
  exact ⟨rfl, rfl, fun _ _ => trivial⟩

theorem placesNone_now : PlacesNone currentTime fun _ => True :=
  placesNone_of_only currentTime_only fun _ ho => orderOf_records ho

/-- A transaction, and what its block gives. -/
theorem placesNone_transact {x : Txn} {Q : x.Ans → Prop}
    (h : ∀ a now db db', x.run now db = .ok (a, db') → Q a) : PlacesNone (transact x) Q := by
  intro l t r l' hpath hgood
  obtain ⟨rfl, hquiet, rfl⟩ := transact_path hpath
  refine ⟨hquiet, rfl, ?_⟩
  rintro a rfl
  rcases genuine_tx (hgood _ List.mem_cons_self) with ⟨e, he, -⟩ | ⟨now, db, a', db', ha, hrun⟩
  · cases he
  · obtain rfl := Except.ok.inj ha
    exact h a now db db' hrun

theorem placesNone_bind {R : β → Prop} {m : Work α} {f : α → Work β} (hm : PlacesNone m Q)
    (hf : ∀ a, Q a → PlacesNone (f a) R) : PlacesNone (m >>= f) R := by
  intro l t r l' hpath hgood
  rcases path_bind hpath with ⟨a, l₁, t₁, t₂, h₁, h₂, rfl⟩ | ⟨e, h₁, rfl⟩
  · obtain ⟨hquiet₁, hlegs₁, hQ⟩ := hm _ _ _ _ h₁ fun x hx => hgood x (List.mem_append_left _ hx)
    obtain ⟨hquiet₂, hlegs₂, hR⟩ := hf a (hQ a rfl) _ _ _ _ h₂ fun x hx => hgood x (List.mem_append_right _ hx)
    refine ⟨?_, hlegs₂.trans hlegs₁, hR⟩
    rw [orders_append, hquiet₁, hquiet₂, List.append_nil]
  · obtain ⟨hquiet, hlegs, -⟩ := hm _ _ _ _ h₁ hgood
    refine ⟨hquiet, hlegs, ?_⟩
    intro b hb
    cases hb

/-- What is idle accounts for nothing. -/
theorem PlacesNone.accounts {m : Work α} (hm : PlacesNone m Q) {R : α → List LegResult → Prop}
    (h : ∀ a, Q a → R a []) : Accounts m R := by
  intro l t r l' hpath hgood hstart
  obtain ⟨hquiet, hlegs, hQ⟩ := hm l t r l' hpath hgood
  rw [hstart] at hlegs
  cases r with
  | ok a => exact Or.inl ⟨a, rfl, hlegs ▸ tells_of_quiet hquiet, hlegs ▸ h a (hQ a rfl)⟩
  | error e => exact Or.inr ⟨e, rfl, Or.inl ⟨hquiet, hlegs⟩⟩

theorem accounts_bind {m : Work α} {f : α → Work β} (hm : PlacesNone m Q) (hf : ∀ a, Q a → Accounts (f a) R) :
    Accounts (m >>= f) R := by
  intro l t r l' hpath hgood hstart
  rcases path_bind hpath with ⟨a, l₁, t₁, t₂, h₁, h₂, rfl⟩ | ⟨e, h₁, rfl⟩
  · obtain ⟨hquiet, hlegs, hQ⟩ := hm _ _ _ _ h₁ fun x hx => hgood x (List.mem_append_left _ hx)
    have hrest := hf a (hQ a rfl) _ _ _ _ h₂ (fun x hx => hgood x (List.mem_append_right _ hx))
      (hlegs.trans hstart)
    rcases hrest with ⟨b, rfl, htells, hR⟩ | ⟨e, rfl, hsent⟩
    · exact Or.inl ⟨b, rfl, by simpa using (tells_of_quiet hquiet).append htells, hR⟩
    · refine Or.inr ⟨e, rfl, ?_⟩
      rw [orders_append, hquiet, List.nil_append]
      exact hsent
  · obtain ⟨hquiet, hlegs, -⟩ := hm _ _ _ _ h₁ hgood
    exact Or.inr ⟨e, rfl, Or.inl ⟨hquiet, hlegs.trans hstart⟩⟩

theorem Reports.accounts {m : Work α} {R : α → List LegResult → Prop} (h : Reports (fun _ => True) m R) :
    Accounts m R := by
  intro l t r l' hpath hgood hstart
  rcases h l t r l' hpath hgood trivial with ⟨a, results, rfl, hlegs, htells, hR⟩ | ⟨e, rfl, hplain⟩
  · rw [hstart, List.nil_append] at hlegs
    exact Or.inl ⟨a, rfl, hlegs ▸ htells, hR⟩
  · exact Or.inr ⟨e, rfl, Or.inr hplain⟩

end PlacesNone

/-! ## Decisions -/

/-- A status of an evaluation that sent something. -/
def SentStatus (status : EvaluationStatus) : Prop := status = .stopped ∨ status = .partly ∨ status = .done

/-- A decision that places no order, and ends an evaluation only with a status that says so. -/
def JudgesUnsent (decide : Decision) : Prop :=
  ∀ planned, PlacesNone (decide planned) fun verdict => ∀ status, verdict = some status → ¬SentStatus status

theorem not_sentStatus_nothingToDo : ¬SentStatus .nothingToDo := by
  rintro (h | h | h) <;> cases h

theorem not_sentStatus_superseded : ¬SentStatus .superseded := by
  rintro (h | h | h) <;> cases h

theorem not_sentStatus_proposed : ¬SentStatus .proposed := by
  rintro (h | h | h) <;> cases h

theorem sendIt_unsent : JudgesUnsent sendIt := by
  intro planned
  apply placesNone_pure
  intro status hstatus
  cases hstatus

theorem nothingToDo_unsent (lines : List String) :
    PlacesNone (do logLines lines; return some .nothingToDo : Work (Option EvaluationStatus))
      fun verdict => ∀ status, verdict = some status → ¬SentStatus status := by
  refine placesNone_bind (placesNone_logLines lines) ?_
  intro _ _
  apply placesNone_pure
  intro status hstatus
  rw [← Option.some.inj hstatus]
  exact not_sentStatus_nothingToDo

theorem stillScheduled_unsent : JudgesUnsent stillScheduled := by
  intro planned
  refine placesNone_bind (placesNone_transact (Q := fun _ => True) fun _ _ _ _ _ => trivial) ?_
  intro settings _
  split
  · exact nothingToDo_unsent _
  · split
    · exact nothingToDo_unsent _
    · apply placesNone_pure
      intro status hstatus
      cases hstatus

theorem decideIn_unsent {x : Txn} {read : x.Ans → Option EvaluationStatus × List String}
    (h : ∀ a now db db' status, x.run now db = .ok (a, db') → (read a).1 = some status → ¬SentStatus status) :
    PlacesNone (decideIn x read) fun verdict => ∀ status, verdict = some status → ¬SentStatus status := by
  refine placesNone_bind (placesNone_transact
    (Q := fun a => ∀ status, (read a).1 = some status → ¬SentStatus status) ?_) ?_
  · intro a now db db' hrun status
    exact h a now db db' status hrun
  · intro a ha
    refine placesNone_bind (placesNone_logLines _) ?_
    intro _ _
    exact placesNone_pure ha

theorem propose_unsent (trigger : ProposalTrigger) :
    JudgesUnsent fun planned => decideIn (.decidePropose planned trigger) fun answer => answer := by
  intro planned
  apply decideIn_unsent
  intro a now db db' status hrun hstatus
  rcases decidePropose_some hrun with hsome | hsome
  · obtain rfl := Option.some.inj (hstatus.symm.trans hsome)
    exact not_sentStatus_proposed
  · obtain rfl := Option.some.inj (hstatus.symm.trans hsome)
    exact not_sentStatus_nothingToDo

theorem rebalanceNow_unsent : JudgesUnsent fun _ => decideIn .decideRebalance fun answer => answer := by
  intro planned
  apply decideIn_unsent
  intro a now db db' status hrun hstatus
  cases hrun
  rw [decideRebalance_status hstatus]
  exact not_sentStatus_nothingToDo

theorem approving_unsent (version : Int) : JudgesUnsent (approving version) := by
  intro planned
  have hdecide : PlacesNone (transact (.decideApprove version planned))
      fun a : Option EvaluationStatus × List String => ∀ status, a.1 = some status → ¬SentStatus status := by
    apply placesNone_transact (x := .decideApprove version planned)
    rintro ⟨verdict, lines⟩ now db db' hrun status hstatus
    obtain rfl : verdict = some status := hstatus
    rw [(decideApprove_superseded (decideApprove_run hrun)).1]
    exact not_sentStatus_superseded
  refine placesNone_bind hdecide ?_
  rintro ⟨verdict, lines⟩ hverdict
  cases verdict with
  | none =>
    -- An approval that goes through is noted, which is not a result.
    have hnote : PlacesNone (modifyLocals fun l => { l with executing := true } : Work Unit) fun _ => True := by
      intro l t r l' hpath _
      obtain ⟨rfl, rfl, rfl⟩ := path_modifyLocals hpath
      exact ⟨rfl, rfl, fun _ _ => trivial⟩
    refine placesNone_bind hnote ?_
    intro _ _
    refine placesNone_bind (placesNone_logLines lines) ?_
    intro _ _
    exact placesNone_pure hverdict
  | some status =>
    refine placesNone_bind (placesNone_logLines lines) ?_
    intro _ _
    exact placesNone_pure hverdict

/-! ## One evaluation -/

/-- The status says whether something was sent. -/
def Says (status : EvaluationStatus) (results : List LegResult) : Prop :=
  SentStatus status ↔ ∃ r ∈ results, r.status ≠ .skipped

theorem says_nothing {status : EvaluationStatus} (h : ¬SentStatus status) : Says status [] := by
  refine ⟨fun hsent => absurd hsent h, ?_⟩
  rintro ⟨r, hr, -⟩
  cases hr

/-- The status of a plan that was sent. -/
theorem says_statusOf {stopped : Bool} {results : List LegResult} (h : StoppedBy stopped results) :
    Says (statusOf stopped results) results := by
  rw [Says, statusOf]
  split
  · rename_i hstopped
    exact ⟨fun _ => h hstopped, fun _ => Or.inl rfl⟩
  · split
    · rename_i hfailed
      refine ⟨fun _ => ?_, fun _ => Or.inr (Or.inl rfl)⟩
      obtain ⟨r, hr, hstatus⟩ := List.any_eq_true.mp hfailed
      refine ⟨r, hr, ?_⟩
      rw [of_decide_eq_true hstatus]
      decide
    · split
      · rename_i hsent
        refine ⟨fun _ => ?_, fun _ => Or.inr (Or.inr rfl)⟩
        obtain ⟨r, hr, hstatus⟩ := List.any_eq_true.mp hsent
        exact ⟨r, hr, of_decide_eq_true hstatus⟩
      · rename_i hnone
        refine ⟨fun hsent => absurd hsent not_sentStatus_nothingToDo, ?_⟩
        rintro ⟨r, hr, hne⟩
        exact absurd (List.any_eq_true.mpr ⟨r, hr, decide_eq_true hne⟩) hnone

/-- What sends the plan, and the status it gives. -/
theorem sending_accounts (id : Nat) (planned : Planned) (reason : OrderReason) (fiat : String) (snapshot : Nat) :
    Accounts (do
      let stopped ← sendAll id planned reason fiat snapshot
      let l ← getLocals
      if l.legs = [] ∧ stopped = false then logLines ["the plan has no orders; nothing was sent"]
      return statusOf stopped l.legs : Work EvaluationStatus) Says := by
  apply Reports.accounts
  refine reports_bind (sendAll_reports id planned reason fiat snapshot) ?_
  intro stopped l t r l' hpath _ hstopped
  rcases path_bind hpath with ⟨read, l₁, t₁, t₂, h₁, h₂, rfl⟩ | ⟨e, h₁, -⟩
  · obtain ⟨rfl, hread, rfl⟩ := path_getLocals h₁
    obtain rfl := Except.ok.inj hread
    have hend : t₂ = [] ∧ r = .ok (statusOf stopped read.legs) ∧ l'.legs = read.legs := by
      split at h₂
      · rcases path_bind h₂ with ⟨_, l₂, t₃, t₄, h₃, h₄, rfl⟩ | ⟨e, h₃, -⟩
        · obtain ⟨rfl, -, rfl⟩ := path_modifyLocals h₃
          obtain ⟨rfl, rfl, rfl⟩ := path_pure h₄
          exact ⟨rfl, rfl, rfl⟩
        · obtain ⟨-, he, -⟩ := path_modifyLocals h₃
          cases he
      · obtain ⟨rfl, rfl, rfl⟩ := path_pure h₂
        exact ⟨rfl, rfl, rfl⟩
    obtain ⟨rfl, rfl, hlegs⟩ := hend
    refine Or.inl ⟨_, [], rfl, by rw [hlegs, List.append_nil], tells_of_quiet rfl, ?_⟩
    rw [hlegs]
    exact says_statusOf hstopped
  · obtain ⟨-, he, -⟩ := path_getLocals h₁
    cases he

/-- The steps of an evaluation account for its orders, and their status says whether there were any. -/
theorem evaluateSteps_accounts (id : Nat) (account : Account) (reason : OrderReason) {decide : Decision}
    (hdecide : JudgesUnsent decide) : Accounts (evaluateSteps id account reason decide) Says := by
  have hresolve : ∀ now, PlacesNone (resolvePending now) fun _ => True := fun now =>
    placesNone_of_calls (fun _ => resolvePending_calls now) fun _ ho => orderOf_resolves ho
  refine accounts_bind placesNone_now ?_
  intro now _
  refine accounts_bind (hresolve now) ?_
  intro resolution _
  refine accounts_bind (placesNone_logLines _) ?_
  intro _ _
  split
  · refine accounts_bind (placesNone_of_only (plan_only account) fun _ ho => orderOf_plans ho) ?_
    intro planned _
    refine accounts_bind placesNone_now ?_
    intro asOf _
    refine accounts_bind (placesNone_transact (Q := fun _ => True) fun _ _ _ _ _ => trivial) ?_
    intro snapshot _
    refine accounts_bind (hdecide planned) ?_
    intro verdict hverdict
    cases verdict with
    | some status =>
      exact (placesNone_pure (Q := (· = status)) rfl).accounts fun s hs => says_nothing (hs ▸ hverdict status rfl)
    | none => exact sending_accounts id planned reason account.fiat snapshot
  · refine accounts_bind (placesNone_logLines _) ?_
    intro _ _
    have hblocked : PlacesNone (modifyLocals fun l => { l with blocked := l.blocked ++ [resolution.lookupFailed] } :
        Work Unit) fun _ => True := by
      intro l t r l' hpath _
      obtain ⟨rfl, rfl, rfl⟩ := path_modifyLocals hpath
      exact ⟨rfl, rfl, fun _ _ => trivial⟩
    refine accounts_bind hblocked ?_
    intro _ _
    refine (placesNone_pure (Q := (· = EvaluationStatus.unresolved)) rfl).accounts ?_
    rintro s rfl
    apply says_nothing
    rintro (h | h | h) <;> cases h


end Coinpilot.Safety
