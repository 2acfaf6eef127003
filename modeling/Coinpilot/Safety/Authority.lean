import Coinpilot.Safety.History

/-!
# Who may sell, and who closes an approval

The history of one user's calls, and what each operation of a call needs of it: an order that may be
traded is an investment's buy, or belongs to an approval that went through or to an automatic
rebalance that was allowed; an approval is closed only by the call it went through in (`Allowed`).
`authority` is the contract, and `authority_covers` says that the code of every call meets it.
-/

set_option autoImplicit false

namespace Coinpilot.Safety

open Coinpilot.Lib Coinpilot.Lib.Program Coinpilot.Exchange Coinpilot.Engine Coinpilot.Core

/-! ## What went through -/

/-- An approval of `version` by call `i` went through, with this plan. -/
def LetThrough (i : Nat) (version : Int) (planned : Planned) (e : Ev) : Prop :=
  ∃ c lines before after,
    e = ⟨i, c, .tx (.decideApprove version planned), .ok (none, lines), before, after⟩

/-- The decision of an automatic rebalance by call `i` went through. -/
def AutoAllowed (i : Nat) (e : Ev) : Prop :=
  ∃ c lines before after, e = ⟨i, c, .tx .decideRebalance, .ok (none, lines), before, after⟩

/-- An approval of `version` by call `i` went through. -/
def Approved (i : Nat) (version : Int) (past : List Ev) : Prop :=
  ∃ planned, ∃ e ∈ past, LetThrough i version planned e

theorem lasting_approved (i : Nat) (version : Int) : Lasting (Approved i version) := by
  rintro a b hab ⟨planned, e, he, hl⟩
  exact ⟨planned, e, hab.subset he, hl⟩

theorem lasting_auto (i : Nat) : Lasting fun past => ∃ e ∈ past, AutoAllowed i e := by
  rintro a b hab ⟨e, he, ha⟩
  exact ⟨e, hab.subset he, ha⟩

/-! ## What each call may do -/

/-- When a call may place an order that trades. -/
def MayPlace (i : Nat) (c : Request) (past : List Ev) (sells : Bool) : Prop :=
  match c with
  | .invest false _ => sells = false
  | .approve version => Approved i version past
  | .rebalanceNow => ∃ e ∈ past, AutoAllowed i e
  | _ => False

/-- Which call writes the proposal in which transaction. -/
def MayWrite (i : Nat) (c : Request) (past : List Ev) : Txn → Prop
  | .setExecuted => ∃ version, c = .approve version ∧ Approved i version past
  | .decideApprove version _ => c = .approve version
  | .decideRebalance => c = .rebalanceNow
  | .decidePropose .. => ∃ trigger, c = .propose trigger
  | .withdraw version => c = .withdraw version
  | _ => True

/-- What an operation of a call needs of the history. -/
def Allowed (i : Nat) (c : Request) (past : List Ev) (o : Op) : Prop :=
  (o.creates.isSome = true → MayPlace i c past o.sells) ∧ ∀ t, o = .tx t → MayWrite i c past t

/-- Operations that need nothing. -/
def Free (o : Op) : Prop := o.creates = none ∧ ∀ t, o = .tx t → t.writesProposal = false

theorem Free.allowed {o : Op} (h : Free o) (i : Nat) (c : Request) (past : List Ev) :
    Allowed i c past o := by
  refine ⟨?_, ?_⟩
  · intro hc
    rw [h.1] at hc
    cases hc
  · intro t ht
    have hw := h.2 t ht
    cases t with
    | decidePropose p trig => cases hw
    | decideApprove v p => cases hw
    | decideRebalance => cases hw
    | setExecuted => cases hw
    | withdraw v => cases hw
    | _ => trivial

theorem free_tx {t : Txn} (h : t.writesProposal = false) : Free (.tx t) := by
  refine ⟨rfl, ?_⟩
  intro t' ht
  cases ht
  exact h

theorem free_post {r : PrivateCall} (h : r.creates = none) : Free (.post r) := by
  refine ⟨h, ?_⟩
  intro t ht
  cases ht

theorem free_of_looksUp {o : Op} (h : o.looksUp = true) : Free o := by
  cases o with
  | post r =>
    refine free_post ?_
    cases r with
    | addOrder pair side volume c inQuote validate => cases h
    | _ => rfl
  | _ => cases h

theorem free_of_resolves {o : Op} (h : o.resolves = true) : Free o := by
  cases o with
  | post r => exact free_of_looksUp h
  | tx t =>
    refine free_tx ?_
    cases t with
    | pendingOrders => rfl
    | settle c k => rfl
    | _ => cases h
  | _ => cases h

theorem free_of_plans {o : Op} (h : o.plans = true) : Free o := by
  cases o with
  | post r =>
    refine free_post ?_
    cases r with
    | balance => rfl
    | _ => cases h
  | tx t => cases h
  | _ =>
    refine ⟨rfl, ?_⟩
    intro t ht
    cases ht

theorem free_of_records {o : Op} (h : o.records = true) : Free o := by
  cases o with
  | post r => exact free_of_looksUp h
  | tx t =>
    refine free_tx ?_
    cases t with
    | decidePropose p trig => cases h
    | decideApprove v p => cases h
    | decideRebalance => cases h
    | setExecuted => cases h
    | withdraw v => cases h
    | _ => rfl
  | _ =>
    refine ⟨rfl, ?_⟩
    intro t ht
    cases ht

/-- Sending is allowed where placing orders is. -/
theorem SendsOnly.allowed {sells : Bool} {o : Op} (h : SendsOnly sells o) {i : Nat} {c : Request}
    {past : List Ev} (hp : ∀ s : Bool, (s = true → sells = true) → MayPlace i c past s) :
    Allowed i c past o := by
  rcases h with h | ⟨hc, hs⟩
  · exact (free_of_records h).allowed i c past
  · refine ⟨fun _ => hp o.sells hs, ?_⟩
    rintro t rfl
    cases hc

/-! ## The stored plan -/

/-- A document made from a plan, whose legs have distinct assets. -/
def FromPlan (d : Document) : Prop :=
  ∃ (fiat : String) (legs : List PlannedLeg), (legs.map PlannedLeg.asset).Nodup ∧
    d = planDocument fiat legs

/-- Whatever is in the slot was made from a plan. -/
def StoredOk (slot : Option Proposal) : Prop := ∀ p, slot = some p → FromPlan p.plan

theorem storedOk_setStatus {slot : Option Proposal} (h : StoredOk slot) (s : ProposalStatus) :
    StoredOk (setStatus slot s) := by
  intro p hp
  obtain ⟨q, hq, rfl⟩ := Option.map_eq_some_iff.mp hp
  exact h q hq

theorem storedOk_keep {slot slot' : Option Proposal} {d : Document} {trigger : ProposalTrigger}
    {lines : List String} (hs : StoredOk slot) (hd : FromPlan d)
    (h : keep slot d trigger = .ok (slot', lines)) : StoredOk slot' := by
  rcases (keep_ok h).2.2 with rfl | rfl | ⟨version, rfl⟩
  · exact hs
  · exact storedOk_setStatus hs _
  · intro p hp
    obtain rfl := Option.some.inj hp
    exact hd

/-- The document of a plan under way. -/
theorem fromPlan_planned (planned : Planned) :
    FromPlan (planDocument planned.view.fiat planned.legs) := ⟨_, _, planned.distinct, rfl⟩

/-- Every transaction keeps the slot made from a plan, and moves it forward. -/
theorem slot_run {t : Txn} {now : Int} {db db' : Db} {a : t.Ans} (h : t.run now db = .ok (a, db')) :
    Advances db.proposal db'.proposal ∧ (StoredOk db.proposal → StoredOk db'.proposal) := by
  by_cases hw : t.writesProposal = false
  · rw [Txn.proposal_of_run h hw]
    exact ⟨.refl _, id⟩
  · cases t with
    | decidePropose planned trigger =>
      obtain ⟨lines, hk⟩ := decidePropose_run h
      exact ⟨(keep_ok hk).1, fun hs => storedOk_keep hs (fromPlan_planned planned) hk⟩
    | decideApprove version planned =>
      have hd := decideApprove_run h
      refine ⟨advances_decideApprove hd, fun hs => ?_⟩
      cases ha : a.1 with
      | none =>
        rw [ha] at hd
        obtain ⟨p, -, -, -, -, -, hslot⟩ := decideApprove_through hd
        rw [hslot]
        intro q hq
        obtain rfl := Option.some.inj hq
        exact fromPlan_planned planned
      | some s =>
        rw [ha] at hd
        rcases (decideApprove_superseded hd).2 with hslot | ⟨trigger, lines, hk⟩
        · rw [hslot]
          exact hs
        · exact storedOk_keep hs (fromPlan_planned planned) hk
    | decideRebalance =>
      cases h
      refine ⟨advances_decideRebalance _ _, fun hs => ?_⟩
      rcases decideRebalance_slot db.settings db.proposal with hslot | hslot
      · change StoredOk (Core.decideRebalance db.settings db.proposal).2.1
        rw [hslot]
        exact hs
      · change StoredOk (Core.decideRebalance db.settings db.proposal).2.1
        rw [hslot]
        exact storedOk_setStatus hs _
    | setExecuted =>
      cases h
      exact ⟨advances_setStatus _ (by decide), fun hs => storedOk_setStatus hs _⟩
    | withdraw version =>
      rcases withdrawVersion_ok (withdraw_run h) with ⟨-, hslot⟩ | ⟨-, hslot, -⟩
      · rw [hslot]
        exact ⟨.refl _, id⟩
      · rw [hslot]
        exact ⟨advances_setStatus _ (by decide), fun hs => storedOk_setStatus hs _⟩
    | _ => exact absurd rfl hw

/-- One operation moves the slot forward and keeps it made from a plan. -/
theorem slot_step {honest : Prop} {i : Nat} {o : Op} {w w' : World} {b : Ans o}
    (h : answered honest i o w b w') :
    Advances w.db.proposal w'.db.proposal ∧ (StoredOk w.db.proposal → StoredOk w'.db.proposal) := by
  cases o with
  | tx t =>
    rcases h with ⟨e, -, -, rfl⟩ | ⟨a, db, hrun, -, rfl⟩
    · exact ⟨.refl _, id⟩
    · exact slot_run hrun
  | post r =>
    obtain ⟨remote, rfl, -⟩ := h
    exact ⟨.refl _, id⟩
  | tryLock =>
    rcases h with ⟨-, -, rfl⟩ | ⟨-, rfl⟩
    · exact ⟨.refl _, id⟩
    · exact ⟨.refl _, id⟩
  | unlock =>
    rcases h with rfl | ⟨-, rfl⟩
    · exact ⟨.refl _, id⟩
    · exact ⟨.refl _, id⟩
  | now =>
    obtain ⟨-, rfl⟩ := h
    exact ⟨.refl _, id⟩
  | _ =>
    obtain rfl := h
    exact ⟨.refl _, id⟩

/-! ## The contract -/

/-- Every operation is allowed by the history, and the slot was made from a plan. -/
def authority (honest : Prop) : Contract (system honest).recorded where
  inv w := StoredOk w.now.db.proposal
  rely _ w w' := w.past <:+ w'.past
  guard i c o w := Allowed i c w.past o
  rely_refl _ w := List.suffix_refl w.past
  rely_trans h h' := h.trans h'
  env_ok hi h := by
    refine ⟨?_, fun _ => h.2 ▸ List.suffix_refl _⟩
    rw [h.1.proposal]
    exact hi
  died_ok hi := ⟨hi, fun _ _ => List.suffix_refl _⟩
  step_ok hi _ h := ⟨(slot_step h.1).2 hi, fun _ _ => h.2 ▸ List.suffix_cons _ _⟩

section Code

variable {honest : Prop} {i : Nat} {c : Request}

theorem stable_lasting {P : List Ev → Prop} (hP : Lasting P) :
    (authority honest).Stable i fun w => P w.past := fun h hr _ => hP hr h

/-- A part of a call whose operations are allowed wherever `P` holds keeps `P`. -/
theorem authority_calls {P : List Ev → Prop} (hP : Lasting P) {ok : Op → Prop}
    (hok : ∀ o, ok o → ∀ past, P past → Allowed i c past o) {α : Type} {J : Locals → Prop}
    {m : Work α} (hm : m.Calls ok J) {l : Locals} (hl : J l) {w : Rec} (hw : P w.past)
    {Q : Except Exn α → Locals → Rec → Prop} (hQ : ∀ r l w', J l → P w'.past → Q r l w') :
    m.Wp (authority honest) i c Q l w := by
  refine wp_of_calls (stable_lasting hP) ?_ hm hl hw hQ
  intro o ho w₁ hw₁ hi
  refine ⟨hok o ho w₁.past hw₁, ?_⟩
  intro b w₂ hs _
  exact hP (hs.2 ▸ List.suffix_cons _ _) hw₁

/-- A part of a call whose operations need nothing keeps any lasting property. -/
theorem authority_free {P : List Ev → Prop} (hP : Lasting P) {α : Type} {J : Locals → Prop}
    {m : Work α} (hm : m.Calls Free J) {l : Locals} (hl : J l) {w : Rec} (hw : P w.past)
    {Q : Except Exn α → Locals → Rec → Prop} (hQ : ∀ r l w', J l → P w'.past → Q r l w') :
    m.Wp (authority honest) i c Q l w :=
  authority_calls hP (fun _ ho past _ => ho.allowed i c past) hm hl hw hQ

/-- One transaction that writes the proposal. -/
theorem authority_tx {t : Txn} {P : List Ev → Prop} (hP : Lasting P)
    {Q : Except Exn t.Ans → Locals → Rec → Prop} {l : Locals} {w : Rec} (hw : P w.past)
    (hallowed : ∀ past, P past → MayWrite i c past t)
    (hQ : ∀ (b : Except Exn t.Ans) (before : World) (w₂ : Rec) (es : List Ev), P es →
      w₂.past = ⟨i, c, .tx t, b, before, w₂.now⟩ :: es → Q b l w₂) :
    (transact t).Wp (authority honest) i c Q l w := by
  refine wp_attempt ?_
  intro w₁ hr hi
  have hw₁ : P w₁.past := hP hr hw
  refine ⟨⟨nofun, ?_⟩, ?_⟩
  · intro t' ht
    cases ht
    exact hallowed w₁.past hw₁
  · intro b w₂ hs _
    exact hQ b w₁.now w₂ w₁.past hw₁ hs.2

end Code

end Coinpilot.Safety
