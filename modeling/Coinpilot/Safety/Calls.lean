import Coinpilot.Safety.Authority

/-!
# The code of every call is allowed

`authority_covers`: whatever the world answers and whatever the other calls do, each operation of each
call is allowed by the history. The parts before and after a decision need nothing; what is sent
after it needs that the decision went through.
-/

set_option autoImplicit false

namespace Coinpilot.Safety

open Coinpilot.Lib Coinpilot.Lib.Program Coinpilot.Exchange Coinpilot.Engine Coinpilot.Core

section Code

variable {honest : Prop} {i : Nat} {c : Request} {P : List Ev → Prop}

/-- A note that an approval went through is backed by the history. -/
def Noted (P : List Ev → Prop) (l : Locals) (w : Rec) : Prop := l.executing = true → P w.past

/-- Parts that need nothing keep the note backed. -/
theorem noted_free (hP : Lasting P) {α : Type} {m : Work α}
    (hm : ∀ b, m.Calls Free (NotedAs b)) {l : Locals} {w : Rec} (h : Noted P l w)
    {Q : Except Exn α → Locals → Rec → Prop} (hQ : ∀ r l w, Noted P l w → Q r l w) :
    m.Wp (authority honest) i c Q l w := by
  cases hl : l.executing with
  | true =>
    refine authority_free hP (hm true) hl (h hl) ?_
    intro r l' w' _ hp
    exact hQ r l' w' fun _ => hp
  | false =>
    refine authority_free lasting_true (hm false) hl trivial ?_
    intro r l' w' hl' _
    refine hQ r l' w' fun hx => ?_
    rw [show l'.executing = false from hl'] at hx
    cases hx

theorem noted_then (hP : Lasting P) {α β : Type} {m : Work α} {f : α → Work β}
    (hm : ∀ b, m.Calls Free (NotedAs b)) {l : Locals} {w : Rec} (h : Noted P l w)
    (hf : ∀ a l w, Noted P l w →
      (f a).Wp (authority honest) i c (fun _ => Noted P) l w) :
    (m >>= f).Wp (authority honest) i c (fun _ => Noted P) l w := by
  refine wp_bind (noted_free hP hm h ?_)
  rintro (e | a) l' w' h'
  · exact h'
  · exact hf a l' w' h'

/-- The same after a part whose result is known. -/
theorem noted_only {α β : Type} (hP : Lasting P) {m : Work α} {f : α → Work β}
    {R : Except Exn α → Prop} (hm : m.Only Free R) {l : Locals} {w : Rec} (h : Noted P l w)
    (hf : ∀ a l w, R (.ok a) → Noted P l w →
      (f a).Wp (authority honest) i c (fun _ => Noted P) l w) :
    (m >>= f).Wp (authority honest) i c (fun _ => Noted P) l w := by
  have hstable : (authority honest).Stable i fun w => Noted P l w := by
    intro w w' hn hr _ hx
    exact hP hr (hn hx)
  refine wp_bind (Proc.wp_of_only hstable ?_ hm h ?_)
  · intro o ho w₁ hw₁ _
    refine ⟨ho.allowed i c w₁.past, ?_⟩
    intro b w₂ hs _ hx
    exact hP (hs.2 ▸ List.suffix_cons _ _) (hw₁ hx)
  · rintro (e | a) w' hr hw'
    · exact hw'
    · exact hf a l w' hr hw'

/-- What a decision must show: where it lets a plan through, `P` holds. -/
def Decides (honest : Prop) (i : Nat) (c : Request) (P : List Ev → Prop) (decide : Decision) : Prop :=
  ∀ planned l w, Noted P l w →
    (decide planned).Wp (authority honest) i c
      (fun r l w => (r = .ok none → P w.past) ∧ Noted P l w) l w

/-- The steps of an evaluation: what is sent is sent after the decision. -/
theorem evaluateSteps_noted (hP : Lasting P) {account : Account} {sells : Bool}
    (hsells : account.policy.allowSells = sells)
    (hplace : ∀ past, P past → ∀ s : Bool, (s = true → sells = true) → MayPlace i c past s)
    {decide : Decision} (hdecide : Decides honest i c P decide) (id : Nat) (reason : OrderReason)
    {l : Locals} {w : Rec} (h : Noted P l w) :
    (evaluateSteps id account reason decide).Wp (authority honest) i c (fun _ => Noted P) l w := by
  have hnow : Free .now := ⟨rfl, by intro t ht; cases ht⟩
  refine noted_then hP (fun _ => currentTime_calls hnow) h ?_
  intro now l w h
  refine noted_then hP (fun _ => (resolvePending_calls now).mono fun o => free_of_resolves) h ?_
  intro resolution l w h
  refine noted_then hP (fun _ => logLines_calls _) h ?_
  intro _ l w h
  split
  · have hplan := Proc.only_mono (plan_only account) (fun o => free_of_plans)
      fun _ hr planned h => (hr planned h).buys
    refine noted_only hP hplan h ?_
    intro planned l w hbuys h
    refine noted_then hP (fun _ => currentTime_calls hnow) h ?_
    intro asOf l w h
    refine noted_then hP (fun _ => transact_calls (free_tx rfl)) h ?_
    intro snapshot l w h
    refine wp_bind (Proc.wp_mono (hdecide planned l w h) ?_)
    rintro (e | verdict) l w ⟨hthrough, h⟩
    · exact h
    · cases verdict with
      | some status => exact wp_pure h
      | none =>
        -- The decision went through, so the orders of the plan may be placed.
        have hp : P w.past := hthrough rfl
        have hlegs : ∀ leg ∈ planned.legs, leg.side = .sell → sells = true := by
          intro leg hleg hsell
          cases hs : sells with
          | true => rfl
          | false =>
            have hbuy := hbuys planned rfl (hsells.trans hs) leg hleg
            rw [hbuy] at hsell
            cases hsell
        refine authority_calls hP (fun o ho past hpast => SendsOnly.allowed ho (hplace past hpast))
          (calls_bind (sendAll_calls (b := l.executing) hlegs id reason account.fiat snapshot) ?_)
          rfl hp fun _ _ _ _ hp' _ => hp'
        intro stopped
        refine calls_bind calls_getLocals ?_
        intro l'
        split
        · exact calls_bind (logLines_calls _) fun _ => calls_pure _
        · exact calls_pure _
  · refine noted_free hP ?_ h fun _ _ _ h => h
    intro b
    refine calls_bind (logLines_calls _) ?_
    intro _
    exact calls_bind (calls_modifyLocals fun _ h => h) fun _ => calls_pure _

theorem runEvaluation_noted (hP : Lasting P) {account : Account} {sells : Bool}
    (hsells : account.policy.allowSells = sells)
    (hplace : ∀ past, P past → ∀ s : Bool, (s = true → sells = true) → MayPlace i c past s)
    {decide : Decision} (hdecide : Decides honest i c P decide) (reason : OrderReason)
    (operation : Operation) (trigger : Trigger) {l : Locals} {w : Rec} (h : Noted P l w) :
    (runEvaluation account reason decide operation trigger).Wp (authority honest) i c
      (fun _ => Noted P) l w := by
  have hnow : Free .now := ⟨rfl, by intro t ht; cases ht⟩
  refine noted_then hP (fun _ => currentTime_calls hnow) h ?_
  intro startedAt l w h
  refine noted_then hP (fun _ => transact_calls (free_tx rfl)) h ?_
  intro id l w h
  have hcaught : (caught (evaluateSteps id account reason decide)).Wp (authority honest) i c
      (fun _ => Noted P) l w := by
    refine wp_tryCatch (wp_bind (Proc.wp_mono
      (evaluateSteps_noted hP hsells hplace hdecide id reason h) ?_))
    rintro (e | status) l w h
    · refine noted_free hP ?_ h fun _ _ _ h => h
      intro b
      cases e with
      | portfolioUnavailable what => exact calls_bind (logLines_calls _) fun _ => calls_pure _
      | _ => exact calls_pure _
    · exact h
  refine wp_bind (Proc.wp_mono hcaught ?_)
  rintro (e | outcome) l w h
  · exact h
  refine noted_then hP (fun _ => currentTime_calls hnow) h ?_
  intro finishedAt l w h
  refine noted_free hP ?_ h fun _ _ _ h => h
  intro b
  refine calls_bind calls_getLocals ?_
  intro l
  refine calls_bind (transact_calls (free_tx rfl)) ?_
  intro _
  exact calls_bind (calls_fromExcept _) fun _ => calls_pure _

/-- An account loaded for an evaluation allows sells as the evaluation does. -/
theorem load_allowSells {allowSells : Bool} {now : Int} {db db' : Db} {account : Account}
    (h : (Txn.load allowSells).run now db = .ok (account, db')) :
    account.policy.allowSells = allowSells := by
  simp only [Txn.run] at h
  cases hl : loadAccount db allowSells with
  | error e => rw [hl] at h; cases h
  | ok a =>
    rw [hl] at h
    cases h
    unfold loadAccount at hl
    split at hl
    · cases hl
    · split at hl
      · cases hl
      · cases hl
        rfl

theorem load_noted (hP : Lasting P) (allowSells : Bool) {β : Type} {f : Account → Work β} {l : Locals}
    {w : Rec} (h : Noted P l w)
    (hf : ∀ account l w, account.policy.allowSells = allowSells → Noted P l w →
      (f account).Wp (authority honest) i c (fun _ => Noted P) l w) :
    ((transact (.load allowSells) : Work Account) >>= f).Wp (authority honest) i c
      (fun _ => Noted P) l w := by
  refine wp_bind (wp_attempt ?_)
  intro w₁ hr _
  refine ⟨(free_tx rfl).allowed i c w₁.past, ?_⟩
  intro b w₂ hs _
  have h₂ : Noted P l w₂ := fun hx => hP (hr.trans (hs.2 ▸ List.suffix_cons _ _)) (h hx)
  rcases hs.1 with ⟨e, rfl, -, -⟩ | ⟨account, db, hrun, rfl, -⟩
  · exact h₂
  · exact hf account l w₂ (load_allowSells hrun) h₂

/-- An evaluation, from its configuration to the lock it gives back. -/
theorem evaluate_noted (hP : Lasting P) (allowSells : Bool)
    (hplace : ∀ past, P past → ∀ s : Bool, (s = true → allowSells = true) → MayPlace i c past s)
    {decide : Decision} (hdecide : Decides honest i c P decide) (reason : OrderReason)
    (operation : Operation) (trigger : Trigger) {l : Locals} {w : Rec} (h : Noted P l w) :
    (evaluate allowSells reason decide operation trigger).Wp (authority honest) i c
      (fun _ => Noted P) l w := by
  refine load_noted hP allowSells h ?_
  intro account l w hsells h
  have hunseal : Free (.unseal account.sealed) := ⟨rfl, by intro t ht; cases ht⟩
  refine noted_then hP (fun _ => calls_attempt hunseal _) h ?_
  intro _ l w h
  have htry : Free .tryLock := ⟨rfl, by intro t ht; cases ht⟩
  refine noted_then hP (fun _ => calls_attempt htry _) h ?_
  intro taken l w h
  split
  · refine wp_tryFinally (Proc.wp_mono
      (runEvaluation_noted hP hsells hplace hdecide reason operation trigger h) ?_)
    intro r l w h
    have hunlock : Free .unlock := ⟨rfl, by intro t ht; cases ht⟩
    refine noted_free hP (fun _ => calls_attempt hunlock _) h ?_
    rintro (e | u) l w h
    · exact h
    · exact h
  · exact wp_throw h

/-! ## Each call -/

/-- A preview needs nothing. -/
theorem previewLegs_noted {b : Bool} (legs : List PlannedLeg) :
    (previewLegs legs).Calls Free (NotedAs b) := by
  induction legs with
  | nil => exact calls_pure _
  | cons leg rest ih =>
    have hleg : (previewLeg leg).Calls Free (NotedAs b) := by
      unfold previewLeg
      cases leg.note with
      | some note => exact calls_pure _
      | none =>
        have huuid : Free .newUuid := ⟨rfl, by intro t ht; cases ht⟩
        refine calls_bind (newClOrdId_calls huuid) ?_
        intro c
        have hplace : (place leg c true).Calls Free (NotedAs b) := by
          unfold place
          cases leg.side with
          | buy => exact calls_bind (calls_perform (free_post rfl)) fun _ => calls_pure _
          | sell =>
            cases leg.volume with
            | none => exact calls_throw _
            | some v => exact calls_bind (calls_perform (free_post rfl)) fun _ => calls_pure _
        exact calls_bind hplace fun _ => calls_pure _
    refine calls_bind hleg ?_
    intro r
    exact calls_bind ih fun _ => calls_pure _

theorem previewInvestment_calls {b : Bool} (account : Account) :
    (previewInvestment account).Calls Free (NotedAs b) := by
  refine calls_bind (transact_calls (free_tx rfl)) ?_
  intro unresolved
  split
  · exact calls_pure _
  · have hplan : (caughtPlan account).Calls Free (NotedAs b) := by
      refine calls_tryCatch ?_ ?_
      · refine calls_bind ((plan_only account).calls.mono fun o => free_of_plans) ?_
        intro planned
        exact calls_pure _
      · intro e
        cases e with
        | portfolioUnavailable what => exact calls_pure _
        | _ => exact calls_throw _
    refine calls_bind hplan ?_
    intro r
    cases r with
    | error what => exact calls_pure _
    | ok planned => exact calls_bind (previewLegs_noted _) fun _ => calls_pure _

theorem stillScheduled_calls {b : Bool} (planned : Planned) :
    (stillScheduled planned).Calls Free (NotedAs b) := by
  refine calls_bind (transact_calls (free_tx rfl)) ?_
  intro settings
  split
  · exact calls_bind (logLines_calls _) fun _ => calls_pure _
  · split
    · exact calls_bind (logLines_calls _) fun _ => calls_pure _
    · exact calls_pure _

theorem invest_noted (preview : Bool) (trigger : Trigger) {w : Rec} :
    (invest preview trigger).Wp (authority honest) i (.invest preview trigger)
      (fun _ => Noted fun _ => True) {} w := by
  unfold invest
  cases preview with
  | true =>
    refine noted_free lasting_true ?_ (fun _ => trivial) fun _ _ _ h => h
    intro b
    refine calls_bind (transact_calls (free_tx rfl)) ?_
    intro account
    have hunseal : Free (.unseal account.sealed) := ⟨rfl, by intro t ht; cases ht⟩
    exact calls_bind (calls_attempt hunseal _) fun _ => previewInvestment_calls account
  | false =>
    refine evaluate_noted lasting_true false ?_ ?_ _ _ _ fun _ => trivial
    · intro past _ s hs
      cases s with
      | true => exact absurd (hs rfl) (by decide)
      | false => rfl
    · intro planned l w h
      refine noted_free lasting_true ?_ h fun _ _ _ h => ⟨fun _ => trivial, h⟩
      intro b
      split
      · exact stillScheduled_calls planned
      · exact calls_pure _

theorem propose_noted (trigger : Trigger) {w : Rec} :
    (propose trigger).Wp (authority honest) i (.propose trigger)
      (fun _ => Noted fun _ => False) {} w := by
  have hP : Lasting fun _ => False := fun _ h => h
  have hstart : Noted (fun _ => False) {} w := by
    intro hx
    cases hx
  refine wp_bind (Proc.wp_mono (evaluate_noted hP true ?_ ?_ _ _ _ hstart) ?_)
  · intro past hp
    cases hp
  · intro planned l w h
    -- A proposal's decision always ends the evaluation.
    refine wp_bind (wp_attempt ?_)
    intro w₁ hr _
    refine ⟨⟨nofun, ?_⟩, ?_⟩
    · intro t ht
      cases ht
      exact ⟨trigger, rfl⟩
    · intro b w₂ hs _
      rcases hs.1 with ⟨e, rfl, -, -⟩ | ⟨a, db, hrun, rfl, -⟩
      · exact ⟨nofun, h⟩
      · refine wp_bind (wp_modifyLocals (wp_pure ⟨?_, h⟩))
        intro hnone
        rcases decidePropose_some hrun with hsome | hsome
        · rw [hsome] at hnone
          cases hnone
        · rw [hsome] at hnone
          cases hnone
  · rintro (e | result) l w h
    · exact h
    · refine noted_free hP ?_ h fun _ _ _ h => h
      intro b
      exact calls_bind (transact_calls (free_tx rfl)) fun _ => calls_pure _

/-- The decision of an approval: it notes that it went through, and then it did. -/
theorem approving_decides (version : Int) :
    Decides honest i (.approve version) (Approved i version) (approving version) := by
  intro planned l w h
  have hP : Lasting (Approved i version) := lasting_approved i version
  refine wp_bind (wp_attempt ?_)
  intro w₁ hr _
  refine ⟨⟨nofun, ?_⟩, ?_⟩
  · intro t ht
    cases ht
    rfl
  · intro b w₂ hs _
    have h₂ : Noted (Approved i version) l w₂ :=
      fun hx => hP (hr.trans (hs.2 ▸ List.suffix_cons _ _)) (h hx)
    rcases hs.1 with ⟨e, rfl, -, -⟩ | ⟨⟨status, lines⟩, db, hrun, rfl, -⟩
    · exact ⟨nofun, h₂⟩
    · cases status with
      | some s =>
        refine wp_bind (wp_modifyLocals (wp_pure ⟨?_, h₂⟩))
        intro hnone
        cases hnone
      | none =>
        have hthrough : Approved i version w₂.past := by
          refine ⟨planned, _, hs.2 ▸ List.mem_cons_self, ?_⟩
          exact ⟨_, lines, _, _, rfl⟩
        refine wp_bind (wp_modifyLocals ?_)
        refine wp_bind (wp_modifyLocals (wp_pure ?_))
        exact ⟨fun _ => hthrough, fun _ => hthrough⟩

theorem approve_noted (version : Int) {w : Rec} :
    (approve version).Wp (authority honest) i (.approve version)
      (fun _ => Noted (Approved i version)) {} w := by
  have hP : Lasting (Approved i version) := lasting_approved i version
  have hstart : Noted (Approved i version) {} w := by
    intro hx
    cases hx
  refine noted_then hP (fun _ => transact_calls (free_tx rfl)) hstart ?_
  intro slot l w h
  cases slot with
  | none => exact wp_throw h
  | some slot =>
    dsimp only
    split
    · exact wp_throw h
    · have hdecides : Decides honest i (.approve version) (Approved i version) (approving version) :=
        approving_decides version
      have hplace : ∀ past, Approved i version past → ∀ s : Bool, (s = true → true = true) →
          MayPlace i (.approve version) past s := fun past hp _ _ => hp
      have hevaluate := evaluate_noted hP true hplace hdecides .rebalance .approve .api h
      refine wp_bind (wp_tryFinally (Proc.wp_mono hevaluate ?_))
      intro r l w h
      -- The closing step is allowed because the note is backed.
      have hclose : closeApproval.Wp (authority honest) i (.approve version)
          (fun _ => Noted (Approved i version)) l w := by
        refine wp_bind (wp_getLocals ?_)
        dsimp only
        by_cases hx : l.executing = true
        · rw [if_pos hx]
          refine authority_tx hP (h hx) (fun past hp => ⟨version, rfl, hp⟩) ?_
          intro b before w₂ es hes hpast _
          exact hP (hpast ▸ List.suffix_cons _ _) hes
        · rw [if_neg hx]
          exact wp_pure h
      refine Proc.wp_mono hclose ?_
      rintro (e | u) l w h
      · exact h
      · cases r with
        | error e => exact h
        | ok result =>
          refine noted_free hP ?_ h fun _ _ _ h => h
          intro b
          exact calls_bind (transact_calls (free_tx rfl)) fun _ => calls_pure _

theorem rebalanceNow_noted {w : Rec} :
    rebalanceNow.Wp (authority honest) i .rebalanceNow
      (fun _ => Noted fun past => ∃ e ∈ past, AutoAllowed i e) {} w := by
  have hP : Lasting fun past => ∃ e ∈ past, AutoAllowed i e := lasting_auto i
  have hplace : ∀ past : List Ev, (∃ e ∈ past, AutoAllowed i e) → ∀ s : Bool, (s = true → true = true) →
      MayPlace i .rebalanceNow past s := fun past hp _ _ => hp
  refine evaluate_noted hP true hplace ?_ _ _ _ fun hx => by cases hx
  intro planned l w h
  refine wp_bind (wp_attempt ?_)
  intro w₁ hr _
  refine ⟨⟨nofun, ?_⟩, ?_⟩
  · intro t ht
    cases ht
    rfl
  · intro b w₂ hs _
    have h₂ : Noted (fun past => ∃ e ∈ past, AutoAllowed i e) l w₂ :=
      fun hx => hP (hr.trans (hs.2 ▸ List.suffix_cons _ _)) (h hx)
    rcases hs.1 with ⟨e, rfl, -, -⟩ | ⟨⟨status, lines⟩, db, hrun, rfl, -⟩
    · exact ⟨nofun, h₂⟩
    · refine wp_bind (wp_modifyLocals (wp_pure ⟨?_, h₂⟩))
      intro hnone
      obtain rfl : status = none := Except.ok.inj hnone
      exact ⟨_, hs.2 ▸ List.mem_cons_self, _, lines, _, _, rfl⟩

end Code

/-- The code of every call is allowed, whatever the answers and the other calls. -/
theorem authority_covers (honest : Prop) :
    (authority honest).Covers program (fun _ _ => True) fun _ _ _ _ => True where
  fresh_stable _ _ _ _ _ _ := trivial
  post_stable _ _ _ _ _ _ _ _ := trivial
  code_ok i c w _ _ := by
    have hdone : ∀ {α : Type} {m : Work α} {P : List Ev → Prop} {f : α → Outcome},
        m.Wp (authority honest) i c (fun _ => Noted P) {} w →
          Proc.Wp (authority honest) i c (do return f (← m)) (fun _ _ _ => True) {} w := by
      intro α m P f h
      refine wp_bind (Proc.wp_mono h ?_)
      rintro (e | a) l w _
      · trivial
      · trivial
    cases c with
    | invest preview trigger => exact hdone (invest_noted preview trigger)
    | propose trigger => exact Proc.wp_mono (propose_noted trigger) fun _ _ _ _ => trivial
    | approve version => exact Proc.wp_mono (approve_noted version) fun _ _ _ _ => trivial
    | rebalanceNow => exact hdone rebalanceNow_noted
    | withdraw version =>
      have hown : ∀ past : List Ev, True → MayWrite i (.withdraw version) past (.withdraw version) :=
        fun _ _ => rfl
      have hall : (handle (.withdraw version)).Wp (authority honest) i (.withdraw version)
          (fun _ _ _ => True) {} w := by
        refine wp_bind (authority_tx lasting_true trivial hown ?_)
        rintro (e | b) before w₂ es _ _
        · trivial
        · trivial
      exact hall

end Coinpilot.Safety
