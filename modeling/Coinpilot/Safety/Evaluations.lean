import Coinpilot.Safety.Placing

/-!
# Every call keeps the rules of the ledger

An evaluation under the lock: resolving, planning, deciding, sending and closing (`wp_runEvaluation`),
and the calls around it. `ledger_covers` says that the code of every call meets `ledgerRules`,
whatever the answers and the other calls. A call that ends with a result recorded its status.
-/

set_option autoImplicit false

namespace Coinpilot.Safety

open Coinpilot.Lib Coinpilot.Lib.Program Coinpilot.Exchange Coinpilot.Engine Coinpilot.Core

section Rules

variable {honest : Prop} {i : Nat} {c : Request} {n : Int} {s id : Nat} {l : Ledger}
  {xs : List Exchanged} {locals : Locals} {w : Rec}

/-! ## Planning and deciding -/

/-- Reading for a plan under the lock, once no row is pending. -/
theorem wp_plan {account : Account} (hsettled : ∀ row ∈ l.rows, row.status ≠ .pending)
    (hxs : ¬Places xs) (hw : At i n s l xs w) {Q : Except Exn Planned → Locals → Rec → Prop}
    (hQ : ∀ r xs w₂, ¬Places xs → At i n s l xs w₂ → Q r locals w₂) :
    (plan account).Wp (ledgerRules honest) i c Q locals w := by
  have hstable : (ledgerRules honest).Stable i fun w => ∃ xs, ¬Places xs ∧ At i n s l xs w := by
    rintro w w' ⟨xs, hxs, hw⟩ hk hi
    exact ⟨xs, hxs, at_stable hw hk hi⟩
  refine Proc.wp_of_only hstable ?_ (plan_only account) ⟨xs, hxs, hw⟩ ?_
  · rintro o ho w₁ ⟨xs, hxs, hw₁⟩ hi
    have hpermitted : Permitted honest i c o w₁ := by
      refine ⟨fun _ => hw₁.lock, ?_, fun _ _ => hw₁.ledger ▸ hsettled, ?_⟩
      · intro clOrdId hc
        cases o with
        | post r =>
          cases r with
          | balance => cases hc
          | _ => cases ho
        | _ => cases hc
      · rintro t rfl
        cases ho
    refine ⟨hpermitted, ?_⟩
    intro b w₂ hs _
    cases o with
    | post r =>
      cases r with
      | balance =>
        obtain ⟨⟨remote, heq, -⟩, hpast⟩ := hs
        refine ⟨(.balance, b) :: xs, ?_, ?_, ?_, ?_, ?_, ?_⟩
        · rintro ⟨x, hx, hc⟩
          rcases List.mem_cons.mp hx with rfl | hx
          · cases hc
          · exact hxs ⟨x, hx, hc⟩
        · rw [heq]
          exact hw₁.lock
        · rw [heq]
          exact hw₁.ledger
        · rw [hpast]
          exact (posts_cons_post _).trans (congrArg _ hw₁.posts)
        · rw [heq]
          exact hw₁.clock
        · rw [heq]
          exact hw₁.sessions
      | _ => cases ho
    | assetNames => exact ⟨xs, hxs, at_same hw₁ hs hs.1 rfl⟩
    | assetPairs => exact ⟨xs, hxs, at_same hw₁ hs hs.1 rfl⟩
    | ticker pairs => exact ⟨xs, hxs, at_same hw₁ hs hs.1 rfl⟩
    | assetDecimals => exact ⟨xs, hxs, at_same hw₁ hs hs.1 rfl⟩
    | _ => cases ho
  · rintro r w₂ - ⟨xs, hxs, hw₂⟩
    exact hQ r xs w₂ hxs hw₂

/-- A status that says that nothing was sent. -/
def Unsent (status : EvaluationStatus) : Prop :=
  status ≠ .stopped ∧ status ≠ .partly ∧ status ≠ .done ∧ status ≠ .error

/-- A decision under the lock writes no row, has no exchange, and ends an evaluation unsent. -/
def DecidesQuietly (honest : Prop) (i : Nat) (c : Request) (decide : Decision) : Prop :=
  ∀ planned (n : Int) (s : Nat) (l : Ledger) (xs : List Exchanged) (locals : Locals) (w : Rec),
    At i n s l xs w → (decide planned).Wp (ledgerRules honest) i c
      (fun r locals' w' => locals'.legs = locals.legs ∧ At i n s l xs w' ∧
        (∀ e, r = .error e → e.isUnavailable = false) ∧ ∀ status, r = .ok (some status) → Unsent status)
      locals w

theorem sendIt_quiet : DecidesQuietly honest i c sendIt := by
  intro planned n s l xs locals w hw
  exact ⟨rfl, hw, nofun, nofun⟩

theorem stillScheduled_quiet : DecidesQuietly honest i c stillScheduled := by
  intro planned n s l xs locals w hw
  refine wp_bind (wp_tx_quiet hw rfl nofun ?_ ?_)
  · intro e w₂ he hw₂
    refine ⟨rfl, hw₂, ?_, nofun⟩
    intro e' he'
    cases he'
    exact he
  · intro settings _ _ _ _ _ w₂ hw₂
    have hends : ∀ status, (Except.ok (some EvaluationStatus.nothingToDo) : Except Exn _) =
        .ok (some status) → Unsent status := by
      intro status hstatus
      cases hstatus
      exact ⟨by decide, by decide, by decide, by decide⟩
    dsimp only
    split
    · exact ⟨rfl, hw₂, nofun, hends⟩
    · split
      · exact ⟨rfl, hw₂, nofun, hends⟩
      · exact ⟨rfl, hw₂, nofun, nofun⟩

/-- A decision that is one transaction. -/
theorem decideIn_quiet {t : Txn} {read : t.Ans → Option EvaluationStatus × List String}
    (ht : t.writesLedger = false) (hfin : ∀ id status at' log, t ≠ .finishEvaluation id status at' log)
    (hread : ∀ a now db db' status, t.run now db = .ok (a, db') → (read a).1 = some status →
      Unsent status) (hw : At i n s l xs w) :
    (decideIn t read).Wp (ledgerRules honest) i c
      (fun r locals' w' => locals'.legs = locals.legs ∧ At i n s l xs w' ∧
        (∀ e, r = .error e → e.isUnavailable = false) ∧ ∀ status, r = .ok (some status) → Unsent status)
      locals w := by
  refine wp_bind (wp_tx_quiet hw ht hfin ?_ ?_)
  · intro e w₂ he hw₂
    refine ⟨rfl, hw₂, ?_, nofun⟩
    intro e' he'
    cases he'
    exact he
  · intro a now db db' _ hrun w₂ hw₂
    refine ⟨rfl, hw₂, nofun, ?_⟩
    intro status hstatus
    exact hread a now db db' status hrun (Except.ok.inj hstatus)

theorem deciding_propose_quiet (trigger : ProposalTrigger) :
    DecidesQuietly honest i c fun planned => decideIn (.decidePropose planned trigger) fun a => a := by
  intro planned n s l xs locals w hw
  refine decideIn_quiet rfl nofun ?_ hw
  intro a now db db' status hrun hstatus
  rcases decidePropose_some hrun with h | h
  · rw [h] at hstatus
    cases hstatus
    exact ⟨by decide, by decide, by decide, by decide⟩
  · rw [h] at hstatus
    cases hstatus
    exact ⟨by decide, by decide, by decide, by decide⟩

theorem deciding_rebalance_quiet :
    DecidesQuietly honest i c fun _ => decideIn .decideRebalance fun a => a := by
  intro planned n s l xs locals w hw
  refine decideIn_quiet rfl nofun ?_ hw
  intro a now db db' status hrun hstatus
  cases hrun
  rw [decideRebalance_status hstatus]
  exact ⟨by decide, by decide, by decide, by decide⟩

theorem approving_quiet (version : Int) : DecidesQuietly honest i c (approving version) := by
  intro planned n s l xs locals w hw
  refine wp_bind (wp_tx_quiet hw rfl nofun ?_ ?_)
  · intro e w₂ he hw₂
    refine ⟨rfl, hw₂, ?_, nofun⟩
    intro e' he'
    cases he'
    exact he
  · rintro ⟨verdict, lines⟩ now db db' _ hrun w₂ hw₂
    cases verdict with
    | none =>
      refine wp_bind (wp_modifyLocals (wp_bind (wp_modifyLocals (wp_pure ?_))))
      exact ⟨rfl, hw₂, nofun, nofun⟩
    | some verdict =>
      refine wp_bind (wp_modifyLocals (wp_pure ⟨rfl, hw₂, nofun, ?_⟩))
      intro status hstatus
      cases hstatus
      rw [(decideApprove_superseded (decideApprove_run hrun)).1]
      exact ⟨by decide, by decide, by decide, by decide⟩

/-! ## One evaluation -/

/-- What is known when an evaluation closes with a status. -/
def Ended (i id : Nat) (status : EvaluationStatus) (w : Rec) : Prop :=
  w.now.lock = some i ∧ status ≠ .error ∧ (Agrees status (w.now.db.ledger.ofSession id) ↔
    (∃ x ∈ posts i w.past, Lost x) ∨ AllRead none (posts i w.past))

theorem At.ended (hw : At i n s l xs w) {status : EvaluationStatus} (he : status ≠ .error)
    (h : Agrees status (l.ofSession id) ↔ (∃ x ∈ xs, Lost x) ∨ AllRead none xs) :
    Ended i id status w := by
  refine ⟨hw.lock, he, ?_⟩
  rw [hw.ledger, hw.posts]
  exact h

/-- An evaluation that sent nothing closes with a status that says so. -/
theorem At.ended_unsent (hw : At i n s l xs w) (hsession : ∀ row ∈ l.rows, row.sessionId ≠ some id)
    (hxs : ¬Places xs) {status : EvaluationStatus} (h : Unsent status) : Ended i id status w := by
  refine hw.ended h.2.2.2 ?_
  rw [ofSession_empty hsession]
  exact iff_of_true (agrees_nil h.1 h.2.1 h.2.2.1) (Or.inr (allRead_of_not_places hxs none))

/-- How the steps of an evaluation end. One that could not read Kraken sent nothing. -/
def StepsEnd (i id : Nat) (r : Except Exn EvaluationStatus) (w : Rec) : Prop :=
  match r with
  | .ok status => Ended i id status w
  | .error e => w.now.lock = some i ∧ (e.isUnavailable = true → Ended i id .krakenUnavailable w)

theorem FailedIn.stepsEnd {e : Exn} (h : FailedIn i e w) : StepsEnd i id (.error e) w := by
  refine ⟨h.2, fun hu => ?_⟩
  rw [h.1] at hu
  cases hu

theorem wp_evaluateSteps {account : Account} {reason : OrderReason} {decide : Decision}
    (hdecide : DecidesQuietly honest i c decide) (hid : id < s)
    (hsession : ∀ row ∈ l.rows, row.sessionId ≠ some id) (hxs : ¬Places xs) (hlegs : locals.legs = [])
    (hw : At i n s l xs w) :
    (evaluateSteps id account reason decide).Wp (ledgerRules honest) i c
      (fun r _ w => StepsEnd i id r w) locals w := by
  refine wp_bind (wp_currentTime hw ?_)
  intro now w _ hw
  refine wp_bind (wp_resolvePending hsession hxs hw ?_ ?_)
  · intro e w₂ he hl
    exact FailedIn.stepsEnd ⟨he, hl⟩
  intro resolution l xs w hres hxs hw
  refine wp_bind (wp_modifyLocals ?_)
  dsimp only
  by_cases hclear : resolution.clear = true
  · rw [if_pos hclear]
    rw [hclear] at hres
    have hsettled : ∀ row ∈ l.rows, row.status ≠ .pending := by
      intro row hrow hp
      exact absurd (hres.others rfl row hrow hp) List.not_mem_nil
    -- Nothing is pending, so the plan may be computed.
    refine wp_bind (wp_plan hsettled hxs hw ?_)
    rintro (e | planned) xs w hxs hw
    · refine ⟨hw.lock, fun _ => ?_⟩
      exact hw.ended_unsent hres.session hxs ⟨by decide, by decide, by decide, by decide⟩
    refine wp_bind (wp_currentTime hw ?_)
    intro asOf w _ hw
    refine wp_bind (wp_tx_quiet hw rfl nofun ?_ ?_)
    · intro e w₂ he hw₂
      exact FailedIn.stepsEnd ⟨he, hw₂.lock⟩
    intro snapshot _ _ _ _ _ w hw
    refine wp_bind (Proc.wp_mono (hdecide planned _ _ _ _ _ w hw) ?_)
    rintro (e | verdict) locals' w ⟨hlegs', hw, herror, hunsent⟩
    · exact FailedIn.stepsEnd ⟨herror e rfl, hw.lock⟩
    cases verdict with
    | some status => exact hw.ended_unsent hres.session hxs (hunsent status rfl)
    | none =>
      have hstart : SendingIn i asOf s id false locals' w := by
        refine ⟨l, xs, ?_, hw⟩
        rw [hlegs']
        simp only [hlegs]
        exact Sending.start hres hxs
      refine wp_bind (Proc.wp_mono (wp_sendAll hid hstart) ?_)
      rintro (e | stopped) locals' w h
      · exact h.stepsEnd
      · obtain ⟨l, xs, hs, hw⟩ := h
        refine wp_bind (wp_getLocals ?_)
        dsimp only
        split
        · exact hw.ended (statusOf_ne_error _ _) hs.agrees
        · exact hw.ended (statusOf_ne_error _ _) hs.agrees
  · rw [if_neg hclear]
    refine wp_bind (wp_modifyLocals ?_)
    refine wp_bind (wp_modifyLocals (wp_pure ?_))
    exact hw.ended_unsent hres.session hxs ⟨by decide, by decide, by decide, by decide⟩

/-- What a call's result says was recorded when its evaluation closed. -/
def RecordedResult (i : Nat) (result : EvaluationResult) (w : Rec) : Prop :=
  result.status ≠ .error ∧ ∃ c id at' log before after,
    ⟨i, c, .tx (.finishEvaluation id result.status at' log), .ok (), before, after⟩ ∈ w.past

theorem RecordedResult.later {w' : Rec} {result : EvaluationResult} (h : RecordedResult i result w)
    (hp : w.past <:+ w'.past) : RecordedResult i result w' := by
  obtain ⟨hne, c, id, at', log, before, after, he⟩ := h
  exact ⟨hne, c, id, at', log, before, after, hp.subset he⟩

theorem ended_stable {status : EvaluationStatus} : (ledgerRules honest).Stable i (Ended i id status) := by
  rintro w w' ⟨hl, he, h⟩ hk _
  obtain ⟨hl', hledger, -⟩ := hk.held hl
  refine ⟨hl', he, ?_⟩
  rw [hledger, hk.posts]
  exact h

theorem at_of_lock (h : w.now.lock = some i) :
    At i w.now.clock w.now.db.sessions.length w.now.db.ledger (posts i w.past) w :=
  ⟨h, rfl, rfl, le_rfl, le_rfl⟩

/-- The record of an evaluation, closed whatever happened. -/
theorem wp_runEvaluation {account : Account} {reason : OrderReason} {decide : Decision}
    {operation : Operation} {trigger : Trigger} (hdecide : DecidesQuietly honest i c decide)
    (hlegs : locals.legs = []) (hxs : ¬Places xs) (hw : At i n s l xs w) :
    (runEvaluation account reason decide operation trigger).Wp (ledgerRules honest) i c
      (fun r _ w => ∀ result, r = .ok result → RecordedResult i result w) locals w := by
  refine wp_bind (wp_currentTime hw ?_)
  intro startedAt w _ hw
  refine wp_bind (wp_tx durable_true hw (fun _ => trivial) ?_ ?_ ?_)
  · intro w₁ _ _ _
    trivial
  · intro e w₂ _ _ result hresult
    cases hresult
  intro id db w₁ w₂ hw₁ hi₁ _ hrun hnow hw₂
  cases hrun
  -- The new evaluation is the next one, and no row is its.
  have hsession : ∀ row ∈ w₁.now.db.ledger.rows, row.sessionId ≠ some w₁.now.db.sessions.length := by
    intro row hrow hs
    exact absurd (hi₁.recorded row hrow _ hs) (lt_irrefl _)
  have hlater : At i startedAt (w₁.now.db.sessions.length + 1) w₁.now.db.ledger xs w₂ := by
    refine ⟨hw₂.lock, hw₂.ledger, hw₂.posts, hw₂.clock, ?_⟩
    rw [hnow]
    simp
  have hcaught : (caught (evaluateSteps w₁.now.db.sessions.length account reason decide)).Wp
      (ledgerRules honest) i c (fun r _ w => match r with
        | .ok outcome => w.now.lock = some i ∧
            ∀ status, outcome = .ok status → Ended i w₁.now.db.sessions.length status w
        | .error _ => False) locals w₂ := by
    refine wp_tryCatch (wp_bind (Proc.wp_mono
      (wp_evaluateSteps hdecide (Nat.lt_succ_self _) hsession hxs hlegs hlater) ?_))
    rintro (e | status) locals w h
    · cases e with
      | portfolioUnavailable what =>
        refine wp_bind (wp_modifyLocals (wp_pure ⟨h.1, ?_⟩))
        intro status hstatus
        cases hstatus
        exact h.2 rfl
      | _ => exact ⟨h.1, nofun⟩
    · refine ⟨h.1, ?_⟩
      intro status' hstatus
      cases hstatus
      exact h
  refine wp_bind (Proc.wp_mono hcaught ?_)
  rintro (e | outcome) locals w h
  · exact h.elim
  obtain ⟨hl, hended⟩ := h
  -- Reading the clock changes nothing of this.
  refine wp_bind (wp_perform ?_)
  intro w₁' hk _
  refine ⟨permitted_idle rfl rfl rfl (by intro t ht; cases ht), ?_⟩
  rintro finishedAt w₂' ⟨⟨-, heq⟩, hpast⟩ _
  have hl' : w₂'.now.lock = some i := by
    rw [heq]
    exact (hk.held hl).1
  have hended' : ∀ status, outcome = .ok status → Ended i w₁.now.db.sessions.length status w₂' := by
    intro status hstatus
    obtain ⟨-, he, hiff⟩ := hended status hstatus
    refine ⟨hl', he, ?_⟩
    rw [heq, hpast, posts_cons_quiet _ rfl, hk.posts, (hk.held hl).2.1]
    exact hiff
  refine wp_bind (wp_getLocals ?_)
  refine wp_bind (wp_attempt ?_)
  intro w₃ hk₃ _
  refine ⟨permitted_tx (fun _ => (hk₃.held hl').1) ?_, ?_⟩
  · intro hstatus
    cases outcome with
    | error e => exact absurd rfl hstatus
    | ok status =>
      obtain ⟨-, -, hiff⟩ := hended' status rfl
      rw [hk₃.posts, (hk₃.held hl').2.1]
      exact hiff
  · rintro b w₄ ⟨-, hpast₄⟩ _
    cases b with
    | error e =>
      intro result hresult
      cases hresult
    | ok _ =>
      refine wp_bind (wp_fromExcept ?_)
      cases outcome with
      | error e =>
        intro result hresult
        cases hresult
      | ok status =>
        intro result hresult
        cases hresult
        exact ⟨(hended' status rfl).2.1, c, _, _, _, _, _, hpast₄ ▸ List.mem_cons_self⟩

/-! ## Outside the lock -/

/-- The operations that a call performs without the lock and that are no exchange. -/
def Op.outside : Op → Bool
  | .now => true
  | .newUuid => true
  | .unseal _ => true
  | .tx (.load _) => true
  | .tx .readSettings => true
  | .tx .liveProposal => true
  | .tx .setExecuted => true
  | .tx (.withdraw _) => true
  | .tx .hasUnresolved => true
  | .tryLock => true
  | .unlock => true
  | _ => false

theorem outside_step (honest : Prop) (i : Nat) (c : Request) {o : Op} (h : Op.outside o = true) (w : Rec) :
    Permitted honest i c o w ∧ ∀ b w', (system honest).recorded.step i c o w b w' →
      w.past <:+ w'.past ∧ posts i w'.past = posts i w.past := by
  have hquiet : (∀ b w', exchangeOf ⟨i, c, o, b, w.now, w'⟩ = none) → ∀ b w',
      (system honest).recorded.step i c o w b w' →
        w.past <:+ w'.past ∧ posts i w'.past = posts i w.past := by
    intro hnone b w' hs
    rw [hs.2]
    exact ⟨List.suffix_cons _ _, posts_cons_quiet _ (hnone b _)⟩
  cases o with
  | tx t =>
    cases t with
    | load s => exact ⟨permitted_tx nofun trivial, hquiet fun _ _ => rfl⟩
    | readSettings => exact ⟨permitted_tx nofun trivial, hquiet fun _ _ => rfl⟩
    | liveProposal => exact ⟨permitted_tx nofun trivial, hquiet fun _ _ => rfl⟩
    | setExecuted => exact ⟨permitted_tx nofun trivial, hquiet fun _ _ => rfl⟩
    | withdraw v => exact ⟨permitted_tx nofun trivial, hquiet fun _ _ => rfl⟩
    | hasUnresolved => exact ⟨permitted_tx nofun trivial, hquiet fun _ _ => rfl⟩
    | _ => cases h
  | _ =>
    first
    | exact ⟨permitted_idle rfl rfl rfl (by intro t ht; cases ht), hquiet fun _ _ => rfl⟩
    | cases h

/-- A part of a call outside the lock keeps what the history says, and that nothing was exchanged. -/
theorem wp_outside {α : Type} {m : Work α} {J : Locals → Prop} (hm : m.Calls (Op.outside · = true) J)
    (hl : J locals) {P : Rec → Prop} (hP : ∀ {w w' : Rec}, P w → w.past <:+ w'.past →
      posts i w'.past = posts i w.past → P w') (hw : P w) {Q : Except Exn α → Locals → Rec → Prop}
    (hQ : ∀ r l w', J l → P w' → Q r l w') : m.Wp (ledgerRules honest) i c Q locals w := by
  refine wp_of_calls ?_ ?_ hm hl hw hQ
  · intro w w' hw hk _
    exact hP hw hk.past hk.posts
  · intro o ho w₁ hw₁ _
    obtain ⟨hpermitted, hstep⟩ := outside_step honest i c ho w₁
    refine ⟨hpermitted, ?_⟩
    intro b w₂ hs _
    obtain ⟨hpast, hposts⟩ := hstep b w₂ hs
    exact hP hw₁ hpast hposts

/-- Nothing was exchanged yet, and there is no result. -/
def Untouched (i : Nat) (w : Rec) : Prop := posts i w.past = []

theorem Untouched.kept {w w' : Rec} (h : Untouched i w) (_ : w.past <:+ w'.past)
    (hp : posts i w'.past = posts i w.past) : Untouched i w' :=
  Eq.trans hp h

/-- An evaluation takes the lock, runs, and gives it back. -/
theorem wp_evaluate {allowSells : Bool} {reason : OrderReason} {decide : Decision}
    {operation : Operation} {trigger : Trigger} (hdecide : DecidesQuietly honest i c decide)
    (hlegs : locals.legs = []) (hw : Untouched i w) :
    (evaluate allowSells reason decide operation trigger).Wp (ledgerRules honest) i c
      (fun r _ w => ∀ result, r = .ok result → RecordedResult i result w) locals w := by
  have hload : (transact (.load allowSells)).Calls (Op.outside · = true) fun l => l.legs = [] :=
    transact_calls rfl
  refine wp_bind (wp_outside hload hlegs Untouched.kept hw ?_)
  rintro (e | account) locals w hlegs hw
  · intro result hresult
    cases hresult
  have hkey : (krakenFor account.sealed).Calls (Op.outside · = true) fun l => l.legs = [] :=
    calls_attempt (by rfl) _
  refine wp_bind (wp_outside hkey hlegs Untouched.kept hw ?_)
  rintro (e | _) locals w hlegs hw
  · intro result hresult
    cases hresult
  refine wp_bind (wp_attempt ?_)
  intro w₁ hk _
  have hw₁ : Untouched i w₁ := hw.kept hk.past hk.posts
  obtain ⟨hpermitted, hstep⟩ := outside_step honest i c (o := .tryLock) rfl w₁
  refine ⟨hpermitted, ?_⟩
  intro b w₂ hs _
  have hw₂ : Untouched i w₂ := hw₁.kept (hstep b w₂ hs).1 (hstep b w₂ hs).2
  have hbusy : ∀ r : Except Exn EvaluationResult, (∃ e, r = .error e) → ∀ result, r = .ok result →
      RecordedResult i result w₂ := by
    rintro r ⟨e, rfl⟩ result hresult
    cases hresult
  rcases hs.1 with ⟨rfl, -, heq⟩ | ⟨hno | ⟨e, rfl⟩, -⟩
  · -- The lock was taken.
    have hl : w₂.now.lock = some i := by rw [heq]
    have hat := at_of_lock hl
    rw [hw₂] at hat
    have hnone : ¬Places [] := by
      rintro ⟨x, hx, -⟩
      cases hx
    refine wp_tryFinally (Proc.wp_mono (wp_runEvaluation hdecide hlegs hnone hat) ?_)
    intro r locals w hr
    have hunlock : (attempt Op.unlock fun (b : Ans Op.unlock) => b : Work Unit).Calls
        (Op.outside · = true) fun _ => True := calls_attempt (by rfl) _
    refine wp_outside hunlock trivial (P := fun w => ∀ result, r = .ok result →
      RecordedResult i result w) (fun h hp _ result hresult => (h result hresult).later hp) hr ?_
    rintro (e | _) locals w - hw
    · intro result hresult
      cases hresult
    · exact hw
  · obtain ⟨rfl, -⟩ := hno
    exact hbusy _ ⟨_, rfl⟩
  · exact hbusy _ ⟨_, rfl⟩

/-! ## A preview -/

/-- What a preview calls: it validates and reads. -/
def Op.previews : Op → Bool
  | .post (.addOrder _ _ _ _ _ validate) => validate
  | .tx .hasUnresolved => true
  | .newUuid => true
  | o => o.plans

theorem previewInvestment_only {J : Locals → Prop} (account : Account) :
    (previewInvestment account).Calls (Op.previews · = true) J := by
  refine calls_bind (transact_calls rfl) ?_
  intro unresolved
  split
  · exact calls_pure _
  · have hplan : (caughtPlan account).Calls (Op.previews · = true) J := by
      refine calls_tryCatch ?_ ?_
      · refine calls_bind ((plan_only account).calls.mono ?_) ?_
        · intro o ho
          cases o with
          | post r =>
            cases r with
            | balance => rfl
            | _ => cases ho
          | tx t => cases ho
          | newUuid => rfl
          | _ => exact ho
        · intro planned
          exact calls_pure _
      · intro e
        cases e with
        | portfolioUnavailable what => exact calls_pure _
        | _ => exact calls_throw _
    refine calls_bind hplan ?_
    intro r
    cases r with
    | error what => exact calls_pure _
    | ok planned =>
      have hlegs : (previewLegs planned.legs).Calls (Op.previews · = true) J := by
        apply previewLegs_calls
        · rfl
        · intro pair side volume clOrdId inQuote
          rfl
      exact calls_bind hlegs fun _ => calls_pure _

/-- Every operation of a preview is permitted. -/
theorem previews_permitted {o : Op} (h : Op.previews o = true) {trigger : Trigger} (w : Rec) :
    Permitted honest i (.invest true trigger) o w := by
  have hp : o.plans = true → (∀ trigger', Request.invest true trigger ≠ .invest true trigger') →
      ∀ row ∈ w.now.db.ledger.rows, row.status ≠ .pending := by
    intro _ hne
    exact absurd rfl (hne trigger)
  cases o with
  | tx t =>
    cases t with
    | hasUnresolved => exact permitted_tx nofun trivial
    | _ => cases h
  | post r =>
    cases r with
    | balance => exact ⟨nofun, nofun, hp, by intro t ht; cases ht⟩
    | addOrder pair side volume clOrdId inQuote validate =>
      cases validate with
      | true => exact permitted_idle rfl rfl rfl (by intro t ht; cases ht)
      | false => cases h
    | _ => cases h
  | newUuid => exact permitted_idle rfl rfl rfl (by intro t ht; cases ht)
  | assetNames => exact ⟨nofun, nofun, hp, by intro t ht; cases ht⟩
  | assetPairs => exact ⟨nofun, nofun, hp, by intro t ht; cases ht⟩
  | ticker pairs => exact ⟨nofun, nofun, hp, by intro t ht; cases ht⟩
  | assetDecimals => exact ⟨nofun, nofun, hp, by intro t ht; cases ht⟩
  | _ => cases h

/-- A preview keeps the rules. -/
theorem wp_previewInvestment {account : Account} {trigger : Trigger} :
    (previewInvestment account).Wp (ledgerRules honest) i (.invest true trigger)
      (fun _ _ _ => True) locals w := by
  refine wp_of_calls (J := fun _ => True) (P := fun _ => True) (fun _ _ _ => trivial) ?_
    (previewInvestment_only account) trivial trivial fun _ _ _ _ _ => trivial
  intro o ho w₁ _ _
  exact ⟨previews_permitted ho w₁, fun _ _ _ _ => trivial⟩

/-! ## Each call -/

/-- The result that a call ends with. -/
def resultOf : Outcome → Option EvaluationResult
  | .evaluated result => some result
  | .rebalanced result _ => some result
  | .withdrawn _ => none

/-- What is known when a call ends: it recorded the status of its result, unless it was a preview. -/
def CallEnds (i : Nat) (c : Request) (r : Except Exn Outcome × Locals) (w : Rec) : Prop :=
  (∀ trigger, c ≠ .invest true trigger) → ∀ outcome result, r.1 = .ok outcome →
    resultOf outcome = some result → RecordedResult i result w

/-- What follows an evaluation outside the lock keeps what it recorded. -/
theorem wp_after {α : Type} {m : Work α} {result : EvaluationResult}
    (hm : m.Calls (Op.outside · = true) fun _ => True) (hw : RecordedResult i result w)
    {Q : Except Exn α → Locals → Rec → Prop}
    (hQ : ∀ r l w', RecordedResult i result w' → Q r l w') :
    m.Wp (ledgerRules honest) i c Q locals w :=
  wp_outside hm trivial (fun h hp _ => h.later hp) hw fun r l w' _ => hQ r l w'

theorem wp_propose {trigger : Trigger} (hw : Untouched i w) :
    (propose trigger).Wp (ledgerRules honest) i c (fun r locals w => CallEnds i c (r, locals) w) {} w := by
  refine wp_bind (Proc.wp_mono (wp_evaluate (deciding_propose_quiet _) rfl hw) ?_)
  rintro (e | result) locals w h
  · rintro - outcome result hr
    cases hr
  · refine wp_bind (wp_after (transact_calls rfl) (h result rfl) ?_)
    rintro (e | proposal) locals w h
    · rintro - outcome result hr
      cases hr
    · rintro - outcome result' hr hresult
      cases hr
      cases hresult
      exact h

theorem wp_approve {version : Int} (hw : Untouched i w) :
    (approve version).Wp (ledgerRules honest) i c (fun r locals w => CallEnds i c (r, locals) w) {} w := by
  have hslot : (transact .liveProposal).Calls (Op.outside · = true) fun l => l.legs = [] :=
    transact_calls rfl
  have hfail : ∀ (e : Exn) (locals : Locals) (w : Rec), CallEnds i c (.error e, locals) w := by
    rintro e locals w - outcome result hr
    cases hr
  refine wp_bind (wp_outside hslot rfl Untouched.kept hw ?_)
  rintro (e | slot) locals w hlegs hw
  · exact hfail e locals w
  · cases slot with
    | none => exact hfail _ locals w
    | some slot =>
      dsimp only
      split
      · exact hfail _ locals w
      · refine wp_bind (wp_tryFinally (Proc.wp_mono
          (wp_evaluate (approving_quiet version) hlegs hw) ?_))
        intro r locals w hr
        have hclose : closeApproval.Calls (Op.outside · = true) fun _ => True := by
          refine calls_bind calls_getLocals ?_
          intro l
          split
          · exact transact_calls rfl
          · exact calls_pure _
        refine wp_outside hclose trivial (P := fun w => ∀ result, r = .ok result →
          RecordedResult i result w) (fun h hp _ result hresult => (h result hresult).later hp) hr ?_
        rintro (e | _) locals w - hr
        · exact hfail e locals w
        · cases r with
          | error e => exact hfail e locals w
          | ok result =>
            refine wp_bind (wp_after (transact_calls rfl) (hr result rfl) ?_)
            rintro (e | proposal) locals w h
            · exact hfail e locals w
            · rintro - outcome result' hr hresult
              cases hr
              cases hresult
              exact h

theorem wp_invest {preview : Bool} {trigger : Trigger} (hw : Untouched i w) :
    (invest preview trigger).Wp (ledgerRules honest) i (.invest preview trigger)
      (fun r _ w => preview = false → ∀ result, r = .ok result → RecordedResult i result w) {} w := by
  unfold invest
  cases preview with
  | true =>
    have hload : (transact (.load false)).Calls (Op.outside · = true) fun _ => True := transact_calls rfl
    refine wp_bind (wp_outside hload trivial Untouched.kept hw ?_)
    rintro (e | account) locals w - hw
    · intro hp
      cases hp
    · have hkey : (krakenFor account.sealed).Calls (Op.outside · = true) fun _ => True :=
        calls_attempt (by rfl) _
      refine wp_bind (wp_outside hkey trivial Untouched.kept hw ?_)
      rintro (e | _) locals w - _
      · intro hp
        cases hp
      · refine Proc.wp_mono wp_previewInvestment ?_
        intro _ _ _ _ hp
        cases hp
  | false =>
    have hquiet : DecidesQuietly honest i (.invest false trigger)
        (if trigger = .scheduler then stillScheduled else sendIt) := by
      split
      · exact stillScheduled_quiet
      · exact sendIt_quiet
    refine Proc.wp_mono (wp_evaluate hquiet rfl hw) ?_
    intro r _ w h _
    exact h

end Rules

/-- The code of every call keeps the rules of the ledger, whatever the answers and the other
calls. -/
theorem ledger_covers (honest : Prop) :
    (ledgerRules honest).Covers program Untouched CallEnds where
  fresh_stable i := by
    intro w w' hw hk _
    exact hw.kept hk.past hk.posts
  post_stable i c r := by
    intro w w' h hk _ hc outcome result hr hresult
    exact (h hc outcome result hr hresult).later hk.past
  code_ok i c w _ hw := by
    have hevaluated : ∀ {m : Work EvaluationResult},
        m.Wp (ledgerRules honest) i c (fun r _ w => (∀ trigger, c ≠ .invest true trigger) →
          ∀ result, r = .ok result → RecordedResult i result w) {} w →
        Proc.Wp (ledgerRules honest) i c (do return Outcome.evaluated (← m))
          (fun r locals w => CallEnds i c (r, locals) w) {} w := by
      intro m h
      refine wp_bind (Proc.wp_mono h ?_)
      rintro (e | result) locals w h
      · rintro - outcome result hr
        cases hr
      · intro hc outcome result' hr hresult
        cases hr
        cases hresult
        exact h hc result rfl
    cases c with
    | invest preview trigger =>
      refine hevaluated (Proc.wp_mono (wp_invest hw) ?_)
      intro r _ w h hc
      cases preview with
      | true => exact absurd rfl (hc trigger)
      | false => exact h rfl
    | propose trigger => exact wp_propose hw
    | approve version => exact wp_approve hw
    | rebalanceNow =>
      refine hevaluated (Proc.wp_mono (wp_evaluate deciding_rebalance_quiet rfl hw) ?_)
      intro r _ w h _
      exact h
    | withdraw version =>
      have hwithdraw : (handle (.withdraw version)).Wp (ledgerRules honest) i (.withdraw version)
          (fun r locals w => CallEnds i (.withdraw version) (r, locals) w) {} w := by
        refine wp_bind (wp_outside (J := fun _ => True) (transact_calls (by rfl)) trivial Untouched.kept hw ?_)
        rintro (e | done) locals w - _
        · rintro - outcome result hr
          cases hr
        · rintro - outcome result hr hresult
          cases hr
          cases hresult
      exact hwithdraw

end Coinpilot.Safety
