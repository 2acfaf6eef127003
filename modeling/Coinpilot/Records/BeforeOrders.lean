import Coinpilot.Records.DailyPoints
import Coinpilot.Records.OnRecord
import Coinpilot.Safety.Replay

/-!
# Every order is on record

The code of each call meets `recordRules`. An evaluation pins the snapshot that it kept before its first
order, so each order has a pinned snapshot of a reading that was over, even where a refresh wrote over the
row between the two (`account_on_record`). A pinned snapshot stays as it is (`pinned_stays`).
-/

set_option autoImplicit false

namespace Coinpilot.Records

open Coinpilot.Lib Coinpilot.Lib.Program Coinpilot.Lib.ReadCommitted Coinpilot.Core
  Coinpilot.Core.Snapshots

/-! ## The calls -/

/-- The transaction that keeps a snapshot. -/
def keepsSnapshot : Op → Bool
  | .tx (.keepSnapshot ..) => true
  | _ => false

section Calls

variable {honest : Prop} {i : Nat} {c : AccountCall} {chosen : Chosen} {l : Locals} {r : AccountHistory}

/-- An operation as it is. -/
theorem leftward_wp {o : Op} (hquiet : Quiet i r)
    (horder : o.creates.isSome = true → ∃ id, HasPinned i id r) :
    (leftward Reply o : Prog AccountOp AccountAns (Ans o)).Wp (recordRules honest) i c
      (fun _ r' => Quiet i r' ∧ Onward r r') r := by
  intro r₁ hr hi
  refine ⟨fun hcreates => ?_, ?_⟩
  · obtain ⟨id, hpins⟩ := horder hcreates
    exact (hpins.onward hr.onward).onRecord hi
  · rintro b r₂ ⟨⟨-, hstore⟩, hpast⟩ _
    have hstore : r₂.now.2 = r₁.now.2 := hstore
    refine ⟨?_, hr.onward.trans ⟨?_, ?_⟩⟩
    · rw [Quiet, hstore]
      exact hquiet.undisturbed hr
    · rw [hpast]
      exact List.suffix_cons _ _
    · rw [hstore]
      exact Grows.refl _

/-- Whatever does not keep a snapshot leaves the snapshots that are kept and pinned. -/
theorem byStatements_wp {o : Op} (hkeep : keepsSnapshot o = false) (hquiet : Quiet i r)
    (horder : o.creates.isSome = true → ∃ id, HasPinned i id r) :
    (byStatements chosen o).Wp (recordRules honest) i c (fun _ r' => Quiet i r' ∧ Onward r r') r := by
  cases o with
  | tx t =>
    cases t with
    | keepSnapshot => cases hkeep
    | pinSnapshot id =>
      exact Program.wp_mono (pinSnapshot_unit hquiet) fun _ _ h => ⟨h.1, h.2.1⟩
    | _ => exact leftward_wp hquiet horder
  | _ => exact leftward_wp hquiet horder

/-- The same of a procedure, which sends orders only once the thread has pinned its snapshot. -/
theorem calls_wp {α : Type} {m : Work α} {ok : Op → Prop} {J : Locals → Prop} (hm : m.Calls ok J)
    (hkeep : ∀ o, ok o → keepsSnapshot o = false)
    (horder : ∀ o, ok o → o.creates.isSome = true → ∃ id, HasPinned i id r) (hl : J l) (hquiet : Quiet i r)
    {Q : Except Exn α → Locals → AccountHistory → Prop}
    (hQ : ∀ res l' r', J l' → Quiet i r' → Onward r r' → Q res l' r') :
    (m.through (byStatements chosen)).Wp (recordRules honest) i c Q l r := by
  refine wp_through_calls (P := fun r' => Quiet i r' ∧ Onward r r') ?_ hm hl ⟨hquiet, Onward.refl r⟩
    fun res l' r' hl' h => hQ res l' r' hl' h.1 h.2
  rintro o ho r₁ ⟨hquiet₁, honward⟩
  refine Program.wp_mono (byStatements_wp (hkeep o ho) hquiet₁ fun hcreates => ?_) ?_
  · obtain ⟨id, hpins⟩ := horder o ho hcreates
    exact ⟨id, hpins.onward honward⟩
  · rintro b r₂ ⟨hquiet₂, honward₂⟩
    exact ⟨hquiet₂, honward.trans honward₂⟩

/-- An operation that neither keeps a snapshot nor is an order. -/
def Plain (o : Op) : Prop := keepsSnapshot o = false ∧ o.creates = none

/-- A procedure of such operations. -/
theorem plain_wp {α : Type} {m : Work α} {J : Locals → Prop} (hm : m.Calls Plain J) (hl : J l)
    (hquiet : Quiet i r) {Q : Except Exn α → Locals → AccountHistory → Prop}
    (hQ : ∀ res l' r', J l' → Quiet i r' → Onward r r' → Q res l' r') :
    (m.through (byStatements chosen)).Wp (recordRules honest) i c Q l r := by
  refine calls_wp hm (fun _ ho => ho.1) (fun o ho hcreates => ?_) hl hquiet hQ
  rw [ho.2] at hcreates
  cases hcreates

end Calls

/-! ## Sending -/

/-- What a thread has while it sends: its snapshot is kept and, once the note says so, pinned. -/
structure Sends (i : Nat) (id : SnapshotId) (l : Locals) (r : AccountHistory) : Prop where
  quiet : Quiet i r
  keeps : HasKept i id r
  pins : l.pinned = true → HasPinned i id r

section Sending

variable {honest : Prop} {i id : Nat} {c : AccountCall} {chosen : Chosen} {l : Locals} {r : AccountHistory}

theorem Sends.onward {l' : Locals} {r' : AccountHistory} (h : Sends i id l r) (hl : l'.pinned = l.pinned)
    (hquiet : Quiet i r') (hr : Onward r r') : Sends i id l' r' := by
  refine ⟨hquiet, h.keeps.onward hr, fun hpinned => ?_⟩
  rw [hl] at hpinned
  exact (h.pins hpinned).onward hr

/-- The note of the pin stays as it is. -/
def PinnedAs (b : Bool) (l : Locals) : Prop := l.pinned = b

theorem SendsOnly.not_keeps {sells : Bool} {o : Op} (h : SendsOnly sells o) : keepsSnapshot o = false := by
  rcases h with h | ⟨h, -⟩
  · cases o with
    | tx t =>
      cases t with
      | keepSnapshot => cases h
      | _ => rfl
    | _ => rfl
  · cases o with
    | tx t => cases h
    | _ => rfl

theorem pin_calls (h : Sends i id l r) :
    ((pin id).through (byStatements chosen)).Wp (recordRules honest) i c
      (fun res l r => Sends i id l r ∧ (res = .ok () → HasPinned i id r)) l r := by
  refine wp_through_bind (wp_through_getLocals ?_)
  dsimp only
  split
  · rename_i hpinned
    exact ⟨h, fun _ => h.pins hpinned⟩
  · rename_i hpinned
    refine wp_through_bind (wp_through_attempt (Program.wp_mono (pinSnapshot_unit h.quiet) ?_))
    rintro (e | u) r' ⟨hquiet, honward, hpins⟩
    · exact ⟨h.onward rfl hquiet honward, fun hres => by cases hres⟩
    · have hpinned' := hpins rfl h.keeps
      exact ⟨⟨hquiet, hpinned'.keeps, fun _ => hpinned'⟩, fun _ => hpinned'⟩

theorem attemptLeg_wp {eval : Nat} {leg : PlannedLeg} {reason : OrderReason} {stopped : Bool}
    (h : Sends i id l r) :
    ((attemptLeg eval leg reason stopped id).through (byStatements chosen)).Wp (recordRules honest) i c
      (fun _ => Sends i id) l r := by
  rw [attemptLeg]
  split
  · exact h
  · split
    · exact h
    · refine wp_through_bind (Proc.wp_mono (pin_calls h) ?_)
      rintro (e | u) l r ⟨h, hpins⟩
      · exact h
      · have hsend : (do
            let result ← send eval leg reason
            return (result, result.status = LegStatus.pending && result.txid = none) : Work (LegResult × Bool)).Calls (SendsOnly true)
              (PinnedAs l.pinned) := calls_bind (send_calls (fun _ => rfl) eval reason) fun _ => calls_pure _
        exact calls_wp hsend (fun _ => SendsOnly.not_keeps) (fun _ _ _ => ⟨id, hpins rfl⟩) rfl h.quiet
          fun _ _ _ hl hquiet honward => h.onward hl hquiet honward

theorem sendLeg_wp {eval : Nat} {leg : PlannedLeg} {reason : OrderReason} {fiat : String} {stopped : Bool}
    (h : Sends i id l r) :
    ((sendLeg eval leg reason fiat stopped id).through (byStatements chosen)).Wp (recordRules honest) i c
      (fun _ => Sends i id) l r := by
  refine wp_through_bind (Proc.wp_mono (attemptLeg_wp h) ?_)
  rintro (e | ⟨result, stopped'⟩) l r h
  · exact h
  · exact ⟨h.quiet, h.keeps, h.pins⟩

theorem sendSells_wp {eval : Nat} {reason : OrderReason} {fiat : String} {places : Int}
    {legs : List PlannedLeg} {stopped : Bool} {budget : Option Rat} (h : Sends i id l r) :
    ((sendSells eval reason fiat id places legs stopped budget).through (byStatements chosen)).Wp
      (recordRules honest) i c (fun _ => Sends i id) l r := by
  induction legs generalizing stopped budget l r with
  | nil => exact h
  | cons leg rest ih =>
    refine wp_through_bind (Proc.wp_mono (sendLeg_wp h) ?_)
    rintro (e | ⟨result, stopped'⟩) l r h
    · exact h
    · dsimp only
      split
      · exact h
      · exact ih h

theorem sendBuys_wp {eval : Nat} {reason : OrderReason} {fiat : String} {legs : List PlannedLeg}
    {stopped : Bool} (h : Sends i id l r) :
    ((sendBuys eval reason fiat id legs stopped).through (byStatements chosen)).Wp (recordRules honest) i c
      (fun _ => Sends i id) l r := by
  induction legs generalizing stopped l r with
  | nil => exact h
  | cons leg rest ih =>
    refine wp_through_bind (Proc.wp_mono (sendLeg_wp h) ?_)
    rintro (e | ⟨result, stopped'⟩) l r h
    · exact h
    · exact ih h

theorem sendAll_wp {eval : Nat} {planned : Planned} {reason : OrderReason} {fiat : String}
    (h : Sends i id l r) :
    ((sendAll eval planned reason fiat id).through (byStatements chosen)).Wp (recordRules honest) i c
      (fun _ => Sends i id) l r := by
  refine wp_through_bind (Proc.wp_mono (sendSells_wp h) ?_)
  rintro (e | ⟨stopped, budget⟩) l r h
  · exact h
  · dsimp only
    split
    · exact h
    · exact sendBuys_wp h

end Sending

/-! ## An evaluation -/

section Evaluating

variable {honest : Prop} {i : Nat} {c : AccountCall} {chosen : Chosen} {l : Locals} {r : AccountHistory}

theorem plain_of_plans {o : Op} (h : o.plans = true) : Plain o := by
  cases o with
  | post q =>
    cases q with
    | balance => exact ⟨rfl, rfl⟩
    | _ => cases h
  | tx t => cases h
  | _ => exact ⟨rfl, rfl⟩

theorem plain_of_resolves {o : Op} (h : o.resolves = true) : Plain o := by
  cases o with
  | post q =>
    cases q with
    | addOrder => cases h
    | _ => exact ⟨rfl, rfl⟩
  | tx t =>
    cases t with
    | keepSnapshot => cases h
    | _ => exact ⟨rfl, rfl⟩
  | _ => exact ⟨rfl, rfl⟩

/-- What a plan calls is left to the account. -/
theorem byStatements_plans {o : Op} (h : o.plans = true) : byStatements chosen o = leftward Reply o := by
  cases o with
  | tx t => cases h
  | _ => rfl

/-- A plan has the view that it read. -/
theorem plan_path {account : Account} {planned : Planned} {l' : Locals} {t : List (Answer Op Ans)}
    (h : (plan account).Path l t (.ok planned) l') :
    ∃ t₁ t₂ l₁, t = t₁ ++ t₂ ∧
      (readPortfolio account.fiat account.targets).Path l t₁ (.ok planned.view) l₁ := by
  obtain ⟨view, l₁, t₁, t₂, hread, h₂, rfl⟩ := path_bind_ok h
  have hview : planned.view = view := by
    split at h₂
    · obtain ⟨-, he, -⟩ := path_throw h₂
      cases he
    · obtain ⟨_, _, _, _, -, h₃, -⟩ := path_bind_ok h₂
      obtain ⟨metas, _, _, _, -, h₄, -⟩ := path_bind_ok h₃
      obtain ⟨_, _, _, _, -, h₅, -⟩ := path_bind_ok h₄
      obtain ⟨places, _, _, _, -, h₆, -⟩ := path_bind_ok h₅
      obtain ⟨-, hplan, -⟩ := path_fromExcept h₆
      exact planLegs_view hplan.symm
  exact ⟨t₁, t₂, l₁, rfl, hview ▸ hread⟩

/-- A reading of the account that the thread has made, and what it gave. -/
def HasRead (fiat : String) (view : PortfolioView) (r : AccountHistory) : Prop :=
  ∀ asOf point, Point.row ⟨asOf, fiat, view.managedValue, view.cash.value, view.snapshotJson⟩ = .ok point →
    ReadIn r.past point

theorem hasRead_of_trace {fiat : String} {targets : List Target} {view : PortfolioView} {l l' : Locals}
    {t : List (Answer Op Ans)} (hpath : (readPortfolio fiat targets).Path l t (.ok view) l')
    (htrace : t.map leftAnswer <:+: traceOf i r.past) : HasRead fiat view r :=
  fun asOf point hpoint => ⟨i, fiat, targets, view, l, l', t, asOf, point, hpath, htrace, hpoint, .inl rfl⟩

theorem HasRead.onward {fiat : String} {view : PortfolioView} {r' : AccountHistory}
    (h : HasRead fiat view r) (hr : Onward r r') : HasRead fiat view r' :=
  fun asOf point hpoint => (h asOf point hpoint).mono hr.past

/-- A procedure that only plans, with the path that it took. -/
theorem plans_wp {α : Type} {m : Work α} (hm : m.Calls (fun o => o.plans = true) (· = l)) (hquiet : Quiet i r)
    {Q : Except Exn α → Locals → AccountHistory → Prop}
    (hQ : ∀ res r' t, m.Path l t res l → traceOf i r'.past = traceOf i r.past ++ t.map leftAnswer →
      Quiet i r' → Onward r r' → Q res l r') :
    (m.through (byStatements chosen)).Wp (recordRules honest) i c Q l r := by
  have hplain : (m.through (byStatements chosen)).Wp (recordRules honest) i c
      (fun _ l' r' => l' = l ∧ Quiet i r' ∧ Onward r r') l r :=
    plain_wp (J := fun l' => l' = l) (hm.mono fun _ => plain_of_plans) rfl hquiet
      fun _ _ _ hl hquiet' honward => ⟨hl, hquiet', honward⟩
  refine Program.wp_mono (wp_traced (fun {r₁ r₂} (hr : Undisturbed i r₁ r₂) => hr.trace) hplain) ?_
  rintro ⟨res, l'⟩ r' ⟨⟨hl, hquiet', honward⟩, t, hpath, htrace⟩
  obtain rfl : l' = l := hl
  obtain ⟨t₀, rfl, hpath₀⟩ := path_through_left (fun _ => byStatements_plans) (hm l' rfl) hpath
  exact hQ res r' t₀ hpath₀ htrace hquiet' honward

/-- What a decision calls: neither a snapshot nor an order. -/
def DecidesPlainly (decide : Decision) : Prop := ∀ planned, (decide planned).Calls Plain (PinnedAs false)

theorem evaluateSteps_wp {eval : Nat} {account : Account} {reason : OrderReason} {decide : Decision}
    (hdecide : DecidesPlainly decide) (hl : l.pinned = false) (hquiet : Quiet i r) :
    ((evaluateSteps eval account reason decide).through (byStatements chosen)).Wp (recordRules honest) i c
      (fun _ _ r => Quiet i r) l r := by
  have hnow : Plain .now := ⟨rfl, rfl⟩
  refine wp_through_bind (plain_wp (J := PinnedAs false) (currentTime_calls hnow) hl hquiet ?_)
  rintro (e | now) l r hl hquiet -
  · exact hquiet
  have hresolve : (resolvePending now).Calls Plain (PinnedAs false) :=
    (resolvePending_calls now).mono fun _ => plain_of_resolves
  refine wp_through_bind (plain_wp hresolve hl hquiet ?_)
  rintro (e | resolution) l r hl hquiet -
  · exact hquiet
  have hlog : (logLines resolution.messages).Calls Plain (PinnedAs false) := calls_modifyLocals fun _ h => h
  refine wp_through_bind (plain_wp hlog hl hquiet ?_)
  rintro (e | u) l r hl hquiet -
  · exact hquiet
  dsimp only
  split
  · refine wp_through_bind (plans_wp (plan_only account).calls hquiet ?_)
    rintro (e | planned) r t hpath htrace hquiet -
    · exact hquiet
    have hread : HasRead account.fiat planned.view r := by
      obtain ⟨t₁, t₂, l₁, rfl, hpath₁⟩ := plan_path hpath
      refine hasRead_of_trace (i := i) hpath₁ ?_
      rw [htrace, List.map_append]
      exact ⟨_, _, (List.append_assoc _ _ _).trans rfl⟩
    refine wp_through_bind (plain_wp (J := PinnedAs false) (currentTime_calls hnow) hl hquiet ?_)
    rintro (e | asOf) l r hl hquiet honward
    · exact hquiet
    refine wp_through_bind (wp_through_attempt (Program.wp_mono
      (keepSnapshot_unit hquiet ((hread.onward honward) asOf)) ?_))
    rintro (e | id) r ⟨hquiet, hkeeps⟩
    · exact hquiet
    refine wp_through_bind (plain_wp (hdecide planned) hl hquiet ?_)
    rintro (e | verdict) l r hl hquiet honward
    · exact hquiet
    cases verdict with
    | some status => exact hquiet
    | none =>
      have hsends : Sends i id l r := by
        refine ⟨hquiet, (hkeeps id rfl).onward honward, fun hpinned => ?_⟩
        rw [show l.pinned = false from hl] at hpinned
        cases hpinned
      refine wp_through_bind (Proc.wp_mono (sendAll_wp hsends) ?_)
      rintro (e | stopped) l r h
      · exact h.quiet
      refine wp_through_bind (wp_through_getLocals ?_)
      dsimp only
      split
      · exact h.quiet
      · exact h.quiet
  · exact hquiet

theorem caught_wp {m : Work EvaluationStatus}
    (hm : (m.through (byStatements chosen)).Wp (recordRules honest) i c (fun _ _ r => Quiet i r) l r) :
    ((caught m).through (byStatements chosen)).Wp (recordRules honest) i c (fun _ _ r => Quiet i r) l r := by
  refine wp_through_tryCatch (wp_through_bind (Proc.wp_mono hm ?_))
  rintro (e | status) l r hquiet
  · cases e with
    | _ => exact hquiet
  · exact hquiet

theorem runEvaluation_wp {account : Account} {reason : OrderReason} {decide : Decision} {operation : Operation}
    {trigger : Trigger} (hdecide : DecidesPlainly decide) (hl : l.pinned = false) (hquiet : Quiet i r) :
    ((runEvaluation account reason decide operation trigger).through (byStatements chosen)).Wp
      (recordRules honest) i c (fun _ _ r => Quiet i r) l r := by
  have hnow : Plain .now := ⟨rfl, rfl⟩
  refine wp_through_bind (plain_wp (J := PinnedAs false) (currentTime_calls hnow) hl hquiet ?_)
  rintro (e | startedAt) l r hl hquiet -
  · exact hquiet
  refine wp_through_bind (plain_wp (J := PinnedAs false) (transact_calls ⟨rfl, rfl⟩) hl hquiet ?_)
  rintro (e | eval) l r hl hquiet -
  · exact hquiet
  refine wp_through_bind (Proc.wp_mono (caught_wp (evaluateSteps_wp hdecide hl hquiet)) ?_)
  rintro (e | outcome) l r hquiet
  · exact hquiet
  have hrest : (do
      let finishedAt ← currentTime
      let l ← getLocals
      transact (.finishEvaluation eval (recordedStatus outcome) finishedAt (logText l.log))
      let status ← fromExcept outcome
      return ({ status, preview := false, legs := l.legs, messages := l.log
                lookupFailed := l.blocked.any fun b => b } : EvaluationResult) : Work EvaluationResult).Calls
        Plain (fun _ => True) := by
    refine calls_bind (currentTime_calls hnow) fun _ => ?_
    refine calls_bind calls_getLocals fun _ => ?_
    refine calls_bind (transact_calls ⟨rfl, rfl⟩) fun _ => ?_
    exact calls_bind (calls_fromExcept _) fun _ => calls_pure _
  exact plain_wp hrest trivial hquiet fun _ _ _ _ hquiet _ => hquiet

theorem evaluate_wp {allowSells : Bool} {reason : OrderReason} {decide : Decision} {operation : Operation}
    {trigger : Trigger} (hdecide : DecidesPlainly decide) (hl : l.pinned = false) (hquiet : Quiet i r) :
    ((evaluate allowSells reason decide operation trigger).through (byStatements chosen)).Wp
      (recordRules honest) i c (fun _ _ r => Quiet i r) l r := by
  refine wp_through_bind (plain_wp (J := PinnedAs false) (transact_calls ⟨rfl, rfl⟩) hl hquiet ?_)
  rintro (e | account) l r hl hquiet -
  · exact hquiet
  refine wp_through_bind (plain_wp (J := PinnedAs false) (calls_attempt ⟨rfl, rfl⟩ _) hl hquiet ?_)
  rintro (e | u) l r hl hquiet -
  · exact hquiet
  refine wp_through_bind (plain_wp (J := PinnedAs false) (calls_attempt ⟨rfl, rfl⟩ _) hl hquiet ?_)
  rintro (e | taken) l r hl hquiet -
  · exact hquiet
  dsimp only
  split
  · refine wp_through_tryFinally (Proc.wp_mono (runEvaluation_wp hdecide hl hquiet) ?_)
    intro res l r hquiet
    refine plain_wp (J := fun _ => True) (calls_attempt ⟨rfl, rfl⟩ _) trivial hquiet ?_
    rintro (e | u) l r - hquiet -
    · exact hquiet
    · exact hquiet
  · exact hquiet

end Evaluating

/-! ## The code of every call -/

section Code

variable {honest : Prop} {i : Nat} {c : AccountCall} {chosen : Chosen} {l : Locals} {r : AccountHistory}

theorem decideIn_plain {t : Txn} (ht : Plain (.tx t)) (read : t.Ans → Option EvaluationStatus × List String) :
    (decideIn t read).Calls Plain (PinnedAs false) := by
  refine calls_bind (transact_calls ht) fun _ => ?_
  exact calls_bind (calls_modifyLocals fun _ h => h) fun _ => calls_pure _

theorem approving_plain (version : Int) : DecidesPlainly (approving version) := by
  intro planned
  refine calls_bind (transact_calls ⟨rfl, rfl⟩) fun answer => ?_
  have hnote : (logLines answer.2 >>= fun _ => (pure answer.1 : Work (Option EvaluationStatus))).Calls Plain
      (PinnedAs false) := calls_bind (calls_modifyLocals fun _ h => h) fun _ => calls_pure _
  dsimp only
  split
  · exact calls_bind (calls_modifyLocals fun _ h => h) fun _ => hnote
  · exact hnote

theorem stillScheduled_plain : DecidesPlainly stillScheduled := by
  intro planned
  refine calls_bind (transact_calls ⟨rfl, rfl⟩) fun settings => ?_
  have hlog : ∀ lines status, (logLines lines >>= fun _ => (pure status : Work (Option EvaluationStatus))).Calls
      Plain (PinnedAs false) := fun _ _ => calls_bind (calls_modifyLocals fun _ h => h) fun _ => calls_pure _
  split
  · exact hlog _ _
  · split
    · exact hlog _ _
    · exact calls_pure _

/-- A placement that is only validated is no order. -/
theorem place_plain {J : Locals → Prop} (leg : PlannedLeg) (clOrdId : String) :
    (place leg clOrdId true).Calls Plain J := by
  rw [place]
  cases leg.side with
  | buy => exact calls_bind (calls_perform ⟨rfl, rfl⟩) fun _ => calls_pure _
  | sell =>
    cases leg.volume with
    | none => exact calls_throw _
    | some v => exact calls_bind (calls_perform ⟨rfl, rfl⟩) fun _ => calls_pure _

theorem previewLegs_plain {J : Locals → Prop} (legs : List PlannedLeg) : (previewLegs legs).Calls Plain J := by
  induction legs with
  | nil => exact calls_pure _
  | cons leg rest ih =>
    have hleg : (previewLeg leg).Calls Plain J := by
      rw [previewLeg]
      cases leg.note with
      | some note => exact calls_pure _
      | none =>
        refine calls_bind (newClOrdId_calls ⟨rfl, rfl⟩) fun c => ?_
        exact calls_bind (place_plain leg c) fun _ => calls_pure _
    exact calls_bind hleg fun _ => calls_bind ih fun _ => calls_pure _

theorem previewInvestment_plain {J : Locals → Prop} (account : Account) :
    (previewInvestment account).Calls Plain J := by
  refine calls_bind (transact_calls ⟨rfl, rfl⟩) fun unresolved => ?_
  split
  · exact calls_pure _
  · have hplan : (caughtPlan account).Calls Plain J := by
      refine calls_tryCatch ?_ fun e => ?_
      · exact calls_bind ((plan_only account).calls.mono fun _ => plain_of_plans) fun _ => calls_pure _
      · cases e with
        | portfolioUnavailable what => exact calls_pure _
        | _ => exact calls_throw _
    refine calls_bind hplan fun res => ?_
    cases res with
    | error what => exact calls_pure _
    | ok planned => exact calls_bind (previewLegs_plain _) fun _ => calls_pure _

theorem closeApproval_plain {J : Locals → Prop} : closeApproval.Calls Plain J := by
  refine calls_bind calls_getLocals fun l => ?_
  split
  · exact transact_calls ⟨rfl, rfl⟩
  · exact calls_pure _

/-- A transaction of the user's, after an evaluation or on its own. -/
theorem plainly {α : Type} {m : Work α} (hm : m.Calls Plain fun _ => True) (hquiet : Quiet i r) :
    (m.through (byStatements chosen)).Wp (recordRules honest) i c (fun _ _ r => Quiet i r) l r :=
  plain_wp hm trivial hquiet fun _ _ _ _ hquiet _ => hquiet

theorem then_plainly {α β : Type} {m : Work α} {f : α → Work β}
    (hm : (m.through (byStatements chosen)).Wp (recordRules honest) i c (fun _ _ r => Quiet i r) l r)
    (hf : ∀ a, (f a).Calls Plain fun _ => True) :
    ((m >>= f).through (byStatements chosen)).Wp (recordRules honest) i c (fun _ _ r => Quiet i r) l r := by
  refine wp_through_bind (Proc.wp_mono hm ?_)
  rintro (e | a) l r hquiet
  · exact hquiet
  · exact plainly (hf a) hquiet

theorem handle_wp (request : Request) (hl : l.pinned = false) (hquiet : Quiet i r) :
    ((handle request).through (byStatements chosen)).Wp (recordRules honest) i c (fun _ _ r => Quiet i r) l r := by
  cases request with
  | invest preview trigger =>
    refine then_plainly ?_ fun _ => calls_pure _
    rw [invest]
    split
    · refine plainly (calls_bind (transact_calls ⟨rfl, rfl⟩) fun account => ?_) hquiet
      exact calls_bind (calls_attempt ⟨rfl, rfl⟩ _) fun _ => previewInvestment_plain account
    · split
      · exact evaluate_wp stillScheduled_plain hl hquiet
      · exact evaluate_wp (fun _ => calls_pure _) hl hquiet
  | propose trigger =>
    refine then_plainly (evaluate_wp (fun planned => decideIn_plain ⟨rfl, rfl⟩ _) hl hquiet) fun _ => ?_
    exact calls_bind (transact_calls ⟨rfl, rfl⟩) fun _ => calls_pure _
  | approve version =>
    refine wp_through_bind (plain_wp (J := PinnedAs false) (transact_calls ⟨rfl, rfl⟩) hl hquiet ?_)
    rintro (e | slot) l r hl hquiet -
    · exact hquiet
    cases slot with
    | none => exact hquiet
    | some slot =>
      dsimp only
      split
      · exact hquiet
      · refine then_plainly ?_ fun _ => calls_bind (transact_calls ⟨rfl, rfl⟩) fun _ => calls_pure _
        refine wp_through_tryFinally (Proc.wp_mono (evaluate_wp (approving_plain version) hl hquiet) ?_)
        intro res l r hquiet
        refine Proc.wp_mono (plainly closeApproval_plain hquiet) ?_
        rintro (e | u) l r hquiet
        · exact hquiet
        · exact hquiet
  | rebalanceNow =>
    exact then_plainly (evaluate_wp (fun planned => decideIn_plain ⟨rfl, rfl⟩ _) hl hquiet) fun _ => calls_pure _
  | withdraw version =>
    exact plainly (calls_bind (transact_calls ⟨rfl, rfl⟩) fun _ => calls_pure _) hquiet

theorem refreshView_calls {J : Locals → Prop} (fiat : String) (targets : List Target) :
    (Api.refreshView fiat targets).Calls (fun o => o.plans = true) J := by
  refine calls_tryCatch (readPortfolio_only fiat targets).calls fun e => ?_
  cases e with
  | _ => exact calls_throw _

theorem refresh_wp (hquiet : Quiet i r) :
    (Api.refresh.through (byStatements chosen)).Wp (recordRules honest) i c (fun _ _ r => Quiet i r) l r := by
  have hplain : ∀ {α : Type} {m : Work α} {f : α → Work Nat} {l : Locals} {r : AccountHistory},
      m.Calls Plain (fun _ => True) → Quiet i r → (∀ a l r, Quiet i r →
        ((f a).through (byStatements chosen)).Wp (recordRules honest) i c (fun _ _ r => Quiet i r) l r) →
      ((m >>= f).through (byStatements chosen)).Wp (recordRules honest) i c (fun _ _ r => Quiet i r) l r := by
    intro α m f l r hm hquiet hf
    refine wp_through_bind (plain_wp hm trivial hquiet ?_)
    rintro (e | a) l r - hquiet -
    · exact hquiet
    · exact hf a l r hquiet
  refine hplain (transact_calls ⟨rfl, rfl⟩) hquiet fun settings l r hquiet => ?_
  cases settings with
  | none => exact hquiet
  | some settings =>
    refine hplain (transact_calls ⟨rfl, rfl⟩) hquiet fun record l r hquiet => ?_
    cases record with
    | none => exact hquiet
    | some sealed =>
      have hkey : (Api.refreshKey sealed).Calls Plain fun _ => True := by
        refine calls_tryCatch (calls_attempt ⟨rfl, rfl⟩ _) fun e => ?_
        cases e with
        | _ => exact calls_throw _
      refine hplain hkey hquiet fun _ l r hquiet => ?_
      refine hplain (transact_calls ⟨rfl, rfl⟩) hquiet fun targets l r hquiet => ?_
      refine wp_through_bind (plans_wp (refreshView_calls _ _) hquiet ?_)
      rintro (e | view) r t hpath htrace hquiet -
      · exact hquiet
      have hread : HasRead settings.fiat view r := by
        rcases path_tryCatch hpath with ⟨a, hpath, hok⟩ | ⟨e, l₁, t₁, t₂, -, hthrow, -⟩
        · obtain rfl := Except.ok.inj hok
          refine hasRead_of_trace (i := i) hpath ?_
          rw [htrace]
          exact (List.suffix_append _ _).isInfix
        · exfalso
          cases e with
          | _ =>
            obtain ⟨-, he, -⟩ := path_throw hthrow
            cases he
      refine wp_through_bind (plain_wp (J := fun _ => True) (currentTime_calls ⟨rfl, rfl⟩) trivial hquiet ?_)
      rintro (e | asOf) l r - hquiet honward
      · exact hquiet
      refine wp_through_attempt (Program.wp_mono (keepSnapshot_unit hquiet ((hread.onward honward) asOf)) ?_)
      rintro res r ⟨hquiet, -⟩
      exact hquiet

theorem recordRules_covers (honest : Prop) :
    (recordRules honest).Covers accountCode Quiet fun i _ _ r => Quiet i r where
  fresh_stable _ _ _ h hr _ := h.undisturbed hr
  post_stable _ _ _ _ _ h hr _ := h.undisturbed hr
  code_ok i c r _ hquiet := by
    cases c with
    | request request chosen =>
      have hdone : (do let _ ← handle request; pure () : Work Unit).through (byStatements chosen) |>.Wp
          (recordRules honest) i (.request request chosen) (fun _ _ r => Quiet i r) {} r :=
        then_plainly (handle_wp request rfl hquiet) fun _ => calls_pure _
      exact hdone
    | refresh chosen =>
      have hdone : (do let _ ← Api.refresh; pure () : Work Unit).through (byStatements chosen) |>.Wp
          (recordRules honest) i (.refresh chosen) (fun _ _ r => Quiet i r) {} r :=
        then_plainly (refresh_wp hquiet) fun _ => calls_pure _
      exact hdone

end Code

/-! ## Every run -/

/-- A user without a snapshot, and no call yet. -/
def noSnapshots (w₀ : World) : AccountHistory := ⟨(w₀, Store.idle (fun _ => none) []), []⟩

section Runs

variable {honest : Prop} {w₀ : World}
  {σ τ : Config AccountOp AccountAns AccountCall AccountHistory (Except Exn Unit × Locals)}

theorem noSnapshots_filed : Filed (noSnapshots w₀) := by
  refine ⟨Store.idle_sound List.nodup_nil fun _ h => absurd rfl h, fun i id v h => ?_,
    ⟨fun id row h => ?_, fun i id row h => ?_⟩, fun e older hsuffix => ?_⟩
  · cases h
  · cases h
  · cases h
  · cases List.suffix_nil.mp hsuffix

theorem noSnapshots_quiet (i : Nat) : Quiet i (noSnapshots w₀) :=
  ⟨fun _ => rfl, fun _ => by simp [noSnapshots, Store.idle], fun _ _ h => by cases h⟩

/-- Every order has a pinned snapshot that its evaluation kept, of a reading of the account that was over
before the order, and the snapshot stays as it is. -/
theorem account_on_record
    (h : Reaches (accounts honest).recorded accountCode (.start (noSnapshots w₀)) σ) {e : AccountEvent}
    {older : List AccountEvent} (hpast : e :: older <:+ σ.world.past) (ho : Orders e) :
    ∃ id row, OnRecord e.who older e.before.2.rows id row ∧ σ.world.now.2.rows id = some row :=
  (Contract.sound (recordRules_covers honest) noSnapshots_filed noSnapshots_quiet h).1.orders e older
    hpast ho

/-- A pinned snapshot never changes again. -/
theorem pinned_stays (hσ : Reaches (accounts honest).recorded accountCode (.start (noSnapshots w₀)) σ)
    (hτ : Reaches (accounts honest).recorded accountCode σ τ) {id : SnapshotId} {row : PortfolioSnapshot}
    (hrow : σ.world.now.2.rows id = some row) (hpinned : row.pinned = true) :
    τ.world.now.2.rows id = some row := by
  refine Contract.keeps (recordRules_covers honest) noSnapshots_filed noSnapshots_quiet
    (P := fun r => r.now.2.rows id = some row) ?_ ?_ ?_ hσ hτ hrow
  · intro r r' hr hrow he
    exact (((recordRules honest).env_ok hr he).2 0).grows.pinned hrow hpinned
  · exact fun hrow => hrow
  · intro i c o r b r' hr hg hrow hs
    exact (((recordRules honest).step_ok hr hg hs).2 (i + 1) (Nat.succ_ne_self i)).grows.pinned hrow hpinned

end Runs

/-! ## A refresh between the two -/

/-- The world of one market. -/
def marketResponder (honest : Prop) (market : Safety.Market) :
    Responder (besidesSnapshots honest) Safety.Reply where
  respond m i _ o w := Safety.reply market m i o w
  responds h := Safety.reply_answered h

def chosenAs (newId : SnapshotId) : Chosen := ⟨oldestOfInstantFirst, newId⟩

def operations (i n : Nat) : List (Turn AccountCall Safety.Reply) := List.replicate n (.act i .accept)

/-- An investment keeps its snapshot, a refresh writes over the row, and then the investment pins the row and
sends its order. -/
def refreshedBetween : List (Turn AccountCall Safety.Reply) :=
  [.spawn 0 (.request (.invest false .api) (chosenAs 1))] ++ operations 0 16 ++
    [.spawn 1 (.refresh (chosenAs 2))] ++ operations 1 12 ++ operations 0 8

/-- An order that may be traded. -/
def isOrder (e : AccountEvent) : Bool :=
  match e.op with
  | .inl o => o.creates.isSome
  | .inr _ => false

theorem orders_of_isOrder {e : AccountEvent} (h : isOrder e = true) : Orders e := by
  rw [isOrder] at h
  split at h
  · exact ⟨_, ‹_›, h⟩
  · cases h

theorem account_on_record_refreshedBetween :
    ∃ σ, Reaches (accounts True).recorded accountCode (.start (noSnapshots (Safety.newUser false))) σ ∧
      ∃ e older, e :: older <:+ σ.world.past ∧ Orders e ∧
        ∃ id row, OnRecord e.who older e.before.2.rows id row ∧ σ.world.now.2.rows id = some row := by
  obtain ⟨σ, hσ, hc⟩ := reaches_of_replay accountCode
    ((marketResponder True (Safety.marketOf "1000" "0")).beside responder).recorded
    (.start (noSnapshots (Safety.newUser false))) refreshedBetween
    (fun σ => σ.world.past.any isOrder) (by decide +kernel)
  obtain ⟨e, he, horder⟩ := List.any_eq_true.mp hc
  obtain ⟨newer, older, hpast⟩ := List.append_of_mem he
  have hsuffix : e :: older <:+ σ.world.past := ⟨newer, hpast.symm⟩
  exact ⟨σ, hσ, e, older, hsuffix, orders_of_isOrder horder,
    account_on_record hσ hsuffix (orders_of_isOrder horder)⟩

theorem pinned_stays_refreshedBetween :
    ∃ σ row, Reaches (accounts True).recorded accountCode (.start (noSnapshots (Safety.newUser false))) σ ∧
      σ.world.now.2.rows 1 = some row ∧ row.pinned = true ∧
        ∀ τ, Reaches (accounts True).recorded accountCode σ τ → τ.world.now.2.rows 1 = some row := by
  obtain ⟨σ, hσ, hc⟩ := reaches_of_replay accountCode
    ((marketResponder True (Safety.marketOf "1000" "0")).beside responder).recorded
    (.start (noSnapshots (Safety.newUser false))) refreshedBetween
    (fun σ => (σ.world.now.2.rows 1).any PortfolioSnapshot.pinned) (by decide +kernel)
  obtain ⟨row, hrow, hpinned⟩ := (Option.any_eq_true _ _).mp hc
  exact ⟨σ, row, hσ, hrow, hpinned, fun τ hτ => pinned_stays hσ hτ hrow hpinned⟩

end Coinpilot.Records
