import Coinpilot.Safety.Told
import Coinpilot.Safety.Calls
import Coinpilot.Safety.Replay
import Coinpilot.Api.Evaluation

/-!
# What an answer shows is what was sent

The result of a call tells of exactly the orders that Kraken was asked for (`result_tells_orders`), and so
does the body of a request's answer (`answer_shows_orders`): leg by leg, with the pair, the side and the
amount. An answer that refuses a request is given before anything is placed: what is raised after an order is
never one of the exceptions that a route makes a refusal of.
-/

set_option autoImplicit false

namespace Coinpilot.Safety

open Coinpilot.Lib Coinpilot.Lib.Program Coinpilot.Exchange Coinpilot.Engine Coinpilot.Core

/-! ## A call -/

/-- The orders that Kraken was asked to place, not only to validate. -/
def placed (t : Trace) : List Ordered := (orders t).filter fun o => !o.validate

theorem placed_of_quiet {t : Trace} (h : orders t = []) : placed t = [] := by
  rw [placed, h]
  rfl

/-- Giving the lock back raises only what the database does. -/
def UnlocksPlainly (t : Trace) : Prop :=
  ∀ e, (⟨.unlock, (.error e : Except Exn Unit)⟩ : Answer Op Ans) ∈ t → e.isPlain = true

/-- A result tells of the orders of its call: its legs are those orders, and its status says whether there
were any. A preview has them validated. -/
structure TellsOf (preview : Bool) (t : Trace) (result : EvaluationResult) : Prop where
  flag : result.preview = preview
  legs : Tells preview result.legs t
  status : preview = false → Says result.status result.legs

theorem TellsOf.after {preview : Bool} {t₁ t₂ : Trace} {result : EvaluationResult}
    (h : TellsOf preview t₁ result) (hquiet : orders t₂ = []) : TellsOf preview (t₁ ++ t₂) result :=
  ⟨h.flag, by simpa using h.legs.append (tells_of_quiet hquiet), h.status⟩

/-- How a call ends: with a result that tells of its orders, or with an exception, which after an order is
the database's or the language's. -/
def EndsTold {α : Type} (preview : Bool) (read : α → Option EvaluationResult) (t : Trace) : Except Exn α → Prop
  | .ok a => ∀ result, read a = some result → TellsOf preview t result
  | .error e => UnlocksPlainly t → placed t = [] ∨ e.isPlain = true

/-- The steps of an evaluation, with the failed read that is a status. -/
theorem caught_accounts {m : Work EvaluationStatus} (hm : Accounts m Says) {l l' : Locals} {t : Trace}
    {r : Except Exn (Except Exn EvaluationStatus)} (h : (caught m).Path l t r l')
    (hgood : ∀ x ∈ t, Genuine x) (hstart : l.legs = []) :
    (∃ status, r = .ok (.ok status) ∧ Tells false l'.legs t ∧ Says status l'.legs) ∨
      ∃ e, r = .ok (.error e) ∧ (orders t = [] ∧ l'.legs = [] ∨ e.isPlain = true) := by
  rcases path_tryCatch h with ⟨outcome, h₁, rfl⟩ | ⟨e, l₁, t₁, t₂, h₁, h₂, rfl⟩
  · obtain ⟨status, l₂, t₂, t₃, h₂, h₃, rfl⟩ := path_bind_ok h₁
    obtain ⟨rfl, hok, rfl⟩ := path_pure h₃
    obtain rfl := Except.ok.inj hok
    rw [List.append_nil] at hgood ⊢
    rcases hm _ _ _ _ h₂ hgood hstart with ⟨status', hs, htells, hclaims⟩ | ⟨e, he, -⟩
    · obtain rfl := Except.ok.inj hs
      exact Or.inl ⟨status, rfl, htells, hclaims⟩
    · cases he
  · have hraised : orders t₁ = [] ∧ l₁.legs = [] ∨ e.isPlain = true := by
      rcases path_bind h₁ with ⟨status, l₂, t₃, t₄, -, h₃, -⟩ | ⟨e', h₃, he⟩
      · obtain ⟨-, he, -⟩ := path_pure h₃
        cases he
      · obtain rfl := Except.error.inj he
        rcases hm _ _ _ _ h₃ (fun x hx => hgood x (List.mem_append_left _ hx)) hstart with
          ⟨status, hs, -⟩ | ⟨e', he', hsent⟩
        · cases hs
        · obtain rfl := Except.error.inj he'
          exact hsent
    cases e with
    | portfolioUnavailable what =>
      -- A read of Kraken that failed is not plain, so nothing was sent before it.
      obtain ⟨hquiet, hlegs⟩ : orders t₁ = [] ∧ l₁.legs = [] := hraised.resolve_right (by simp [Exn.isPlain])
      rcases path_bind h₂ with ⟨_, l₂, t₃, t₄, h₃, h₄, rfl⟩ | ⟨e, h₃, -⟩
      · obtain ⟨rfl, -, rfl⟩ := path_modifyLocals h₃
        obtain ⟨rfl, rfl, rfl⟩ := path_pure h₄
        refine Or.inl ⟨_, rfl, ?_, ?_⟩
        · rw [hlegs]
          exact tells_of_quiet (by simpa using hquiet)
        · rw [hlegs]
          apply says_nothing
          rintro (h | h | h) <;> cases h
      · obtain ⟨-, he, -⟩ := path_modifyLocals h₃
        cases he
    | _ =>
      obtain ⟨rfl, rfl, rfl⟩ := path_pure h₂
      rw [List.append_nil]
      exact Or.inr ⟨_, rfl, hraised⟩

/-- A first part that is idle, of a call that starts without results. -/
theorem endsTold_bind {α β : Type} {preview : Bool} {Q : α → Prop} {m : Work α} {f : α → Work β}
    {read : β → Option EvaluationResult} (hm : PlacesNone m Q) {l l' : Locals} {t : Trace} {r : Except Exn β}
    (h : (m >>= f).Path l t r l') (hgood : ∀ x ∈ t, Genuine x) (hstart : l.legs = [])
    (hf : ∀ a l₁ t₂, Q a → (f a).Path l₁ t₂ r l' → (∀ x ∈ t₂, Genuine x) → l₁.legs = [] →
      EndsTold preview read t₂ r) : EndsTold preview read t r := by
  rcases path_bind h with ⟨a, l₁, t₁, t₂, h₁, h₂, rfl⟩ | ⟨e, h₁, rfl⟩
  · obtain ⟨hquiet, hlegs, hQ⟩ := hm _ _ _ _ h₁ fun x hx => hgood x (List.mem_append_left _ hx)
    have hrest := hf a l₁ t₂ (hQ a rfl) h₂ (fun x hx => hgood x (List.mem_append_right _ hx))
      (hlegs.trans hstart)
    cases r with
    | ok b =>
      intro result hread
      obtain ⟨hflag, htells, hclaims⟩ := hrest result hread
      exact ⟨hflag, by simpa using (tells_of_quiet hquiet).append htells, hclaims⟩
    | error e =>
      intro hunlocks
      rw [placed, orders_append, hquiet, List.nil_append]
      exact hrest fun e he => hunlocks e (List.mem_append_right _ he)
  · obtain ⟨hquiet, -, -⟩ := hm _ _ _ _ h₁ hgood
    intro _
    exact Or.inl (placed_of_quiet hquiet)

/-- A last part that is idle and raises plainly, and keeps the result. -/
theorem endsTold_after {α β : Type} {preview : Bool} {m : Work α} {f : α → Work β} {read : α → Option EvaluationResult}
    {read' : β → Option EvaluationResult} {l l' : Locals} {t : Trace} {r : Except Exn β}
    (h : (m >>= f).Path l t r l') (hgood : ∀ x ∈ t, Genuine x)
    (hm : ∀ t₁ r₁ l₁, m.Path l t₁ r₁ l₁ → (∀ x ∈ t₁, Genuine x) → EndsTold preview read t₁ r₁)
    (hf : ∀ a, PlacesNone (f a) fun b => read' b = read a) (hplain : ∀ a, RaisesPlain (f a)) :
    EndsTold preview read' t r := by
  rcases path_bind h with ⟨a, l₁, t₁, t₂, h₁, h₂, rfl⟩ | ⟨e, h₁, rfl⟩
  · have hfirst := hm _ _ _ h₁ fun x hx => hgood x (List.mem_append_left _ hx)
    have hgood₂ : ∀ x ∈ t₂, Genuine x := fun x hx => hgood x (List.mem_append_right _ hx)
    obtain ⟨hquiet, -, hresult⟩ := hf a _ _ _ _ h₂ hgood₂
    cases r with
    | ok b =>
      intro result hread
      rw [hresult b rfl] at hread
      exact (hfirst result hread).after hquiet
    | error e => exact fun _ => Or.inr (hplain a _ _ _ _ h₂ hgood₂)
  · exact hm _ _ _ h₁ hgood

/-- What closes the record of an evaluation gives the result of its steps, unless the database fails. -/
theorem closing_path {id : Nat} {outcome : Except Exn EvaluationStatus} {l l' : Locals} {t : Trace}
    {r : Except Exn EvaluationResult}
    (h : (do
      let finishedAt ← currentTime
      let l ← getLocals
      transact (.finishEvaluation id (recordedStatus outcome) finishedAt (logText l.log))
      let status ← fromExcept outcome
      return { status, preview := false, legs := l.legs, messages := l.log
               lookupFailed := l.blocked.any fun b => b } : Work EvaluationResult).Path l t r l')
    (hgood : ∀ x ∈ t, Genuine x) :
    orders t = [] ∧ ((∃ e, r = .error e ∧ e.isPlain = true) ∨ r = outcome.map fun status =>
      { status, preview := false, legs := l.legs, messages := l.log
        lookupFailed := l.blocked.any fun b => b }) := by
  rcases path_bind h with ⟨finishedAt, l₁, t₁, u₁, h₁, k₁, rfl⟩ | ⟨e, h₁, -⟩
  · obtain ⟨b, rfl, -, rfl⟩ := path_perform h₁
    rcases path_bind k₁ with ⟨read, l₂, t₂, u₂, h₂, k₂, rfl⟩ | ⟨e, h₂, -⟩
    · obtain ⟨rfl, hread, rfl⟩ := path_getLocals h₂
      cases hread
      rcases path_bind k₂ with ⟨_, l₃, t₃, u₃, h₃, k₃, rfl⟩ | ⟨e, h₃, rfl⟩
      · obtain ⟨-, hquiet, rfl⟩ := transact_path h₃
        have hlast : u₃ = [] ∧ r = outcome.map fun status =>
            { status, preview := false, legs := l₃.legs, messages := l₃.log
              lookupFailed := l₃.blocked.any fun b => b } := by
          cases outcome with
          | ok status =>
            obtain ⟨status', l₄, t₄, u₄, h₄, k₄, rfl⟩ | ⟨e, h₄, -⟩ := path_bind k₃
            · obtain ⟨rfl, hs, rfl⟩ := path_pure h₄
              obtain rfl := Except.ok.inj hs
              obtain ⟨rfl, rfl, -⟩ := path_pure k₄
              exact ⟨rfl, rfl⟩
            · obtain ⟨-, he, -⟩ := path_pure h₄
              cases he
          | error e =>
            obtain ⟨status', l₄, t₄, u₄, h₄, -, -⟩ | ⟨e', h₄, rfl⟩ := path_bind k₃
            · obtain ⟨-, hs, -⟩ := path_throw h₄
              cases hs
            · obtain ⟨rfl, he, -⟩ := path_throw h₄
              rw [← Except.error.inj he]
              exact ⟨rfl, rfl⟩
        obtain ⟨rfl, rfl⟩ := hlast
        refine ⟨?_, Or.inr rfl⟩
        rw [orders_append, orders_append, orders_append, hquiet]
        rfl
      · obtain ⟨-, hquiet, -⟩ := transact_path h₃
        refine ⟨?_, Or.inl ⟨e, rfl, ?_⟩⟩
        · rw [orders_append, orders_append, hquiet]
          rfl
        · apply transact_plain (x := .finishEvaluation id (recordedStatus outcome) finishedAt _) rfl _ _ _ _ h₃
          intro x hx
          exact hgood x (List.mem_append_right _ (List.mem_append_right _ hx))
    · obtain ⟨-, he, -⟩ := path_getLocals h₂
      cases he
  · obtain ⟨b, -, he, -⟩ := path_perform h₁
    cases he

/-- The record of an evaluation is closed around its steps, whatever they did. -/
theorem runEvaluation_told {account : Account} {reason : OrderReason} {decide : Decision}
    (hdecide : JudgesUnsent decide) {operation : Operation} {trigger : Trigger} {l l' : Locals} {t : Trace}
    {r : Except Exn EvaluationResult}
    (h : (runEvaluation account reason decide operation trigger).Path l t r l')
    (hgood : ∀ x ∈ t, Genuine x) (hstart : l.legs = []) : EndsTold false some t r := by
  refine endsTold_bind placesNone_now h hgood hstart ?_
  intro startedAt l₁ t₁ _ h₁ hgood₁ hstart₁
  refine endsTold_bind (placesNone_transact (Q := fun _ => True) fun _ _ _ _ _ => trivial) h₁ hgood₁ hstart₁ ?_
  intro id l₂ t₂ _ h₂ hgood₂ hstart₂
  have hsteps := evaluateSteps_accounts id account reason hdecide
  rcases path_bind h₂ with ⟨outcome, l₃, t₃, t₄, h₃, h₄, rfl⟩ | ⟨e, h₃, rfl⟩
  · have hcaught := caught_accounts hsteps h₃ (fun x hx => hgood₂ x (List.mem_append_left _ hx)) hstart₂
    have hgood₄ : ∀ x ∈ t₄, Genuine x := fun x hx => hgood₂ x (List.mem_append_right _ hx)
    obtain ⟨hquiet, hend⟩ := closing_path h₄ hgood₄
    rcases hcaught with ⟨status, hs, htells, hclaims⟩ | ⟨e, he, hsent⟩
    · obtain rfl := Except.ok.inj hs
      rcases hend with ⟨e, rfl, hplain⟩ | rfl
      · exact fun _ => Or.inr hplain
      · intro result hread
        obtain rfl := Option.some.inj hread
        exact ⟨rfl, by simpa using htells.append (tells_of_quiet hquiet), fun _ => hclaims⟩
    · obtain rfl := Except.ok.inj he
      have hunsent : orders t₃ = [] ∨ e.isPlain = true := hsent.imp_left And.left
      rcases hend with ⟨e', rfl, hplain⟩ | rfl
      · exact fun _ => Or.inr hplain
      · intro _
        refine hunsent.imp_left ?_
        intro hnone
        apply placed_of_quiet
        rw [orders_append, hnone, hquiet, List.append_nil]
  · rcases caught_accounts hsteps h₃ hgood₂ hstart₂ with ⟨status, hs, -⟩ | ⟨e, he, -⟩
    · cases hs
    · cases he


/-- The lock is given back whatever the body did. -/
theorem withLock_told {m : Work EvaluationResult} {l l' : Locals} {t : Trace} {r : Except Exn EvaluationResult}
    (h : (withLock m).Path l t r l') (hgood : ∀ x ∈ t, Genuine x) (hstart : l.legs = [])
    (hm : ∀ t₁ r₁ l₁ l₂, m.Path l₁ t₁ r₁ l₂ → (∀ x ∈ t₁, Genuine x) → l₁.legs = [] →
      EndsTold false some t₁ r₁) :
    EndsTold false some t r := by
  have htry : PlacesNone (attempt Op.tryLock fun (b : Ans Op.tryLock) => b : Work Bool) fun _ => True := by
    intro l t r l' hpath _
    obtain ⟨b, rfl, -, rfl⟩ := path_attempt hpath
    exact ⟨rfl, rfl, fun _ _ => trivial⟩
  refine endsTold_bind htry h hgood hstart ?_
  intro taken l₁ t₁ _ h₁ hgood₁ hstart₁
  cases taken with
  | false =>
    obtain ⟨rfl, rfl, -⟩ := path_throw h₁
    exact fun _ => Or.inl rfl
  | true =>
    obtain ⟨r₂, l₂, t₂, u, t₃, h₂, h₃, rfl, hend⟩ := path_tryFinally h₁
    have hbody := hm t₂ r₂ l₁ l₂ h₂ (fun x hx => hgood₁ x (List.mem_append_left _ hx)) hstart₁
    obtain ⟨b, rfl, rfl, -⟩ := path_attempt h₃
    rcases hend with ⟨-, rfl⟩ | ⟨e, he, rfl⟩
    · cases r with
      | ok result =>
        intro result' hread
        exact (hbody result' hread).after rfl
      | error e =>
        intro hunlocks
        have hquiet : placed (t₂ ++ [⟨.unlock, u⟩]) = placed t₂ := by
          rw [placed, orders_append]
          exact congrArg _ (List.append_nil _)
        rw [hquiet]
        exact hbody fun e he => hunlocks e (List.mem_append_left _ he)
    · -- The exception of giving the lock back wins over what the body raised.
      intro hunlocks
      refine Or.inr (hunlocks e (List.mem_append_right _ ?_))
      rw [show u = (.error e : Except Exn Unit) from he]
      exact List.mem_cons_self

theorem placesNone_unseal (sealed : Sealed) : PlacesNone (krakenFor sealed) fun _ => True := by
  intro l t r l' hpath _
  obtain ⟨b, rfl, -, rfl⟩ := path_attempt hpath
  exact ⟨rfl, rfl, fun _ _ => trivial⟩

/-- An evaluation's result tells of its orders. -/
theorem evaluate_told {allowSells : Bool} {reason : OrderReason} {decide : Decision}
    (hdecide : JudgesUnsent decide) {operation : Operation} {trigger : Trigger} {l l' : Locals} {t : Trace}
    {r : Except Exn EvaluationResult} (h : (evaluate allowSells reason decide operation trigger).Path l t r l')
    (hgood : ∀ x ∈ t, Genuine x) (hstart : l.legs = []) : EndsTold false some t r := by
  refine endsTold_bind (placesNone_transact (Q := fun _ => True) fun _ _ _ _ _ => trivial) h hgood hstart ?_
  intro account l₁ t₁ _ h₁ hgood₁ hstart₁
  refine endsTold_bind (placesNone_unseal account.sealed) h₁ hgood₁ hstart₁ ?_
  intro _ l₂ t₂ _ h₂ hgood₂ hstart₂
  refine withLock_told h₂ hgood₂ hstart₂ ?_
  intro t₃ r₃ l₃ l₄ h₃ hgood₃ hstart₃
  exact runEvaluation_told hdecide h₃ hgood₃ hstart₃

/-! ## A preview -/

/-- The result of a leg that was validated tells of the order that Kraken saw. -/
theorem previewLeg_tells {leg : PlannedLeg} (hside : leg.side = .buy) {l l' : Locals} {t : Trace}
    {result : LegResult} (h : (previewLeg leg).Path l t (.ok result) l') : l' = l ∧ Tells true [result] t := by
  unfold previewLeg at h
  split at h
  · rename_i note hnote
    obtain ⟨rfl, hr, rfl⟩ := path_pure h
    obtain rfl := Except.ok.inj hr
    refine ⟨rfl, rfl, ?_⟩
    intro r hr
    rw [List.mem_singleton.mp hr]
    exact named_skipped leg note
  · rcases orders_bind newClOrdId_only h with ⟨c, t₁, u₁, rfl, hq₁, -, h₁⟩ | ⟨e, he, -, -⟩
    · obtain ⟨placement, l₂, t₂, u₂, h₂, h₃, rfl⟩ := path_bind_ok h₁
      obtain ⟨rfl, ⟨answer, -, horders, -⟩ | ⟨-, -, e, he⟩⟩ := place_path h₂
      · obtain ⟨rfl, hr, rfl⟩ := path_pure h₃
        have hbuy : legOrder true leg = some ⟨leg.pair, Side.buy.value, leg.amount, true⟩ := by
          rw [legOrder, orderVolume, hside]
          rfl
        obtain ⟨hstatus, hbought, hpair, hamount⟩ : result.status ≠ .skipped ∧ result.side = .buy ∧
            result.pair = leg.pair ∧ result.amountFiat = leg.amount := by
          rw [Except.ok.inj hr]
          refine ⟨?_, hside, rfl, rfl⟩
          dsimp only
          split <;> decide
        refine ⟨rfl, ?_, ?_⟩
        · rw [orders_append, hq₁, orders_append, horders, hbuy]
          simp [toldOrder, hstatus, amountOf, hbought, hpair, hamount]
        · intro r hr _
          rw [List.mem_singleton.mp hr, amountOf, hbought]
          rfl
      · cases he
    · cases he

theorem previewLegs_tells {legs : List PlannedLeg} (hbuys : ∀ leg ∈ legs, leg.side = .buy) {l l' : Locals}
    {t : Trace} {results : List LegResult} (h : (previewLegs legs).Path l t (.ok results) l') :
    Tells true results t := by
  induction legs generalizing l l' t results with
  | nil =>
    obtain ⟨rfl, hr, rfl⟩ := path_pure h
    obtain rfl := Except.ok.inj hr
    exact tells_of_quiet rfl
  | cons leg rest ih =>
    obtain ⟨result, l₁, t₁, t₂, h₁, h₂, rfl⟩ := path_bind_ok h
    obtain ⟨rfl, hfirst⟩ := previewLeg_tells (hbuys leg List.mem_cons_self) h₁
    obtain ⟨others, l₂, t₃, t₄, h₃, h₄, rfl⟩ := path_bind_ok h₂
    have hrest := ih (fun leg hleg => hbuys leg (List.mem_cons_of_mem _ hleg)) h₃
    obtain ⟨rfl, hr, rfl⟩ := path_pure h₄
    obtain rfl := Except.ok.inj hr
    rw [List.append_nil]
    exact hfirst.append hrest

/-- What a preview calls places nothing. -/
theorem placed_of_previews {t : Trace} (h : ∀ x ∈ t, Op.previews x.1 = true) : placed t = [] := by
  refine List.filter_eq_nil_iff.mpr ?_
  intro o ho
  obtain ⟨x, hx, hpick⟩ := List.mem_filterMap.mp ho
  have hop := h x hx
  unfold orderOf at hpick
  split at hpick
  · rename_i pair side volume c inQuote validate heq
    rw [heq] at hop
    rw [← Option.some.inj hpick]
    simpa [Op.previews] using hop
  · cases hpick

/-- A preview's result tells of the orders that were validated, and it places none. -/
theorem previewInvestment_told {account : Account} (hsells : account.policy.allowSells = false)
    {l l' : Locals} {t : Trace} {r : Except Exn EvaluationResult}
    (h : (previewInvestment account).Path l t r l') : EndsTold true some t r := by
  have hnone : placed t = [] := placed_of_previews
    ((previewInvestment_only (J := fun _ => True) account).path h trivial).1
  cases r with
  | error e => exact fun _ => Or.inl hnone
  | ok result =>
    intro result' hread
    obtain rfl := Option.some.inj hread
    obtain ⟨hflag, hlegs⟩ : result.preview = true ∧ Tells true result.legs t := by
      obtain ⟨unresolved, l₁, t₁, t₂, h₁, h₂, rfl⟩ := path_bind_ok h
      obtain ⟨-, hquiet₁, rfl⟩ := transact_path h₁
      split at h₂
      · obtain ⟨rfl, hr, rfl⟩ := path_pure h₂
        obtain rfl := Except.ok.inj hr
        exact ⟨rfl, tells_of_quiet (by simpa using hquiet₁)⟩
      · obtain ⟨planned, l₂, t₃, t₄, h₃, h₄, rfl⟩ := path_bind_ok h₂
        obtain ⟨hquiet₃, hbuys⟩ : orders t₃ = [] ∧
            ∀ p, planned = .ok p → ∀ leg ∈ p.legs, leg.side = .buy := by
          rcases path_tryCatch h₃ with ⟨p, h₅, hp⟩ | ⟨e, l₃, t₅, t₆, h₅, h₆, rfl⟩
          · obtain ⟨p', l₄, t₅, t₆, h₆, h₇, rfl⟩ := path_bind_ok h₅
            obtain ⟨hquiet, -, -, hfrom⟩ := plan_path h₆
            obtain ⟨rfl, hp', rfl⟩ := path_pure h₇
            obtain rfl := Except.ok.inj hp'
            obtain rfl := Except.ok.inj hp
            refine ⟨by simpa using hquiet, ?_⟩
            intro p hp
            rw [← Except.ok.inj hp]
            exact (hfrom p' rfl).buys hsells
          · have hquiet : orders t₅ = [] := by
              rcases path_bind h₅ with ⟨p, l₄, t₇, t₈, -, h₇, -⟩ | ⟨e', h₇, -⟩
              · obtain ⟨-, he, -⟩ := path_pure h₇
                cases he
              · exact (plan_path h₇).1
            cases e with
            | portfolioUnavailable what =>
              obtain ⟨rfl, hp, rfl⟩ := path_pure h₆
              obtain rfl := Except.ok.inj hp
              refine ⟨by simpa using hquiet, ?_⟩
              intro p hp
              cases hp
            | _ =>
              obtain ⟨-, he, -⟩ := path_throw h₆
              cases he
        cases planned with
        | error what =>
          obtain ⟨rfl, hr, rfl⟩ := path_pure h₄
          obtain rfl := Except.ok.inj hr
          exact ⟨rfl, tells_of_quiet (by simp [hquiet₁, hquiet₃])⟩
        | ok p =>
          obtain ⟨legs, l₃, t₅, t₆, h₅, h₆, rfl⟩ := path_bind_ok h₄
          have hlegs := previewLegs_tells (hbuys p rfl) h₅
          obtain ⟨rfl, hr, rfl⟩ := path_pure h₆
          obtain rfl := Except.ok.inj hr
          refine ⟨rfl, ?_, hlegs.named⟩
          rw [orders_append, hquiet₁, orders_append, hquiet₃, List.append_nil]
          exact hlegs.told
    refine ⟨hflag, hlegs, ?_⟩
    intro hfalse
    cases hfalse


/-! ## The calls -/

section Calls

variable {l l' : Locals} {t : Trace}

/-- An investment's result tells of its orders, validated or placed. -/
theorem invest_told {preview : Bool} {trigger : Trigger} {r : Except Exn EvaluationResult}
    (h : (invest preview trigger).Path l t r l') (hgood : ∀ x ∈ t, Genuine x) (hstart : l.legs = []) :
    EndsTold preview some t r := by
  unfold invest at h
  cases preview with
  | true =>
    rw [if_pos rfl] at h
    have hload : PlacesNone (transact (.load false)) fun account : Account => account.policy.allowSells = false := by
      apply placesNone_transact (x := .load false)
      intro account now db db' hrun
      exact load_allowSells hrun
    refine endsTold_bind hload h hgood hstart ?_
    intro account l₁ t₁ hsells h₁ hgood₁ hstart₁
    refine endsTold_bind (placesNone_unseal account.sealed) h₁ hgood₁ hstart₁ ?_
    intro _ l₂ t₂ _ h₂ _ _
    exact previewInvestment_told hsells h₂
  | false =>
    rw [if_neg (by decide)] at h
    refine evaluate_told ?_ h hgood hstart
    split
    · exact stillScheduled_unsent
    · exact sendIt_unsent

/-- Reading the live proposal after an evaluation keeps its result. -/
theorem current_told {m : Work EvaluationResult} {r : Except Exn Outcome}
    (h : (do
      let result ← m
      let current : Option Proposal ← transact .liveProposal
      return .rebalanced result current : Work Outcome).Path l t r l') (hgood : ∀ x ∈ t, Genuine x)
    (hm : ∀ t₁ r₁ l₁, m.Path l t₁ r₁ l₁ → (∀ x ∈ t₁, Genuine x) → EndsTold false some t₁ r₁) :
    EndsTold false resultOf t r := by
  refine endsTold_after h hgood hm ?_ ?_
  · intro result
    refine placesNone_bind (placesNone_transact (Q := fun _ => True) fun _ _ _ _ _ => trivial) ?_
    intro current _
    exact placesNone_pure rfl
  · intro result
    exact raises_bind (transact_plain rfl) fun _ => raises_pure _

theorem propose_told {trigger : Trigger} {r : Except Exn Outcome} (h : (propose trigger).Path l t r l')
    (hgood : ∀ x ∈ t, Genuine x) (hstart : l.legs = []) : EndsTold false resultOf t r := by
  refine current_told h hgood ?_
  intro t₁ r₁ l₁ h₁ hgood₁
  exact evaluate_told (propose_unsent _) h₁ hgood₁ hstart

/-- Closing an approval places nothing, and raises only what the database does. -/
theorem closeApproval_path {r : Except Exn Unit} (h : closeApproval.Path l t r l')
    (hgood : ∀ x ∈ t, Genuine x) :
    orders t = [] ∧ ∀ e, r = .error e → e.isPlain = true := by
  rcases path_bind h with ⟨read, l₁, t₁, t₂, h₁, h₂, rfl⟩ | ⟨e, h₁, -⟩
  · obtain ⟨rfl, hread, rfl⟩ := path_getLocals h₁
    cases hread
    split at h₂
    · have hplain := transact_plain (x := .setExecuted) rfl
      obtain ⟨rfl, hquiet, -⟩ := transact_path h₂
      refine ⟨hquiet, ?_⟩
      rintro e rfl
      exact hplain _ _ _ _ h₂ hgood
    · obtain ⟨rfl, rfl, -⟩ := path_pure h₂
      refine ⟨rfl, ?_⟩
      intro e he
      cases he
  · obtain ⟨-, he, -⟩ := path_getLocals h₁
    cases he

/-- An approval's result tells of its orders, and what refuses it comes before any. -/
theorem approve_told {version : Int} {r : Except Exn Outcome} (h : (approve version).Path l t r l')
    (hgood : ∀ x ∈ t, Genuine x) (hstart : l.legs = []) : EndsTold false resultOf t r := by
  refine endsTold_bind (placesNone_transact (x := .liveProposal) (Q := fun _ => True) fun _ _ _ _ _ => trivial) h
    hgood hstart ?_
  intro slot l₁ t₁ _ h₁ hgood₁ hstart₁
  cases slot with
  | none =>
    obtain ⟨rfl, rfl, -⟩ := path_throw h₁
    exact fun _ => Or.inl rfl
  | some slot =>
    dsimp only at h₁
    split at h₁
    · obtain ⟨rfl, rfl, -⟩ := path_throw h₁
      exact fun _ => Or.inl rfl
    · refine current_told h₁ hgood₁ ?_
      intro t₂ r₂ l₂ h₂ hgood₂
      obtain ⟨r₃, l₃, t₃, s, t₄, h₃, h₄, rfl, hend⟩ := path_tryFinally h₂
      have htold := evaluate_told (approving_unsent version) h₃
        (fun x hx => hgood₂ x (List.mem_append_left _ hx)) hstart₁
      obtain ⟨hquiet, hplain⟩ := closeApproval_path h₄ fun x hx => hgood₂ x (List.mem_append_right _ hx)
      rcases hend with ⟨-, rfl⟩ | ⟨e, he, rfl⟩
      · cases r₂ with
        | ok result =>
          intro result' hread
          exact (htold result' hread).after hquiet
        | error e =>
          intro hunlocks
          rw [placed, orders_append, hquiet, List.append_nil]
          exact htold fun e he => hunlocks e (List.mem_append_left _ he)
      · exact fun _ => Or.inr (hplain e he)

/-- A withdrawal places nothing. -/
theorem withdraw_path {version : Int} {r : Except Exn Outcome} (h : (handle (.withdraw version)).Path l t r l') :
    orders t = [] ∧ ∀ outcome, r = .ok outcome → resultOf outcome = none := by
  rcases path_bind h with ⟨done, l₁, t₁, t₂, h₁, h₂, rfl⟩ | ⟨e, h₁, rfl⟩
  · obtain ⟨-, hquiet, -⟩ := transact_path h₁
    obtain ⟨rfl, rfl, -⟩ := path_pure h₂
    refine ⟨by simpa using hquiet, ?_⟩
    intro outcome ho
    rw [← Except.ok.inj ho]
    rfl
  · obtain ⟨-, hquiet, -⟩ := transact_path h₁
    refine ⟨hquiet, ?_⟩
    intro outcome ho
    cases ho

/-- The requests that only preview. -/
def isPreview : Request → Bool
  | .invest preview _ => preview
  | _ => false

/-- Every call ends told. -/
theorem handle_told {c : Request} {r : Except Exn Outcome} (h : (handle c).Path {} t r l')
    (hgood : ∀ x ∈ t, Genuine x) : EndsTold (isPreview c) resultOf t r := by
  have hresult : ∀ {preview : Bool} {m : Work EvaluationResult},
      (do return .evaluated (← m) : Work Outcome).Path {} t r l' →
      (∀ t₁ r₁ l₁, m.Path {} t₁ r₁ l₁ → (∀ x ∈ t₁, Genuine x) → EndsTold preview some t₁ r₁) →
      EndsTold preview resultOf t r := by
    intro preview m hm htold
    refine endsTold_after hm hgood htold ?_ fun _ => raises_pure _
    intro result
    exact placesNone_pure rfl
  cases c with
  | invest preview trigger => exact hresult h fun t₁ r₁ l₁ h₁ hgood₁ => invest_told h₁ hgood₁ rfl
  | propose trigger => exact propose_told h hgood rfl
  | approve version => exact approve_told h hgood rfl
  | rebalanceNow => exact hresult h fun t₁ r₁ l₁ h₁ hgood₁ => evaluate_told rebalanceNow_unsent h₁ hgood₁ rfl
  | withdraw version =>
    obtain ⟨hquiet, hnone⟩ := withdraw_path h
    cases r with
    | ok outcome =>
      intro result hread
      rw [hnone outcome rfl] at hread
      cases hread
    | error e => exact fun _ => Or.inl (placed_of_quiet hquiet)

end Calls


/-! ## Answers -/

section Responses

open Coinpilot.Api

theorem toldOrder_validate {validate : Bool} {r : LegResult} {o : Ordered} (h : toldOrder validate r = some o) :
    o.validate = validate := by
  unfold toldOrder at h
  split at h
  · cases h
  · obtain ⟨volume, -, rfl⟩ := Option.map_eq_some_iff.mp h
    rfl

/-- What a leg of an answer shows of its order: the pair, the side and the amount. -/
def shownOrder (leg : LegOut) : Option (String × Side × String) :=
  if leg.status = .skipped then none
  else
    match leg.side with
    | .buy => some (leg.pair, .buy, leg.amountFiat)
    | .sell => leg.volume.map fun volume => (leg.pair, .sell, volume)

/-- An order as an answer writes it. -/
def Ordered.shows (o : Ordered) (shown : String × Side × String) : Prop :=
  o.pair = shown.1 ∧ o.side = shown.2.1.value ∧ plainAmount o.volume = shown.2.2

/-- The legs and the status of a body. -/
def bodyOf : Response → Option (EvaluationStatus × Bool × List LegOut)
  | .invested body => some (body.status, body.preview, body.legs)
  | .rebalanced body => some (body.status, false, body.legs)
  | _ => none

/-- A leg shows the order that its result tells of. -/
theorem shows_legOut (validate : Bool) (r : LegResult) :
    Option.Rel (fun o shown => Ordered.shows o shown ∧ o.validate = validate) (toldOrder validate r)
      (shownOrder (legOut r)) := by
  rw [toldOrder, shownOrder]
  by_cases hskipped : r.status = .skipped
  · rw [if_pos hskipped, if_pos (show (legOut r).status = .skipped from hskipped)]
    exact .none
  · rw [if_neg hskipped, if_neg (show ¬(legOut r).status = .skipped from hskipped)]
    have hside : (legOut r).side = r.side := rfl
    rw [hside, amountOf]
    cases hs : r.side with
    | buy => exact .some ⟨⟨rfl, rfl, rfl⟩, rfl⟩
    | sell =>
      have hvolume : (legOut r).volume = r.volume.map plainAmount := rfl
      rw [hvolume]
      cases r.volume with
      | none => exact .none
      | some volume => exact .some ⟨⟨rfl, rfl, rfl⟩, rfl⟩

/-- The legs of an answer show the orders that the results tell of, one by one. -/
theorem shows_legs (validate : Bool) (results : List LegResult) :
    List.Forall₂ (fun o shown => Ordered.shows o shown ∧ o.validate = validate)
      (results.filterMap (toldOrder validate)) ((results.map legOut).filterMap shownOrder) := by
  induction results with
  | nil => exact .nil
  | cons r rest ih =>
    rw [List.map_cons, List.filterMap_cons, List.filterMap_cons]
    have hleg := shows_legOut validate r
    cases htold : toldOrder validate r with
    | none =>
      rw [htold] at hleg
      cases hshown : shownOrder (legOut r) with
      | none => exact ih
      | some shown =>
        rw [hshown] at hleg
        cases hleg
    | some o =>
      rw [htold] at hleg
      cases hshown : shownOrder (legOut r) with
      | none =>
        rw [hshown] at hleg
        cases hleg
      | some shown =>
        rw [hshown] at hleg
        cases hleg with
        | some h => exact .cons h ih

/-- An answer that says what is wrong is not made from what the database or the language raises. -/
theorem refused_of_error {c : Request} {e : Exn} {refusal : Refusal}
    (h : respond c (.error e) = some (.refused refusal)) : e.isPlain = false := by
  cases hplain : e.isPlain with
  | false => rfl
  | true =>
    have hfailed : ∀ response, respond c (.error e) = some response → response = .failed e := by
      intro response hresponse
      cases e with
      | python _ | database =>
        cases c with
        | invest _ trigger | propose trigger =>
          cases trigger with
          | api => exact (Option.some.inj hresponse).symm
          | scheduler => cases hresponse
        | approve _ | withdraw _ => cases hresponse; rfl
        | rebalanceNow => cases hresponse
      | _ => cases hplain
    cases hfailed _ h

/-- How a body is made: from a result of the call, with a leg for each of its legs. -/
structure BodyFrom (result : EvaluationResult) (response : Response) : Prop where
  body : ∀ status preview legs, bodyOf response = some (status, preview, legs) →
    status = result.status ∧ legs = result.legs.map legOut
  refused : ∀ refusal, response = .refused refusal → ¬SentStatus result.status

theorem not_sentStatus_unfinished {result : EvaluationResult} {refusal : Refusal}
    (h : unfinished result = some refusal) : ¬SentStatus result.status := by
  unfold unfinished at h
  split at h
  · rename_i hs
    rw [hs]
    rintro (h | h | h) <;> cases h
  · rename_i hs
    rw [hs]
    rintro (h | h | h) <;> cases h
  · cases h

theorem bodyFrom_refused {result : EvaluationResult} {refusal : Refusal} (h : ¬SentStatus result.status) :
    BodyFrom result (.refused refusal) := by
  refine ⟨?_, fun _ _ => h⟩
  intro status preview legs hbody
  cases hbody

theorem bodyFrom_investNow (result : EvaluationResult) : BodyFrom result (investNow (.ok result)) := by
  rw [investNow]
  cases hunfinished : unfinished result with
  | some refusal => exact bodyFrom_refused (not_sentStatus_unfinished hunfinished)
  | none =>
    refine ⟨?_, ?_⟩
    · intro status preview legs hbody
      cases hbody
      exact ⟨rfl, rfl⟩
    · intro refusal hrefused
      cases hrefused

theorem bodyFrom_rebalanceOut (result : EvaluationResult) (proposal : Option Proposal) :
    BodyFrom result (.rebalanced (rebalanceOut result proposal)) := by
  refine ⟨?_, ?_⟩
  · intro status preview legs hbody
    cases hbody
    exact ⟨rfl, rfl⟩
  · intro refusal hrefused
    cases hrefused

theorem bodyFrom_rebalance (result : EvaluationResult) (proposal : Option Proposal) :
    BodyFrom result (Api.rebalance (.ok (result, proposal))) := by
  rw [Api.rebalance]
  cases hunfinished : unfinished result with
  | some refusal => exact bodyFrom_refused (not_sentStatus_unfinished hunfinished)
  | none => exact bodyFrom_rebalanceOut result proposal

theorem bodyFrom_approveProposal (result : EvaluationResult) (proposal : Option Proposal) :
    BodyFrom result (approveProposal (.ok (result, proposal))) := by
  rw [approveProposal]
  cases hunfinished : unfinished result with
  | some refusal => exact bodyFrom_refused (not_sentStatus_unfinished hunfinished)
  | none =>
    dsimp only
    split
    · rename_i hs
      apply bodyFrom_refused
      rw [hs]
      exact not_sentStatus_superseded
    · exact bodyFrom_rebalanceOut result proposal

/-- A refusal and an exception show no body. -/
theorem bodyOf_unhandled (e : Exn) : bodyOf (unhandled e) = none := by
  cases e <;> rfl

/-- The answer to a call that gave a result is made from that result. -/
theorem bodyFrom_respond {c : Request} {outcome : Outcome} {response : Response}
    (h : respond c (.ok outcome) = some response) :
    (bodyOf response = none ∧ ∃ version, c = .withdraw version) ∨
      ∃ result, resultOf outcome = some result ∧ BodyFrom result response := by
  cases c with
  | invest preview trigger =>
    cases trigger with
    | scheduler => cases h
    | api =>
      cases outcome with
      | evaluated result =>
        obtain rfl := Option.some.inj h
        exact Or.inr ⟨result, rfl, bodyFrom_investNow result⟩
      | _ => cases h
  | propose trigger =>
    cases trigger with
    | scheduler => cases h
    | api =>
      cases outcome with
      | rebalanced result proposal =>
        obtain rfl := Option.some.inj h
        exact Or.inr ⟨result, rfl, bodyFrom_rebalance result proposal⟩
      | _ => cases h
  | approve version =>
    cases outcome with
    | rebalanced result proposal =>
      obtain rfl := Option.some.inj h
      exact Or.inr ⟨result, rfl, bodyFrom_approveProposal result proposal⟩
    | _ => cases h
  | rebalanceNow => cases h
  | withdraw version =>
    cases outcome with
    | withdrawn done =>
      obtain rfl := Option.some.inj h
      refine Or.inl ⟨?_, version, rfl⟩
      cases done <;> rfl
    | _ => cases h

theorem bodyOf_error {c : Request} {e : Exn} {response : Response}
    (h : respond c (.error e) = some response) : bodyOf response = none := by
  cases c with
  | invest _ trigger | propose trigger =>
    cases trigger with
    | scheduler => cases h
    | api =>
      obtain rfl := Option.some.inj h
      exact bodyOf_unhandled _
  | approve _ | withdraw _ =>
    obtain rfl := Option.some.inj h
    cases e <;> rfl
  | rebalanceNow => cases h

end Responses



/-! ## Every run -/

section Runs

open Coinpilot.Api

variable {honest : Prop} {w₀ : World} {σ : State} {i : Nat} {c : Request} {locals : Locals}

theorem genuine_of_runs (h : Runs honest (startOf w₀) σ) (i : Nat) : ∀ x ∈ traceOf i σ.world.past, Genuine x := by
  intro x hx
  obtain ⟨e, he, hwho, rfl⟩ := mem_traceOf.mp hx
  exact ⟨honest, e.who, e.before, e.after, answered_of_runs h he⟩

/-- In every run, the result of a call of the user tells of exactly the orders that Kraken was asked for, in
their order: an investment or a rebalance placed them, and a preview had them validated. The status of what
was not a preview says that something was sent exactly when something was. -/
theorem result_tells_orders (h : Runs honest (startOf w₀) σ) {outcome : Outcome} {result : EvaluationResult}
    (hret : σ.threads i = .live c (.ret (.ok outcome, locals))) (hresult : resultOf outcome = some result) :
    result.preview = isPreview c ∧
      orders (traceOf i σ.world.past) = result.legs.filterMap (toldOrder result.preview) ∧
      (result.preview = false → (SentStatus result.status ↔ orders (traceOf i σ.world.past) ≠ [])) := by
  obtain ⟨hflag, htells, hclaims⟩ := handle_told (path_of_returned h hret) (genuine_of_runs h i) result hresult
  rw [hflag]
  exact ⟨rfl, htells.told, fun hplaces => (hclaims hplaces).trans htells.sent_iff.symm⟩

/-- A refusal is given before anything is placed. -/
theorem placed_of_refused (h : Runs honest (startOf w₀) σ) {r : Except Exn Outcome}
    (hret : σ.threads i = .live c (.ret (r, locals))) {refusal : Refusal}
    (hrefused : respond c r = some (.refused refusal)) (hunlocks : UnlocksPlainly (traceOf i σ.world.past)) :
    placed (traceOf i σ.world.past) = [] := by
  have htold := handle_told (path_of_returned h hret) (genuine_of_runs h i)
  cases r with
  | error e =>
    rcases htold hunlocks with hnone | hplain
    · exact hnone
    · rw [refused_of_error hrefused] at hplain
      cases hplain
  | ok outcome =>
    rcases bodyFrom_respond hrefused with ⟨-, version, rfl⟩ | ⟨result, hresult, hfrom⟩
    · exact placed_of_quiet (withdraw_path (path_of_returned h hret)).1
    · obtain ⟨-, htells, hclaims⟩ := htold result hresult
      cases hpreview : isPreview c with
      | true =>
        rw [hpreview] at htells
        refine List.filter_eq_nil_iff.mpr ?_
        intro o ho
        rw [htells.told] at ho
        obtain ⟨r, -, hr⟩ := List.mem_filterMap.mp ho
        simp [toldOrder_validate hr]
      | false =>
        apply placed_of_quiet
        by_contra hsent
        rw [hpreview] at htells
        exact hfrom.refused refusal rfl ((hclaims hpreview).mpr (htells.sent_iff.mp hsent))

/-- In every run, an answer that refuses a request was given before anything was placed, and what an answer
shows is what was sent: its legs show the orders of the call one by one, with their pair, side and amount,
and the status of what was not a preview says whether there were any. -/
theorem answer_shows_orders (h : Runs honest (startOf w₀) σ) {r : Except Exn Outcome}
    (hret : σ.threads i = .live c (.ret (r, locals))) {response : Response}
    (hresponse : respond c r = some response) :
    (∀ refusal, response = .refused refusal → UnlocksPlainly (traceOf i σ.world.past) →
        placed (traceOf i σ.world.past) = []) ∧
      ∀ status preview legs, bodyOf response = some (status, preview, legs) →
        List.Forall₂ (fun o shown => Ordered.shows o shown ∧ o.validate = isPreview c)
            (orders (traceOf i σ.world.past)) (legs.filterMap shownOrder) ∧
          (isPreview c = false → (SentStatus status ↔ orders (traceOf i σ.world.past) ≠ [])) := by
  refine ⟨?_, ?_⟩
  · rintro refusal rfl hunlocks
    exact placed_of_refused h hret hresponse hunlocks
  · intro status preview legs hbody
    cases r with
    | error e =>
      rw [bodyOf_error hresponse] at hbody
      cases hbody
    | ok outcome =>
      rcases bodyFrom_respond hresponse with ⟨hnone, -⟩ | ⟨result, hresult, hfrom⟩
      · rw [hnone] at hbody
        cases hbody
      · obtain ⟨hflag, horders, hclaims⟩ := result_tells_orders h hret hresult
        obtain ⟨rfl, rfl⟩ := hfrom.body status preview legs hbody
        rw [hflag] at horders hclaims
        rw [horders] at hclaims ⊢
        exact ⟨shows_legs (isPreview c) result.legs, hclaims⟩

end Runs

/-! ## A run of two -/

section Example

open Coinpilot.Api

/-- The request of a thread that has ended, and its answer. -/
def answerOf (σ : State) (i : Nat) : Option (Request × Response) :=
  (σ.threads i).result.bind fun x => (respond x.1 x.2.1).map fun response => (x.1, response)

theorem answerOf_some {σ : State} {i : Nat} {c : Request} {response : Response}
    (h : answerOf σ i = some (c, response)) :
    ∃ r locals, σ.threads i = .live c (.ret (r, locals)) ∧ respond c r = some response := by
  obtain ⟨⟨c', r, locals⟩, hthread, hanswer⟩ := Option.bind_eq_some_iff.mp h
  obtain ⟨response', hresponse, heq⟩ := Option.map_eq_some_iff.mp hanswer
  obtain ⟨rfl, rfl⟩ := Prod.mk.inj heq
  exact ⟨r, locals, Thread.live_of_result hthread, hresponse⟩

/-- An answer to giving the lock back that is plain. -/
def unlockedPlainly : Answer Op Ans → Bool
  | ⟨.unlock, (.error e : Except Exn Unit)⟩ => e.isPlain
  | _ => true

theorem unlocksPlainly_of_all {t : Trace} (h : t.all unlockedPlainly = true) : UnlocksPlainly t := by
  intro e he
  exact List.all_eq_true.mp h _ he

/-- An investment whose answer is lost, and a second one. -/
def lostThenRefused : List (Turn Request Reply) :=
  .spawn 0 (.invest false .api) :: acts 0 .lose 23 ++ .spawn 1 (.invest false .api) :: acts 1 .accept 13

/-- The first shows one order that is pending, and the second is refused. -/
def toldAndRefused (σ : State) : Bool :=
  ((answerOf σ 0).any fun x => x.1 = .invest false .api && (bodyOf x.2).any fun body =>
      body.1 = .stopped && (body.2.2.filterMap shownOrder).length = 1) &&
    ((answerOf σ 1).any fun x => x.1 = .invest false .api &&
      x.2 = .refused { statusCode := 409, detail := STILL_UNRESOLVED }) &&
    (traceOf 1 σ.world.past).all unlockedPlainly

theorem lostThenRefused_reached :
    ∃ σ, Runs True (startOf (newUser false)) σ ∧ toldAndRefused σ = true :=
  reaches_of_replay program (krakenResponder True (marketOf "1000" "0")) (startOf (newUser false)) lostThenRefused
    toldAndRefused (by decide +kernel)

/-- What the run ends with: the two answers, and a plain unlock of the second. -/
theorem toldAndRefused_ok {σ : State} (h : toldAndRefused σ = true) :
    (∃ r locals response preview legs, σ.threads 0 = .live (.invest false .api) (.ret (r, locals)) ∧
        respond (.invest false .api) r = some response ∧ bodyOf response = some (.stopped, preview, legs) ∧
        (legs.filterMap shownOrder).length = 1) ∧
      (∃ r locals, σ.threads 1 = .live (.invest false .api) (.ret (r, locals)) ∧
        respond (.invest false .api) r = some (.refused { statusCode := 409, detail := STILL_UNRESOLVED })) ∧
      UnlocksPlainly (traceOf 1 σ.world.past) := by
  rw [toldAndRefused, Bool.and_eq_true, Bool.and_eq_true] at h
  obtain ⟨⟨hfirst, hsecond⟩, hunlocks⟩ := h
  obtain ⟨⟨c, response⟩, hanswer, hbody⟩ := (Option.any_eq_true _ _).mp hfirst
  rw [Bool.and_eq_true, decide_eq_true_eq] at hbody
  obtain ⟨rfl, hbody⟩ := hbody
  obtain ⟨⟨status, preview, legs⟩, hbody, hone⟩ := (Option.any_eq_true _ _).mp hbody
  rw [Bool.and_eq_true, decide_eq_true_eq, decide_eq_true_eq] at hone
  obtain ⟨rfl, hone⟩ := hone
  obtain ⟨r, locals, hthread, hrespond⟩ := answerOf_some hanswer
  obtain ⟨⟨c', response'⟩, hanswer', hrefused⟩ := (Option.any_eq_true _ _).mp hsecond
  rw [Bool.and_eq_true, decide_eq_true_eq, decide_eq_true_eq] at hrefused
  obtain ⟨rfl, rfl⟩ := hrefused
  obtain ⟨r', locals', hthread', hrespond'⟩ := answerOf_some hanswer'
  exact ⟨⟨r, locals, response, preview, legs, hthread, hrespond, hbody, hone⟩, ⟨r', locals', hthread', hrespond'⟩,
    unlocksPlainly_of_all hunlocks⟩

/-- In that run, the result of the first investment tells of its one order, whose answer was lost. -/
theorem result_tells_orders_lost : ∃ σ outcome result locals, Runs True (startOf (newUser false)) σ ∧
    σ.threads 0 = .live (.invest false .api) (.ret (.ok outcome, locals)) ∧ resultOf outcome = some result ∧
      orders (traceOf 0 σ.world.past) = result.legs.filterMap (toldOrder result.preview) := by
  obtain ⟨σ, hσ, hc⟩ := lostThenRefused_reached
  obtain ⟨⟨r, locals, response, preview, legs, hthread, hrespond, hbody, -⟩, -, -⟩ := toldAndRefused_ok hc
  cases r with
  | error e =>
    rw [bodyOf_error hrespond] at hbody
    cases hbody
  | ok outcome =>
    rcases bodyFrom_respond hrespond with ⟨hnone, -⟩ | ⟨result, hresult, -⟩
    · rw [hnone] at hbody
      cases hbody
    · exact ⟨σ, outcome, result, locals, hσ, hthread, hresult, (result_tells_orders hσ hthread hresult).2.1⟩

/-- In that run, the first answer shows the order that was sent, and the second refuses with nothing placed. -/
theorem answer_shows_orders_lost : ∃ σ response status preview legs, Runs True (startOf (newUser false)) σ ∧
    bodyOf response = some (status, preview, legs) ∧ (legs.filterMap shownOrder).length = 1 ∧
      List.Forall₂ (fun o shown => Ordered.shows o shown ∧ o.validate = false) (orders (traceOf 0 σ.world.past))
        (legs.filterMap shownOrder) ∧
      placed (traceOf 1 σ.world.past) = [] := by
  obtain ⟨σ, hσ, hc⟩ := lostThenRefused_reached
  obtain ⟨⟨r, locals, response, preview, legs, hthread, hrespond, hbody, hone⟩, ⟨r', locals', hthread', hrespond'⟩,
    hunlocks⟩ := toldAndRefused_ok hc
  exact ⟨σ, response, .stopped, preview, legs, hσ, hbody, hone,
    ((answer_shows_orders hσ hthread hrespond).2 .stopped preview legs hbody).1,
    (answer_shows_orders hσ hthread' hrespond').1 _ rfl hunlocks⟩

end Example

end Coinpilot.Safety
