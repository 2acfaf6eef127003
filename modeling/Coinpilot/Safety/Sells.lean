import Coinpilot.Safety.Calls
import Coinpilot.Safety.WriteAhead

/-!
# A sell is authorised

Which orders the calls of a user place in any run (`sells_authorised`): a proposal places none, an
investment never sells, and a sell belongs to an approval that found its version live and the plan
not moved, or to an automatic rebalance that was allowed under the lock.
-/

set_option autoImplicit false

namespace Coinpilot.Safety

open Coinpilot.Lib Coinpilot.Lib.Program Coinpilot.Exchange Coinpilot.Engine Coinpilot.Core

section Runs

variable {honest : Prop} {w₀ : World} {σ : State}

theorem fresh_storedOk (h₀ : Fresh w₀) : (authority honest).inv ⟨w₀, []⟩ := by
  intro p hp
  rw [show (⟨w₀, []⟩ : Rec).now.db.proposal = none from h₀.proposal] at hp
  cases hp

/-- Every operation of a run was allowed, with a slot that was made from a plan. -/
theorem allowed_of_runs (h₀ : Fresh w₀) (h : Runs honest (startOf w₀) σ) {e : Ev} {es : List Ev}
    (he : (e :: es) <:+ σ.world.past) :
    StoredOk e.before.db.proposal ∧ Allowed e.who e.call es e.op ∧
      answered honest e.who e.op e.before e.ans e.after :=
  Contract.guard_of_past (authority_covers honest) (fresh_storedOk h₀) (fun _ => trivial) h he

/-- An operation of a history is the newest of some part of it. -/
theorem suffix_of_mem {e : Ev} {past : List Ev} (h : e ∈ past) : ∃ es, (e :: es) <:+ past := by
  obtain ⟨newer, older, rfl⟩ := List.append_of_mem h
  exact ⟨older, newer, rfl⟩

end Runs

/-- The decision of an approval of `version` by call `i` found it live, and the plan that was recomputed
not materially different from the one stored under it. -/
def FoundLive (i : Nat) (version : Int) (past : List Ev) : Prop :=
  ∃ c planned lines before after p,
    ⟨i, c, .tx (.decideApprove version planned), .ok (none, lines), before, after⟩ ∈ past ∧
      before.db.proposal = some p ∧ p.status = .live ∧ p.version = version ∧
      isMaterial p.plan (planDocument planned.view.fiat planned.legs) = .ok false

/-- The decision of an automatic rebalance by call `i`, under the lock, read it enabled and the user
not paused. -/
def FoundEnabled (i : Nat) (past : List Ev) : Prop :=
  ∃ c lines before after s, ⟨i, c, .tx .decideRebalance, .ok (none, lines), before, after⟩ ∈ past ∧
    before.lock = some i ∧ before.db.settings = some s ∧ s.autoRebalanceEnabled = true ∧ s.paused = false

/-- In every run of any calls of a user: a proposal places no order, an investment never sells, and
every sell belongs to an approval or to an automatic rebalance that were let through. -/
theorem sells_authorised {honest : Prop} {w₀ : World} (h₀ : Fresh w₀) {σ : State}
    (h : Runs honest (startOf w₀) σ) {e : Ev} {es : List Ev} (he : (e :: es) <:+ σ.world.past) :
    (∀ trigger, e.call = .propose trigger → e.op.creates = none) ∧
    (∀ preview trigger, e.call = .invest preview trigger → e.op.sells = false) ∧
    (e.op.sells = true →
      (∃ version, e.call = .approve version ∧ FoundLive e.who version es) ∨
        (e.call = .rebalanceNow ∧ FoundEnabled e.who es)) := by
  obtain ⟨-, ⟨hplace, -⟩, -⟩ := allowed_of_runs h₀ h he
  have hnone : ¬(e.op.creates.isSome = true) → e.op.creates = none := by
    intro hc
    simpa using hc
  refine ⟨?_, ?_, ?_⟩
  · intro trigger hcall
    refine hnone fun hc => ?_
    have hmay := hplace hc
    rw [hcall] at hmay
    exact hmay
  · intro preview trigger hcall
    by_cases hc : e.op.creates.isSome = true
    · have hmay := hplace hc
      rw [hcall] at hmay
      cases preview with
      | true => exact hmay.elim
      | false => exact hmay
    · exact Op.sells_creates (hnone hc)
  · intro hsells
    have hc : e.op.creates.isSome = true := by
      by_contra hc
      rw [Op.sells_creates (hnone hc)] at hsells
      cases hsells
    have hmay := hplace hc
    cases hcall : e.call with
    | invest preview trigger =>
      rw [hcall] at hmay
      cases preview with
      | true => exact hmay.elim
      | false =>
        have hno : e.op.sells = false := hmay
        rw [hno] at hsells
        cases hsells
    | propose trigger =>
      rw [hcall] at hmay
      exact hmay.elim
    | withdraw version =>
      rw [hcall] at hmay
      exact hmay.elim
    | approve version =>
      rw [hcall] at hmay
      obtain ⟨planned, d, hd, c, lines, before, after, rfl⟩ := hmay
      obtain ⟨ds, hds⟩ := suffix_of_mem hd
      -- What the decision read is what its transaction says.
      obtain ⟨-, -, hstep⟩ := allowed_of_runs h₀ h ((hds.trans (List.suffix_cons _ _)).trans he)
      rcases hstep with ⟨_, herr, -⟩ | ⟨a, db, hrun, hans, -⟩
      · cases herr
      · obtain rfl : (none, lines) = a := Except.ok.inj hans
        obtain ⟨p, hp, hlive, hv, -, hsame, -⟩ := decideApprove_through (decideApprove_run hrun)
        exact Or.inl ⟨version, rfl, c, planned, lines, before, after, p, hd, hp, hlive, hv, hsame⟩
    | rebalanceNow =>
      rw [hcall] at hmay
      obtain ⟨d, hd, c, lines, before, after, rfl⟩ := hmay
      obtain ⟨ds, hds⟩ := suffix_of_mem hd
      have hpast := (hds.trans (List.suffix_cons _ _)).trans he
      obtain ⟨-, -, hstep⟩ := allowed_of_runs h₀ h hpast
      have hlock : before.lock = some e.who := (permitted_of_runs h₀ h hpast).2.lock rfl
      rcases hstep with ⟨_, herr, -⟩ | ⟨a, db, hrun, hans, -⟩
      · cases herr
      · obtain rfl : (none, lines) = a := Except.ok.inj hans
        obtain ⟨s, hs, hauto, hpaused⟩ := decideRebalance_through (decideRebalance_run hrun)
        exact Or.inr ⟨rfl, c, lines, before, after, s, hd, hlock, hs, hauto, hpaused⟩

/-- A sell of an automatic rebalance. -/
theorem sells_authorised_rebalance : ∃ σ, Runs True (startOf (newUser true)) σ ∧
    ∃ e es, (e :: es) <:+ σ.world.past ∧ e.op.sells = true ∧
      ((∃ version, e.call = .approve version ∧ FoundLive e.who version es) ∨
        (e.call = .rebalanceNow ∧ FoundEnabled e.who es)) := by
  obtain ⟨σ, hσ, hc⟩ := reaches_of_replay program (krakenResponder True (marketOf "0" "1"))
    (startOf (newUser true)) (.spawn 0 .rebalanceNow :: acts 0 .accept 20)
    (fun σ => σ.world.past.any fun e => e.op.sells) (by decide +kernel)
  obtain ⟨e, he, hsells⟩ := List.any_eq_true.mp hc
  obtain ⟨es, hes⟩ := suffix_of_mem he
  exact ⟨σ, hσ, e, es, hes, hsells, (sells_authorised (fresh_newUser true) hσ hes).2.2 hsells⟩

end Coinpilot.Safety
