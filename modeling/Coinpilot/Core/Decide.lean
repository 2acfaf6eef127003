import Coinpilot.Core.ProposalPlan
import Coinpilot.Core.Db.Proposals

/-!
# What the proposal slot becomes

The decisions of a rebalance that are made in one transaction: what a fresh plan does to the slot
(`keep`), whether an approval goes through (`decideApprove`), whether the scheduler may rebalance on
its own (`decideRebalance`), and a withdrawal. Each returns the slot and the lines it logs.

Every one of them moves a slot forward (`Advances`): the version never goes back, and a plan that is
live under a version was live under it before, unchanged.
-/

set_option autoImplicit false

namespace Coinpilot.Core

open Coinpilot.Lib Coinpilot.Exchange Coinpilot.Engine

/-- Why a plan has nothing to send, and what is logged of the legs that are skipped. -/
def whyNothing (document : Document) : String × List String :=
  let skipped := document.legs.filterMap fun leg => leg.note.map fun note => (leg, note)
  if skipped.isEmpty then ("the drift is below the threshold", [])
  else ("no order can be sent", skipped.map fun (leg, note) =>
    leg.asset ++ ": " ++ leg.side ++ " skipped, " ++ note)

/-- Keep `document` as the live proposal, or withdraw the proposal when it is empty. -/
def keep (slot : Option Proposal) (document : Document) (trigger : ProposalTrigger) :
    Except PyError (Option Proposal × List String) :=
  let live := getLiveProposal slot
  if !hasOrders document then
    let (reason, lines) := whyNothing document
    match live with
    | some _ => .ok ((withdrawSlot slot).1, lines ++ [reason ++ "; the proposal was withdrawn"])
    | none => .ok (slot, lines ++ [reason ++ "; nothing to propose"])
  else
    let version := match slot with
      | none => 1
      | some p => p.version + 1
    let saved := (saveProposal document trigger version, ["proposal version " ++ toString version])
    match live with
    | none => .ok saved
    | some p => do
        if ← isMaterial p.plan document then return saved
        else return (slot, ["proposal version " ++ toString p.version ++ " still stands"])

/-- The decision of a proposal. -/
def decidePropose (slot : Option Proposal) (document : Document) (trigger : ProposalTrigger) :
    Except PyError (Option EvaluationStatus × Option Proposal × List String) := do
  let (slot, lines) ← keep slot document trigger
  return (some (if hasOrders document then .proposed else .nothingToDo), slot, lines)

/-- The decision of an approval of `version`. It lets the plan through with `none`. -/
def decideApprove (slot : Option Proposal) (version : Int) (document : Document) :
    Except PyError (Option EvaluationStatus × Option Proposal × List String) :=
  match getLiveProposal slot with
  | none =>
      .ok (some .superseded, slot,
        ["the proposal changed before it could execute; nothing was sent"])
  | some p => do
      if p.version ≠ version then
        return (some .superseded, slot,
          ["the proposal changed before it could execute; nothing was sent"])
      else if !hasOrders document then
        let (slot, lines) ← keep slot document p.trigger
        return (some .superseded, slot, lines)
      else if ← isMaterial p.plan document then
        let (slot, lines) ← keep slot document p.trigger
        return (some .superseded, slot,
          lines ++ ["the plan changed since it was proposed; nothing was sent"])
      else
        return (none, setStatus (saveProposal document p.trigger version) .executing,
          ["proposal version " ++ toString version ++ " approved; executing"])

/-- The decision of an automatic rebalance. -/
def decideRebalance (settings : Option UserSettings) (slot : Option Proposal) :
    Option EvaluationStatus × Option Proposal × List String :=
  match settings.filter UserSettings.autoRebalanceEnabled with
  | none =>
      (some .nothingToDo, slot, ["automatic rebalancing was switched off; nothing was sent"])
  | some s =>
      if s.paused then
        (some .nothingToDo, slot, ["scheduled operations are paused; nothing was sent"])
      else
        match getLiveProposal slot with
        | none => (none, slot, [])
        | some p => (none, (withdrawSlot slot).1,
            ["automatic rebalancing is on; proposal version " ++ toString p.version ++ " was withdrawn"])

/-- Withdraw `version`. An executed one is not withdrawn. -/
def withdrawVersion (slot : Option Proposal) (version : Int) : Except Exn (Bool × Option Proposal) :=
  match getLiveProposal slot with
  | none => .ok (false, slot)
  | some p =>
      if p.version ≠ version then .error (.staleVersion p)
      else .ok ((withdrawSlot slot).2, (withdrawSlot slot).1)

/-! ## The slot moves forward -/

/-- `q` may follow `p` in one slot: a later version, or the same version, live only if it was live
with this plan. -/
def Follows (p q : Proposal) : Prop :=
  p.version < q.version ∨
    (p.version = q.version ∧ (q.status = .live → p.status = .live ∧ q.plan = p.plan))

/-- A slot that is filled stays filled and moves forward. -/
def Advances (slot slot' : Option Proposal) : Prop :=
  ∀ p, slot = some p → ∃ q, slot' = some q ∧ Follows p q

theorem Follows.refl (p : Proposal) : Follows p p := Or.inr ⟨rfl, fun h => ⟨h, rfl⟩⟩

theorem Follows.trans {p q r : Proposal} (h : Follows p q) (h' : Follows q r) : Follows p r := by
  rcases h with h | ⟨he, hl⟩
  · rcases h' with h' | ⟨he', -⟩
    · exact Or.inl (h.trans h')
    · exact Or.inl (he' ▸ h)
  · rcases h' with h' | ⟨he', hl'⟩
    · exact Or.inl (he ▸ h')
    · refine Or.inr ⟨he.trans he', fun hr => ?_⟩
      obtain ⟨hq, hplan⟩ := hl' hr
      obtain ⟨hp, hplan'⟩ := hl hq
      exact ⟨hp, hplan.trans hplan'⟩

theorem Advances.refl (slot : Option Proposal) : Advances slot slot := fun p hp => ⟨p, hp, .refl p⟩

theorem Advances.trans {a b c : Option Proposal} (h : Advances a b) (h' : Advances b c) :
    Advances a c := by
  intro p hp
  obtain ⟨q, hq, hf⟩ := h p hp
  obtain ⟨r, hr, hf'⟩ := h' q hq
  exact ⟨r, hr, hf.trans hf'⟩

/-- Leaving a status other than live behind moves forward. -/
theorem advances_setStatus (slot : Option Proposal) {s : ProposalStatus} (hs : s ≠ .live) :
    Advances slot (setStatus slot s) := by
  rintro p rfl
  exact ⟨_, rfl, Or.inr ⟨rfl, fun h => absurd h hs⟩⟩

theorem advances_next (slot : Option Proposal) (document : Document) (trigger : ProposalTrigger) :
    Advances slot (saveProposal document trigger (match slot with
      | none => 1
      | some p => p.version + 1)) := by
  rintro p rfl
  exact ⟨_, rfl, Or.inl (Int.lt_succ p.version)⟩

/-- What `keep` leaves in the slot: live with orders, not live without, and moved forward. -/
theorem keep_ok {slot slot' : Option Proposal} {document : Document} {trigger : ProposalTrigger}
    {lines : List String} (h : keep slot document trigger = .ok (slot', lines)) :
    Advances slot slot' ∧
      ((getLiveProposal slot').isSome ↔ hasOrders document = true) ∧
      (slot' = slot ∨ slot' = setStatus slot .withdrawn ∨
        ∃ version, slot' = saveProposal document trigger version) := by
  unfold keep at h
  dsimp only at h
  cases ho : hasOrders document with
  | false =>
    simp only [ho, Bool.not_false, if_true] at h
    cases hl : getLiveProposal slot with
    | none =>
      rw [hl] at h
      obtain ⟨rfl, -⟩ := Prod.mk.inj (Except.ok.inj h)
      exact ⟨.refl slot, by simp [hl], Or.inl rfl⟩
    | some p =>
      rw [hl] at h
      obtain ⟨rfl, -⟩ := Prod.mk.inj (Except.ok.inj h)
      refine ⟨advances_setStatus slot (by decide), ?_, Or.inr (Or.inl rfl)⟩
      cases slot <;> simp [withdrawSlot, setStatus, getLiveProposal]
  | true =>
    simp only [ho, Bool.not_true, Bool.false_eq_true, if_false] at h
    have hlive : ∀ version, (getLiveProposal (saveProposal document trigger version)).isSome := by
      intro version
      simp [getLiveProposal, saveProposal]
    cases hl : getLiveProposal slot with
    | none =>
      rw [hl] at h
      obtain ⟨rfl, -⟩ := Prod.mk.inj (Except.ok.inj h)
      exact ⟨advances_next slot document trigger, by simp [hlive], Or.inr (Or.inr ⟨_, rfl⟩)⟩
    | some p =>
      rw [hl] at h
      cases hm : isMaterial p.plan document with
      | error e => simp [hm, bind, Except.bind] at h
      | ok b =>
        cases b with
        | true =>
          simp only [hm, bind, Except.bind, if_true] at h
          obtain ⟨rfl, -⟩ := Prod.mk.inj (Except.ok.inj h)
          exact ⟨advances_next slot document trigger, by simp [hlive], Or.inr (Or.inr ⟨_, rfl⟩)⟩
        | false =>
          simp only [hm, bind, Except.bind, Bool.false_eq_true, if_false] at h
          obtain ⟨rfl, -⟩ := Prod.mk.inj (Except.ok.inj h)
          exact ⟨.refl slot, by simp [hl], Or.inl rfl⟩

/-- An approval that goes through: the version was live, and the plan not materially different. -/
theorem decideApprove_through {slot slot' : Option Proposal} {version : Int} {document : Document}
    {lines : List String} (h : decideApprove slot version document = .ok (none, slot', lines)) :
    ∃ p, slot = some p ∧ p.status = .live ∧ p.version = version ∧ hasOrders document = true ∧
      isMaterial p.plan document = .ok false ∧
      slot' = some { version, plan := document, trigger := p.trigger, status := .executing } := by
  unfold decideApprove at h
  cases hl : getLiveProposal slot with
  | none => rw [hl] at h; cases h
  | some p =>
    rw [hl] at h
    dsimp only at h
    obtain ⟨hs, hp⟩ := getLiveProposal_some.mp hl
    split at h
    · cases h
    · rename_i hv
      split at h
      · cases hk : keep slot document p.trigger with
        | error e => rw [hk] at h; cases h
        | ok r => rw [hk] at h; cases h
      · rename_i ho
        cases hm : isMaterial p.plan document with
        | error e => rw [hm] at h; cases h
        | ok b =>
          cases b with
          | true =>
            simp only [hm, bind, Except.bind, if_true] at h
            cases hk : keep slot document p.trigger with
            | error e => rw [hk] at h; cases h
            | ok r => rw [hk] at h; cases h
          | false =>
            simp only [hm, bind, Except.bind, Bool.false_eq_true, if_false] at h
            cases h
            exact ⟨p, hs, hp, not_ne_iff.mp hv, by simpa using ho, hm, rfl⟩

/-- An approval that does not go through leaves the slot as `keep` does, or as it was. -/
theorem decideApprove_superseded {slot slot' : Option Proposal} {version : Int} {document : Document}
    {lines : List String} {s : EvaluationStatus}
    (h : decideApprove slot version document = .ok (some s, slot', lines)) :
    s = .superseded ∧ (slot' = slot ∨ ∃ trigger lines', keep slot document trigger = .ok (slot', lines')) := by
  unfold decideApprove at h
  cases hl : getLiveProposal slot with
  | none =>
    rw [hl] at h
    cases h
    exact ⟨rfl, Or.inl rfl⟩
  | some p =>
    rw [hl] at h
    dsimp only at h
    split at h
    · cases h
      exact ⟨rfl, Or.inl rfl⟩
    · split at h
      · cases hk : keep slot document p.trigger with
        | error e => rw [hk] at h; cases h
        | ok r =>
          rw [hk] at h
          cases h
          exact ⟨rfl, Or.inr ⟨p.trigger, _, hk⟩⟩
      · cases hm : isMaterial p.plan document with
        | error e => rw [hm] at h; cases h
        | ok b =>
          cases b with
          | true =>
            simp only [hm, bind, Except.bind, if_true] at h
            cases hk : keep slot document p.trigger with
            | error e => rw [hk] at h; cases h
            | ok r =>
              rw [hk] at h
              cases h
              exact ⟨rfl, Or.inr ⟨p.trigger, _, hk⟩⟩
          | false =>
            simp only [hm, bind, Except.bind, Bool.false_eq_true, if_false] at h
            cases h

theorem advances_decideApprove {slot slot' : Option Proposal} {version : Int} {document : Document}
    {r : Option EvaluationStatus} {lines : List String}
    (h : decideApprove slot version document = .ok (r, slot', lines)) : Advances slot slot' := by
  cases r with
  | none =>
    obtain ⟨p, rfl, -, hv, -, -, rfl⟩ := decideApprove_through h
    rintro p' hp'
    obtain rfl := Option.some.inj hp'
    exact ⟨_, rfl, Or.inr ⟨hv, fun hl => by cases hl⟩⟩
  | some s =>
    rcases (decideApprove_superseded h).2 with rfl | ⟨trigger, lines', hk⟩
    · exact .refl slot'
    · exact (keep_ok hk).1

/-- An automatic rebalance that goes through read it enabled and not paused. -/
theorem decideRebalance_through {settings : Option UserSettings} {slot slot' : Option Proposal}
    {lines : List String} (h : decideRebalance settings slot = (none, slot', lines)) :
    ∃ s, settings = some s ∧ s.autoRebalanceEnabled = true ∧ s.paused = false := by
  unfold decideRebalance at h
  split at h
  · cases h
  · rename_i s hs
    obtain ⟨hs, ha⟩ := Option.filter_eq_some_iff.mp hs
    split at h
    · cases h
    · rename_i hp
      exact ⟨s, hs, ha, by simpa using hp⟩

/-- An automatic rebalance that does not go through does nothing. -/
theorem decideRebalance_status {settings : Option UserSettings} {slot : Option Proposal}
    {s : EvaluationStatus} (h : (decideRebalance settings slot).1 = some s) : s = .nothingToDo := by
  unfold decideRebalance at h
  split at h
  · cases h
    rfl
  · split at h
    · cases h
      rfl
    · split at h <;> cases h

/-- An automatic rebalance leaves the slot, or withdraws what is in it. -/
theorem decideRebalance_slot (settings : Option UserSettings) (slot : Option Proposal) :
    (decideRebalance settings slot).2.1 = slot ∨
      (decideRebalance settings slot).2.1 = setStatus slot .withdrawn := by
  unfold decideRebalance
  split
  · exact Or.inl rfl
  · split
    · exact Or.inl rfl
    · split
      · exact Or.inl rfl
      · exact Or.inr rfl

theorem advances_decideRebalance (settings : Option UserSettings) (slot : Option Proposal) :
    Advances slot (decideRebalance settings slot).2.1 := by
  rcases decideRebalance_slot settings slot with h | h
  · rw [h]
    exact .refl slot
  · rw [h]
    exact advances_setStatus slot (by decide)

/-- A withdrawal leaves the slot, or withdraws the version it names. -/
theorem withdrawVersion_ok {slot slot' : Option Proposal} {version : Int} {b : Bool}
    (h : withdrawVersion slot version = .ok (b, slot')) :
    (b = false ∧ slot' = slot) ∨
      (b = true ∧ slot' = setStatus slot .withdrawn ∧
        ∃ p, slot = some p ∧ p.status = .live ∧ p.version = version) := by
  unfold withdrawVersion at h
  split at h
  · cases h
    exact Or.inl ⟨rfl, rfl⟩
  · rename_i p hl
    obtain ⟨hs, hp⟩ := getLiveProposal_some.mp hl
    split at h
    · cases h
    · rename_i hv
      cases h
      exact Or.inr ⟨by simp [withdrawSlot, hs], rfl, p, hs, hp, not_ne_iff.mp hv⟩

end Coinpilot.Core
