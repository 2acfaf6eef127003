import Coinpilot.Core.Db.Models

/-!
# The proposal slot

One row per user, and the status says what is in the slot. The version arrives decided.
-/

set_option autoImplicit false

namespace Coinpilot.Core

/-- The proposal only while it is live. -/
def getLiveProposal (slot : Option Proposal) : Option Proposal :=
  slot.filter fun p => p.status = .live

/-- Write this user's proposal, reusing the slot if one is already there. -/
def saveProposal (plan : Document) (trigger : ProposalTrigger) (version : Int) : Option Proposal :=
  some { version, plan, trigger, status := .live }

def setStatus (slot : Option Proposal) (status : ProposalStatus) : Option Proposal :=
  slot.map fun p => { p with status }

/-- Returns the slot and whether there was a proposal to withdraw. -/
def withdrawSlot (slot : Option Proposal) : Option Proposal × Bool :=
  (setStatus slot .withdrawn, slot.isSome)

@[simp] theorem getLiveProposal_some {slot : Option Proposal} {p : Proposal} :
    getLiveProposal slot = some p ↔ slot = some p ∧ p.status = .live := by
  simp [getLiveProposal, Option.filter_eq_some_iff]

theorem getLiveProposal_none {slot : Option Proposal} :
    getLiveProposal slot = none ↔ ∀ p, slot = some p → p.status ≠ .live := by
  simp [getLiveProposal, Option.filter_eq_none_iff]

end Coinpilot.Core
