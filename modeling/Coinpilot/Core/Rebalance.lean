import Coinpilot.Core.Execution

/-!
# The rebalance operation and its proposal

`propose` computes the plan and keeps it as the user's one live proposal; `approve` executes it once
the user has read it; `rebalanceNow` is the scheduler's, for a user with automatic rebalancing on.
`handle` is the code of each call of a user.
-/

set_option autoImplicit false

namespace Coinpilot.Core

open Coinpilot.Lib Coinpilot.Lib.Program Coinpilot.Exchange Coinpilot.Engine

/-- What a call of the user gives. -/
inductive Outcome where
  | evaluated (result : EvaluationResult)
  | rebalanced (result : EvaluationResult) (proposal : Option Proposal)
  | withdrawn (done : Bool)
  deriving DecidableEq

/-- A rebalance's decision: one transaction, and what it logs. -/
def decideIn (t : Txn) (read : t.Ans → Option EvaluationStatus × List String) :
    Work (Option EvaluationStatus) := do
  let answer ← transact t
  logLines (read answer).2
  return (read answer).1

/-- Compute a rebalance and keep it as the live proposal. Never sends an order. -/
def propose (trigger : Trigger) : Work Outcome := do
  let proposalTrigger := if trigger = .scheduler then ProposalTrigger.scheduled else .manual
  let result ← evaluate true .rebalance
    (fun planned => decideIn (.decidePropose planned proposalTrigger) fun answer => answer) .propose trigger
  let current : Option Proposal ← transact .liveProposal
  return .rebalanced result current

/-- The decision of `approve`. An approval that goes through is noted. -/
def approving (version : Int) : Decision := fun planned => do
  let answer : Option EvaluationStatus × List String ← transact (.decideApprove version planned)
  if answer.1 = none then modifyLocals fun l => { l with executing := true }
  logLines answer.2
  return answer.1

/-- Close an approval that went through, even when the evaluation raised. -/
def closeApproval : Work Unit := do
  let l ← getLocals
  if l.executing then transact .setExecuted else return ()

/-- Execute the live proposal, if `version` is still it and its plan has not moved. -/
def approve (version : Int) : Work Outcome := do
  let slot : Option Proposal ← transact .liveProposal
  match slot with
  | none => throw .noProposal
  | some slot =>
      if slot.version ≠ version then throw (.staleVersion slot)
      else
        let result ← tryFinally
          (evaluate true .rebalance (approving version) .approve .api) closeApproval
        let current : Option Proposal ← transact .liveProposal
        return .rebalanced result current

/-- Execute a rebalance without an approval. -/
def rebalanceNow : Work EvaluationResult :=
  evaluate true .rebalance (fun _ => decideIn .decideRebalance fun answer => answer) .rebalance .scheduler

/-- The code of each call. -/
def handle : Request → Work Outcome
  | .invest preview trigger => do return .evaluated (← invest preview trigger)
  | .propose trigger => propose trigger
  | .approve version => approve version
  | .rebalanceNow => do return .evaluated (← rebalanceNow)
  | .withdraw version => do
      let done : Bool ← transact (.withdraw version)
      return .withdrawn done

/-- The program of each call. -/
def program (r : Request) : Prog Op Ans (Except Exn Outcome × Locals) := (handle r).exec {}

end Coinpilot.Core
