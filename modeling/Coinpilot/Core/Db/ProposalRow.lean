import Coinpilot.Core.Transactions
import Coinpilot.Core.Cadence
import Coinpilot.Lib.ReadCommitted

/-!
# The proposal slot, statement by statement

`withdraw` locks the row of the slot before it looks at it. The decision of `approve` reads the row without a
lock, and a session writes only the columns that it changed from what it loaded (`flush`), so what another
transaction commits in between is overwritten column by column. A row that a session has loaded stays as it
was loaded: a later query of the same session answers the same object.

With nothing beside them, both do to the slot what one transaction does (`decide_alone`, `withdraw_alone`).
-/

set_option autoImplicit false

namespace Coinpilot.Core.ProposalRow

open Coinpilot.Lib Coinpilot.Lib.Program Coinpilot.Lib.ReadCommitted

/-- The code of a session on the table `proposal`, one row for each user. -/
abbrev ProposalWork : Type → Type := Proc (Stmt UserId Proposal) Reply Unit Exn

/-- `row`, with the columns that differ between `loaded` and `new` as `new` has them. -/
def changeColumns (loaded new row : Proposal) : Proposal where
  version := if new.version = loaded.version then row.version else new.version
  plan := if new.plan = loaded.plan then row.plan else new.plan
  trigger := if new.trigger = loaded.trigger then row.trigger else new.trigger
  status := if new.status = loaded.status then row.status else new.status

/-- `session.flush()`: the `UPDATE` of the columns that were changed, if any was. -/
def flush (userId : UserId) (loaded new : Proposal) : ProposalWork Unit :=
  if new = loaded then return ()
  else do
    if ← updateRow userId (changeColumns loaded new) then return () else throw .database

/-- `_keep`, where the session has loaded the slot. Returns the lines it logs. -/
def keepRow (userId : UserId) (slot : Proposal) (document : Document) (trigger : ProposalTrigger) :
    ProposalWork (List String) := do
  let (new, lines) ← fromExcept (fromPython (keep (some slot) document trigger))
  flush userId slot (new.getD slot)
  return lines

/-- `withdraw`. Raises on another version than the one read. -/
def withdraw (userId : UserId) (version : Int) : ProposalWork Bool := do
  match ← lockRow userId with
  | none => return false
  | some slot =>
      if slot.status ≠ .live then return false
      else if slot.version ≠ version then throw (.staleVersion slot)
      else do
        flush userId slot { slot with status := .withdrawn }
        return true

/-- The first look of `approve`, before anything is read from Kraken. -/
def checkVersion (userId : UserId) (version : Int) : ProposalWork Unit := do
  let rows ← select
  match getLiveProposal (rows userId) with
  | none => throw .noProposal
  | some slot => if slot.version ≠ version then throw (.staleVersion slot) else return ()

/-- `approve.decide`. It lets the plan through with `none`. -/
def decide (userId : UserId) (version : Int) (document : Document) :
    ProposalWork (Option EvaluationStatus × List String) := do
  let rows ← select
  match getLiveProposal (rows userId) with
  | none =>
      return (some .superseded, ["the proposal changed before it could execute; nothing was sent"])
  | some slot =>
      if slot.version ≠ version then
        return (some .superseded, ["the proposal changed before it could execute; nothing was sent"])
      else if !hasOrders document then do
        let lines ← keepRow userId slot document slot.trigger
        return (some .superseded, lines)
      else if ← fromExcept (fromPython (isMaterial slot.plan document)) then do
        let lines ← keepRow userId slot document slot.trigger
        return (some .superseded, lines ++ ["the plan changed since it was proposed; nothing was sent"])
      else do
        -- `save_proposal` flushes the plan, and `set_status` the status
        let saved : Proposal := { version, plan := document, trigger := slot.trigger, status := .live }
        flush userId slot saved
        flush userId saved { saved with status := .executing }
        return (none, ["proposal version " ++ toString version ++ " approved; executing"])

/-- `set_status(EXECUTED)`. -/
def setExecuted (userId : UserId) : ProposalWork Unit := do
  let rows ← select
  match rows userId with
  | none => return ()
  | some slot => flush userId slot { slot with status := .executed }

/-- `current`. -/
def current (userId : UserId) : ProposalWork (Option Proposal) := do
  let rows ← select
  return getLiveProposal (rows userId)

/-- What the evaluation of an approval brings under the user's lock: the plan it asks to decide on, if it
gets there, and what it raises in the end, if it does. -/
structure Evaluated where
  document : Option Document
  raised : Option Exn
  deriving DecidableEq

/-- What a call gives. `executed` says that the plan was let through, and so was sent. -/
inductive SlotOutcome where
  | withdrawn (done : Bool)
  | rebalanced (executed : Bool) (proposal : Option Proposal)
  deriving DecidableEq

/-- The transaction in which an evaluation decides, if it gets there: whether the plan is let through. -/
def decided (userId : UserId) (version : Int) : Option Document → ProposalWork Bool
  | none => return false
  | some document => do
      let answer ← transaction (decide userId version document)
      return answer.1.isNone

/-- What closes an approval that was let through, even when its evaluation raised. -/
def closed (userId : UserId) (executing : Bool) : ProposalWork Unit :=
  if executing then transaction (setExecuted userId) else return ()

/-- `approve`. -/
def approve (userId : UserId) (version : Int) (evaluated : Evaluated) : ProposalWork SlotOutcome := do
  transaction (checkVersion userId version)
  let executing ← decided userId version evaluated.document
  -- here the evaluation of a plan that was let through sends its orders
  closed userId executing
  match evaluated.raised with
  | some e => throw e
  | none => return .rebalanced executing (← transaction (current userId))

inductive SlotCall where
  | withdraw (userId : UserId) (version : Int)
  | approve (userId : UserId) (version : Int) (evaluated : Evaluated)
  deriving DecidableEq

def slotWork : SlotCall → ProposalWork SlotOutcome
  | .withdraw userId version => do return .withdrawn (← transaction (withdraw userId version))
  | .approve userId version evaluated => approve userId version evaluated

def slotCode (call : SlotCall) : Prog (Stmt UserId Proposal) Reply (Except Exn SlotOutcome × Unit) :=
  (slotWork call).exec ()

/-! ## With nothing beside them -/

section Alone

variable (userId : UserId) (rows : Rows UserId Proposal)

@[simp] theorem changeColumns_same (loaded new : Proposal) : changeColumns loaded new loaded = new := by
  cases new
  simp only [changeColumns, Proposal.mk.injEq]
  refine ⟨?_, ?_, ?_, ?_⟩ <;> split <;> simp_all

theorem alone_flush {loaded new : Proposal} {committed view : Rows UserId Proposal}
    (h : view userId = some loaded) :
    alone ((flush userId loaded new).exec ()) committed view =
      ((.ok (), ()), committed, Function.update view userId (some new)) := by
  rw [flush]
  split
  · rename_i hsame
    rw [hsame, ← h, Function.update_eq_self]
    rfl
  · rw [alone_bind, alone_updateRow, h]
    simp

theorem alone_fromExcept {α : Type} (x : Except Exn α) (committed view : Rows UserId Proposal) :
    alone ((fromExcept x : ProposalWork α).exec ()) committed view = ((x, ()), committed, view) := by
  cases x with
  | error e => rfl
  | ok a => rfl

/-- A slot that is there stays there. -/
theorem keep_some {slot : Proposal} {new : Option Proposal} {document : Document}
    {trigger : ProposalTrigger} {lines : List String}
    (h : keep (some slot) document trigger = .ok (new, lines)) : ∃ p, new = some p := by
  obtain ⟨p, hp, -⟩ := (keep_ok h).1 slot rfl
  exact ⟨p, hp⟩

theorem alone_keepRow {slot : Proposal} {committed view : Rows UserId Proposal} (h : view userId = some slot)
    (document : Document) (trigger : ProposalTrigger) :
    alone ((keepRow userId slot document trigger).exec ()) committed view =
      match keep (some slot) document trigger with
      | .ok (new, lines) => ((.ok lines, ()), committed, Function.update view userId new)
      | .error e => ((.error (.python e), ()), committed, view) := by
  rw [keepRow, alone_bind, alone_fromExcept]
  cases hkeep : keep (some slot) document trigger with
  | error e => rfl
  | ok kept =>
    obtain ⟨new, lines⟩ := kept
    obtain ⟨p, rfl⟩ := keep_some hkeep
    dsimp only [fromPython]
    rw [alone_bind, Option.getD_some, alone_flush userId h]
    rfl

/-- The decision, with nothing beside it. -/
theorem decide_alone (version : Int) (document : Document) :
    alone ((decide userId version document).exec ()) rows rows =
      match decideApprove (rows userId) version document with
      | .ok (verdict, slot, lines) => ((.ok (verdict, lines), ()), rows, Function.update rows userId slot)
      | .error e => ((.error (.python e), ()), rows, rows) := by
  have hsame : Function.update rows userId (rows userId) = rows := Function.update_eq_self userId rows
  rw [decide, alone_bind, alone_select, decideApprove]
  dsimp only
  cases hlive : getLiveProposal (rows userId) with
  | none =>
    rw [alone_pure]
    simp [Function.update_eq_self]
  | some p =>
    obtain ⟨hslot, -⟩ := getLiveProposal_some.mp hlive
    rw [hslot] at hsame ⊢
    dsimp only
    split
    · rw [alone_pure]
      simp [hsame, pure, Except.pure]
    · split
      · rw [alone_bind, alone_keepRow userId hslot]
        cases keep (some p) document p.trigger with
        | error e => rfl
        | ok kept => rfl
      · rw [alone_bind, alone_fromExcept]
        cases isMaterial p.plan document with
        | error e => rfl
        | ok material =>
          cases material with
          | true =>
            dsimp only [fromPython]
            rw [if_pos rfl, alone_bind, alone_keepRow userId hslot]
            cases keep (some p) document p.trigger with
            | error e => rfl
            | ok kept => rfl
          | false =>
            dsimp only [fromPython]
            rw [if_neg Bool.false_ne_true, alone_bind, alone_flush userId hslot]
            dsimp only
            rw [alone_bind, alone_flush userId (Function.update_self _ _ _), Function.update_idem]
            rfl

theorem withdraw_alone (version : Int) :
    alone ((withdraw userId version).exec ()) rows rows =
      match withdrawVersion (rows userId) version with
      | .ok (done, slot) => ((.ok done, ()), rows, Function.update rows userId slot)
      | .error e => ((.error e, ()), rows, rows) := by
  have hsame : Function.update rows userId (rows userId) = rows := Function.update_eq_self userId rows
  rw [withdraw, alone_bind, alone_lockRow, withdrawVersion]
  cases hslot : rows userId with
  | none =>
    rw [hslot] at hsame
    simp [getLiveProposal, hsame]
  | some p =>
    rw [hslot] at hsame
    dsimp only
    by_cases hlive : p.status = .live
    · rw [getLiveProposal_some.mpr ⟨rfl, hlive⟩, if_neg (not_not_intro hlive)]
      dsimp only
      split
      · rfl
      · rw [alone_bind, alone_flush userId hslot]
        rfl
    · rw [if_pos hlive, getLiveProposal_none.mpr (by simpa using hlive)]
      dsimp only
      rw [hsame]
      rfl

end Alone

end Coinpilot.Core.ProposalRow
