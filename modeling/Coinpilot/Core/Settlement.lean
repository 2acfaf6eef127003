import Coinpilot.Core.System

/-!
# Resolving what is still unknown

Before every evaluation each `PENDING` row is looked up: by its txid when it has one, by its client
id when it has none. An absence counts only once `ABSENCE_GRACE` has passed.
-/

set_option autoImplicit false

namespace Coinpilot.Core

open Coinpilot.Lib Coinpilot.Lib.Program Coinpilot.Exchange Coinpilot.Engine

structure Resolution where
  clear : Bool
  messages : List String
  lookupFailed : Bool
  deriving DecidableEq, Repr

/-- An absence read before the grace has passed. -/
def tooSoon (now attemptedAt : Int) : Option OrderLookup → Bool
  | some found => found.txid = none && now - attemptedAt < ABSENCE_GRACE
  | none => false

/-- Look one row up: by its txid if it has one. -/
def lookUp (o : Order) : Work (Option OrderLookup) :=
  match o.txid with
  | some txid => findOrderByTxid privateClient txid
  | none => findOrderByClOrdId privateClient o.clOrdId

/-- The loop over the rows still to resolve. -/
def resolveEach (now : Int) : List Order → Resolution → Work Resolution
  | [], r => return r
  | o :: rest, r => do
      let lookup ← lookUp o
      let r := if lookup = none then { r with lookupFailed := true } else r
      if tooSoon now o.attemptedAt lookup then
        resolveEach now rest { r with
          clear := false
          messages := r.messages ++
            ["order " ++ o.clOrdId ++ ": not listed yet; absence is believed after the grace period"] }
      else
        let status : OrderStatus ← transact (.settle o.clOrdId lookup)
        if status = .pending then
          resolveEach now rest { r with
            clear := false
            messages := r.messages ++ ["order " ++ o.clOrdId ++ ": still unresolved"] }
        else
          resolveEach now rest { r with
            messages := r.messages ++ ["order " ++ o.clOrdId ++ ": resolved as " ++ status.value] }

/-- Resolve every `PENDING` attempt. `clear` is false while any is unknown. -/
def resolvePending (now : Int) : Work Resolution := do
  let pending : List Order ← transact .pendingOrders
  resolveEach now pending ⟨true, [], false⟩

end Coinpilot.Core
