import Coinpilot.Core.Settlement
import Coinpilot.Exchange.Answers
import Coinpilot.Lib.Replay

/-!
# Resolving against given answers

Every call of a key ends as given, and transactions run. `lookedUp` is what the lookup of a
row then gives, `turnOf` what its turn leaves, and the rows take their turns in order
(`resolved_cons`). The world may answer so (`respond_answered`).
-/

set_option autoImplicit false

namespace Coinpilot.Core

open Coinpilot.Lib Coinpilot.Lib.Program Coinpilot.Exchange Coinpilot.Engine

/-! ## Runs against given answers -/

/-- A world in which every call ends as given, and transactions run. -/
def respond (replies : Replies) : (o : Op) → World → Ans o × World
  | .post r, w => (replies r, w)
  | .tx t, w =>
      match t.run w.clock w.db with
      | .ok (a, db) => (.ok a, { w with db })
      | .error e => (.error e, w)
  | .now, w => (w.clock, w)
  | .newUuid, w => ("", w)
  | .unseal _, w => (.ok (), w)
  | .assetNames, w => (.ok none, w)
  | .assetPairs, w => (.ok none, w)
  | .ticker _, w => (.ok none, w)
  | .assetDecimals, w => (.ok none, w)
  | .tryLock, w => (.error .database, w)
  | .unlock, w => (.error .database, w)

/-- The world may answer so, with a Kraken that need not be honest. -/
theorem respond_answered (replies : Replies) (i : Nat) (o : Op) (w : World) :
    answered False i o w (respond replies o w).1 (respond replies o w).2 := by
  cases o with
  | post r => exact ⟨w.remote, rfl, False.elim⟩
  | tx t =>
    simp only [answered, transacted, respond]
    cases hrun : t.run w.clock w.db with
    | ok r => exact Or.inr ⟨r.1, r.2, rfl, rfl, rfl⟩
    | error e => exact Or.inl ⟨e, rfl, Or.inr rfl, rfl⟩
  | now => exact ⟨rfl, rfl⟩
  | tryLock => exact Or.inr ⟨Or.inr ⟨_, rfl⟩, rfl⟩
  | unlock => exact Or.inr ⟨⟨_, rfl⟩, rfl⟩
  | _ => rfl

/-- Alone in such a world, a program runs as it may run in the system. -/
theorem play_respond_runsAlone {α : Type} (replies : Replies) (i : Nat) (c : Request) (p : Prog Op Ans α)
    (w : World) : RunsAlone (system False) i c p w (p.play (respond replies) w).1
      (p.play (respond replies) w).2 :=
  play_runsAlone _ (fun o w => respond_answered replies i o w) p w

/-- What the lookup of a row gives. -/
def lookedUp (replies : Replies) (row : Order) : Except PyError (Option OrderLookup) :=
  match row.txid with
  | some txid => findOrderByTxid (replying replies) txid
  | none => findOrderByClOrdId (replying replies) row.clOrdId

section Lookups

variable (replies : Replies) (locals : Locals) (w : World)

theorem play_read {α : Type} (r : PrivateCall) (reader : HttpOutcome → Except PyError α) :
    Proc.play (respond replies) (KrakenClient.read privateClient r reader) locals w =
      (((reader (replies r)).mapError Exn.python, locals), w) := by
  have hpost : (privateClient.post r).play (respond replies) locals w = ((.ok (replies r), locals), w) := rfl
  rw [KrakenClient.read, proc_play_bind_ok _ hpost]
  cases reader (replies r) with
  | ok a => rfl
  | error e => rfl

/-- One endpoint more to ask. -/
theorem play_findIn_cons {replies : Replies} {locals : Locals} {w : World} {clOrdId : String} {fetch : String → Work (Option Json)}
    {fetch' : String → Except PyError (Option Json)} {rest : List (String → Work (Option Json))}
    {rest' : List (String → Except PyError (Option Json))}
    (hfetch : Proc.play (respond replies) (fetch clOrdId) locals w =
      (((fetch' clOrdId).mapError Exn.python, locals), w))
    (hrest : ∀ unresolved, Proc.play (respond replies) (findIn privateClient clOrdId rest unresolved) locals w =
      (((findIn (replying replies) clOrdId rest' unresolved).mapError Exn.python, locals), w))
    (unresolved : Bool) :
    Proc.play (respond replies) (findIn privateClient clOrdId (fetch :: rest) unresolved) locals w =
      (((findIn (replying replies) clOrdId (fetch' :: rest') unresolved).mapError Exn.python, locals), w) := by
  rw [findIn, findIn]
  cases hread : fetch' clOrdId with
  | error e =>
    rw [hread] at hfetch
    rw [proc_play_bind_error _ hfetch]
    rfl
  | ok orders =>
    rw [hread] at hfetch
    rw [proc_play_bind_ok _ hfetch]
    simp only [bind, Except.bind]
    cases hsight : sight clOrdId orders with
    | error e => rfl
    | ok seen =>
      cases seen with
      | unresolved => exact hrest true
      | notHere => exact hrest unresolved
      | found order => rfl

/-- Against given answers, a row is looked up as the answers say, and nothing else happens. -/
theorem play_lookUp (row : Order) :
    Proc.play (respond replies) (lookUp row) locals w =
      (((lookedUp replies row).mapError Exn.python, locals), w) := by
  rw [lookUp, lookedUp]
  cases row.txid with
  | some txid =>
    dsimp only
    rw [findOrderByTxid, findOrderByTxid, queryOrders, queryOrders, read_replying]
    have hread := play_read replies locals w (.queryOrders txid) readQueried
    cases hqueried : readQueried (replies (.queryOrders txid)) with
    | error e =>
      rw [hqueried] at hread
      rw [proc_play_bind_error _ hread]
      rfl
    | ok orders =>
      rw [hqueried] at hread
      rw [proc_play_bind_ok _ hread]
      simp only [bind, Except.bind]
      cases pickQueried txid orders with
      | ok found => rfl
      | error e => rfl
  | none =>
    refine play_findIn_cons ?_ (play_findIn_cons ?_ fun unresolved => ?_) false
    · rw [openOrders, openOrders, read_replying]
      exact play_read _ _ _ _ _
    · rw [closedOrders, closedOrders, read_replying]
      exact play_read _ _ _ _ _
    · rfl

end Lookups
/-! ## The turn of one row -/

section Turn

variable (replies : Replies) (now : Int) (row : Order) (w : World)

/-- What the turn of a row leaves, unless it raises. -/
def turnOf : Except Exn World :=
  match lookedUp replies row with
  | .error e => .error (.python e)
  | .ok found =>
      if tooSoon now row.attemptedAt found then .ok w
      else
        match settle w.db.ledger row.clOrdId found with
        | .error e => .error e
        | .ok (_, ledger) => .ok { w with db := { w.db with ledger } }

/-- What resolving some rows leaves. -/
def resolved (rows : List Order) (r : Resolution) (locals : Locals) : World :=
  (Proc.play (respond replies) (resolveEach now rows r) locals w).2

/-- The rows take their turns in order, until one raises. -/
theorem resolved_cons (rest : List Order) (r : Resolution) (locals : Locals) :
    ∃ r', resolved replies now w (row :: rest) r locals =
      match turnOf replies now row w with
      | .ok w' => resolved replies now w' rest r' locals
      | .error _ => w := by
  rw [resolved, resolveEach, turnOf]
  have hlook := play_lookUp replies locals w row
  cases hfound : lookedUp replies row with
  | error e =>
    rw [hfound] at hlook
    rw [proc_play_bind_error _ hlook]
    exact ⟨r, rfl⟩
  | ok found =>
    rw [hfound] at hlook
    rw [proc_play_bind_ok _ hlook]
    dsimp only
    by_cases hsoon : tooSoon now row.attemptedAt found = true
    · rw [if_pos hsoon, if_pos hsoon]
      exact ⟨_, rfl⟩
    · rw [if_neg hsoon, if_neg hsoon]
      have hsettle := proc_play_attempt (ε := Exn) (L := Locals) (respond replies)
        (o := .tx (.settle row.clOrdId found)) (e := fun b => b) (l := locals) (w := w)
      simp only [respond, Txn.run, bind, Except.bind] at hsettle
      cases hrun : settle w.db.ledger row.clOrdId found with
      | error e =>
        rw [hrun] at hsettle
        rw [transact, proc_play_bind_error _ hsettle]
        exact ⟨r, rfl⟩
      | ok settled =>
        rw [hrun] at hsettle
        rw [transact, proc_play_bind_ok _ hsettle]
        dsimp only
        split
        · exact ⟨_, rfl⟩
        · exact ⟨_, rfl⟩
end Turn

/-- Resolving a user's rows. -/
def resolvedPending (replies : Replies) (now : Int) (w : World) (locals : Locals) : World :=
  (Proc.play (respond replies) (resolvePending now) locals w).2

/-- Each `PENDING` row has its turn. -/
theorem resolvedPending_eq (replies : Replies) (now : Int) (w : World) (locals : Locals) : resolvedPending replies now w locals =
    resolved replies now w w.db.ledger.pendingOrders ⟨true, [], false⟩ locals := by
  have hread : Proc.play (respond replies) (transact .pendingOrders) locals w =
      ((.ok w.db.ledger.pendingOrders, locals), w) := by
    rw [transact]
    exact proc_play_attempt (respond replies)
  rw [resolvedPending, resolvePending, proc_play_bind_ok _ hread]
  rfl

end Coinpilot.Core
