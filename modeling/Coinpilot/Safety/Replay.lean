import Coinpilot.Safety.History
import Coinpilot.Lib.Replay

/-!
# Replaying calls

A Kraken with one market that answers by a function: the public side and the balance as `Market` says, an
`AddOrder` as each turn says, and no lookup ever. `krakenResponder` shows that it is one of the Krakens
the calls may meet, an honest one included.
-/

set_option autoImplicit false

namespace Coinpilot.Safety

open Coinpilot.Lib Coinpilot.Lib.Program Coinpilot.Exchange Coinpilot.Engine Coinpilot.Core

/-- What Kraken says of its markets and of the account. -/
structure Market where
  names : Dict String String
  pairs : Dict String PairMeta
  prices : Dict String Decimal
  decimals : Dict String Int
  balance : Json

/-- What becomes of an `AddOrder`: accepted, refused, or the answer is lost and no order exists. -/
inductive Reply where
  | accept
  | refuse
  | lose
  deriving DecidableEq

/-- The txid of an accepted order. -/
def txidOf (clOrdId : String) : String := "T" ++ clOrdId

def acceptedBody (txid : String) : Json :=
  .obj [("error", .arr []), ("result", .obj [("txid", .arr [.str txid])])]

def refusedBody : Json := .obj [("error", .arr [.str "EOrder:Insufficient funds"])]

theorem readPlacement_accepted (txid : String) :
    readPlacement false (.answered (acceptedBody txid)) = { outcome := .sent, txid := some txid } := rfl

theorem readPlacement_refused :
    readPlacement false (.answered refusedBody) =
      { outcome := .refused, error := some "EOrder:Insufficient funds" } := by
  decide +kernel

theorem readPlacement_failed : readPlacement false .failed = { outcome := .unknown } := rfl

/-- The orders at Kraken may stay as they are. -/
def timely (w : World) : Bool :=
  w.remote.all fun o => !o.phase.inFlight || decide (w.clock < o.attemptedAt + ABSENCE_GRACE)

/-- An order that Kraken accepts. -/
def acceptedOrder (w : World) (clOrdId : String) : RemoteOrder :=
  ⟨clOrdId, txidOf clOrdId, attemptedAt w clOrdId, .accepted 0⟩

/-- Kraken's answer to a private call, and the orders after it. An accepted order has a txid of its
own. -/
def postReply (market : Market) (m : Reply) (r : PrivateCall) (w : World) :
    HttpOutcome × List RemoteOrder :=
  match r with
  | .balance => (.answered (.obj [("error", .arr []), ("result", market.balance)]), w.remote)
  | .addOrder _ _ _ clOrdId _ false =>
      match m with
      | .accept =>
          if w.remote.all fun o => o.txid ≠ txidOf clOrdId then
            (.answered (acceptedBody (txidOf clOrdId)), w.remote ++ [acceptedOrder w clOrdId])
          else (.failed, w.remote)
      | .refuse => (.answered refusedBody, w.remote)
      | .lose => (.failed, w.remote)
  | _ => (.failed, w.remote)

/-- The reply of the world to one operation. -/
def reply (market : Market) (m : Reply) (i : Nat) : (o : Op) → World → Option (Ans o × World)
  | .now, w => some (w.clock, w)
  | .newUuid, w => some ("order-" ++ toString w.db.ledger.rows.length, w)
  | .unseal _, w => some (.ok (), w)
  | .tx t, w =>
      match t.run w.clock w.db with
      | .ok (a, db) => some (.ok a, { w with db })
      | .error e => some (.error e, w)
  | .post r, w =>
      let answer := postReply market m r w
      if timely { w with remote := answer.2 } then some (answer.1, { w with remote := answer.2 })
      else none
  | .assetNames, w => some (.ok (some market.names), w)
  | .assetPairs, w => some (.ok (some market.pairs), w)
  | .ticker _, w => some (.ok (some market.prices), w)
  | .assetDecimals, w => some (.ok (some market.decimals), w)
  | .tryLock, w =>
      if w.lock = none then some (.ok true, { w with lock := some i }) else some (.ok false, w)
  | .unlock, w => some (.ok (), { w with lock := if w.lock = some i then none else w.lock })

theorem timely_ok {w : World} (h : timely w = true) : Timely ABSENCE_GRACE w.clock w.remote := by
  intro o ho hf
  have hall := List.all_eq_true.mp h o ho
  rw [hf] at hall
  simpa using hall

theorem readListing_failed (key : String) : readListing key .failed = .ok none := rfl

theorem readQueried_failed : readQueried .failed = .ok none := rfl

/-- Kraken's answers are true. -/
theorem postReply_answers (market : Market) (m : Reply) (r : PrivateCall) (w : World) :
    Answers (attemptedAt w) r w.remote (postReply market m r w).1 (postReply market m r w).2 := by
  have hlisting : ∀ (here : Phase → Bool) (key id : String),
      TrueListing w.remote here key id .failed := by
    intro here key id orders h
    rw [readListing_failed] at h
    cases h
  cases r with
  | balance => rfl
  | openOrders id =>
    cases id with
    | none => rfl
    | some id => exact ⟨rfl, hlisting _ _ _⟩
  | closedOrders id =>
    cases id with
    | none => rfl
    | some id => exact ⟨rfl, hlisting _ _ _⟩
  | queryOrders txid =>
    refine ⟨rfl, fun entries h => ?_⟩
    have h' : readQueried .failed = .ok (some entries) := h
    rw [readQueried_failed] at h'
    cases h'
  | addOrder pair side volume id inQuote validate =>
    cases validate with
    | true => rfl
    | false =>
      have hlost : Placed (attemptedAt w id) id w.remote (readPlacement false .failed) w.remote :=
        Or.inl ⟨rfl, by rw [readPlacement_failed]; decide⟩
      cases m with
      | accept =>
        unfold postReply Answers
        dsimp only
        split
        · rename_i hnew
          refine Or.inr ⟨acceptedOrder w id, rfl, rfl, rfl, ?_, ?_, ?_⟩
          · simpa [acceptedOrder] using hnew
          · rw [readPlacement_accepted]
            exact PlacementOutcome.noConfusion
          · intro _
            rw [readPlacement_accepted]
            rfl
        · exact hlost
      | refuse =>
        refine Or.inl ⟨rfl, ?_⟩
        change (readPlacement false (.answered refusedBody)).outcome ≠ .sent
        rw [readPlacement_refused]
        decide
      | lose => exact hlost

/-- The replies are ones that the world may give, with or without an honest Kraken. -/
theorem reply_answered {honest : Prop} {market : Market} {m : Reply} {i : Nat} {o : Op} {w w' : World}
    {b : Ans o} (h : reply market m i o w = some (b, w')) : answered honest i o w b w' := by
  cases o with
  | tx t =>
    unfold reply at h
    dsimp only at h
    split at h
    · rename_i a db hrun
      cases h
      exact Or.inr ⟨a, db, hrun, rfl, rfl⟩
    · rename_i e hrun
      cases h
      exact Or.inl ⟨e, rfl, Or.inr hrun, rfl⟩
  | post r =>
    unfold reply at h
    dsimp only at h
    split at h
    · rename_i htimely
      cases h
      exact ⟨_, rfl, fun _ => ⟨postReply_answers market m r w, timely_ok htimely⟩⟩
    · cases h
  | tryLock =>
    unfold reply at h
    dsimp only at h
    split at h
    · rename_i hfree
      cases h
      exact Or.inl ⟨rfl, hfree, rfl⟩
    · rename_i htaken
      cases h
      exact Or.inr ⟨Or.inl ⟨rfl, htaken⟩, rfl⟩
  | unlock =>
    cases h
    exact Or.inl rfl
  | now =>
    cases h
    exact ⟨rfl, rfl⟩
  | _ =>
    cases h
    rfl

/-- The world of one market, and its history. -/
def krakenResponder (honest : Prop) (market : Market) : Responder (system honest).recorded Reply where
  respond m i c o w :=
    match reply market m i o w.now with
    | some (b, w') => some (b, ⟨w', ⟨i, c, o, b, w.now, w'⟩ :: w.past⟩)
    | none => none
  responds {m i c o w b w'} h := by
    split at h
    · rename_i b' w'' hreply
      cases h
      exact ⟨reply_answered hreply, rfl⟩
    · cases h

/-! ## One user -/

/-- One pair, in euro. -/
def xbtEur : PairMeta where
  pair := "XXBTZEUR"
  altname := "XBTEUR"
  base := "XXBT"
  quote := "ZEUR"
  priceDecimals := 1
  volumeDecimals := 8
  orderMin := ⟨5, -5⟩
  costMin := ⟨5, -1⟩
  status := "online"
  costDecimals := 5

/-- A market of one pair, at 50000, and an account of so much euro and bitcoin. -/
def marketOf (euro bitcoin : String) : Market where
  names := Dict.ofList [("XXBT", "XBT"), ("ZEUR", "EUR")]
  pairs := Dict.ofList [("XXBTZEUR", xbtEur)]
  prices := Dict.ofList [("XXBTZEUR", ⟨50000, 0⟩)]
  decimals := Dict.ofList [("EUR", 4), ("XBT", 10)]
  balance := .obj [("ZEUR", .str euro), ("XXBT", .str bitcoin)]

/-- A user who wants half of the account in bitcoin, and has placed nothing yet. -/
def newUser (autoRebalance : Bool) : World where
  db := {
    settings := some {
      fiat := "EUR", investCashEnabled := true, cashRebalanceEnabled := false
      autoRebalanceEnabled := autoRebalance, minDriftPct := ⟨1, 0⟩, minOrderFiat := ⟨10, 0⟩, paused := false }
    credentials := some ⟨[], [], 1⟩
    assets := [⟨"XBT", "XXBTZEUR", ⟨50, 0⟩⟩]
    ledger := ⟨[], by simp⟩
    proposal := none
    sessions := []
    snapshots := [] }
  lock := none
  clock := 0
  remote := []

/-- So many operations of one call. -/
def acts (i : Nat) (m : Reply) (n : Nat) : List (Turn Request Reply) := List.replicate n (.act i m)

end Coinpilot.Safety
