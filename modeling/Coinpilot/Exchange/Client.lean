import Coinpilot.Exchange.Types
import Coinpilot.Lib.Dict

/-!
# The client of one key

How each answer of Kraken is read. A read that fails is `none`, and only `AddOrder` tells a
refusal from an unknown answer (`readPlacement`). A refusal is definitive only when every code
Kraken returned is on the closed list `DEFINITIVE_REFUSALS`.
-/

set_option autoImplicit false

namespace Coinpilot.Exchange

open Coinpilot.Lib

/-! ## One call -/

/-- The exceptions of one signed call. -/
inductive CallFailure where
  | secretUnreadable
  | krakenError (errors : List Json)
  | other

/-- Kraken prefixes an error with `E` and a warning with `W`. -/
def isError (entry : Json) : Bool := startsWith entry.pyStr "E"

/-- The result of an answer. Its errors raise, and so does a body of another shape. -/
def unwrap (payload : Json) : Except CallFailure Json :=
  match (payload.get "error").bind fun e => (e.getD (.arr [])).iterate with
  | .error _ => .error .other
  | .ok entries =>
      let errors := entries.filter isError
      if errors ≠ [] then .error (.krakenError errors)
      else
        match payload.get "result" with
        | .error _ => .error .other
        | .ok result => .ok (result.getD (.obj []))

/-- One signed call. Raises on every failure; the callers decide what each means. -/
def callPrivate : HttpOutcome → Except CallFailure Json
  | .unsigned => .error .secretUnreadable
  | .failed => .error .other
  | .answered body => unwrap body

/-- Every failure of a read is `none`, and so is a result that is `null`. -/
def safely (answer : HttpOutcome) : Option Json := (callPrivate answer).toOption.bind Json.notNone

/-! ## Placing -/

/-- A code not listed here, including one Kraken adds later, reads as unknown. -/
def DEFINITIVE_REFUSALS : List String :=
  ["EOrder:", "EGeneral:Invalid arguments", "EGeneral:Permission denied", "EAPI:",
    "EService:Market in cancel_only mode", "EService:Market in post_only mode",
    "EService:Market in limit_only mode"]

/-- Every code Kraken returned says the order was not accepted, and there is one. -/
def isDefinitiveRefusal (errors : List Json) : Bool :=
  !errors.isEmpty &&
    errors.all fun error => DEFINITIVE_REFUSALS.any fun code => startsWith error.pyStr code

/-- What became of one `AddOrder` request. -/
def readPlacement (validate : Bool) (answer : HttpOutcome) : Placement :=
  match callPrivate answer with
  | .error .secretUnreadable => { outcome := .refused, error := some "the secret does not decode" }
  | .error (.krakenError errors) =>
      if isDefinitiveRefusal errors then
        { outcome := .refused, error := errors.head?.map Json.pyStr }
      else { outcome := .unknown }
  | .error .other => { outcome := .unknown }
  | .ok result =>
      if validate then { outcome := .validated }
      else
        match result with
        | .obj fields =>
            match fields.lookup "txid" with
            | some (.arr (txid :: _)) => { outcome := .sent, txid := some txid.pyStr }
            | _ => { outcome := .unknown }
        | _ => { outcome := .unknown }

/-- An order that was sent has a txid. -/
theorem readPlacement_sent {validate : Bool} {answer : HttpOutcome}
    (h : (readPlacement validate answer).outcome = .sent) :
    ∃ t, readPlacement validate answer = { outcome := .sent, txid := some t } := by
  unfold readPlacement at h ⊢
  split at h
  · cases h
  · split at h <;> cases h
  · cases h
  · split at h
    · cases h
    · split at h
      · split at h
        · exact ⟨_, if_neg ‹¬ validate = true›⟩
        · cases h
      · cases h

/-- Only a validation answers `validated`. -/
theorem readPlacement_validated {answer : HttpOutcome} :
    (readPlacement false answer).outcome ≠ .validated := by
  unfold readPlacement
  intro h
  split at h
  · cases h
  · split at h <;> cases h
  · cases h
  · split at h
    · rename_i hv
      cases hv
    · split at h
      · split at h <;> cases h
      · cases h

/-! ## Reading -/

/-- `_decimal`: a number, or `none` where the text is not one. -/
def decimalOf (raw : Json) : Option PyDecimal := PyDecimal.parse raw.pyStr

/-- What `Balance` answered, by Kraken's key. An amount that is not a number is left out. -/
def readBalance (answer : HttpOutcome) : Except PyError (Option (Dict String PyDecimal)) :=
  match safely answer with
  | none => .ok none
  | some raw => do
      let entries ← raw.items
      return some (Dict.ofList (entries.filterMap fun e => (decimalOf e.2).map fun v => (e.1, v)))

/-- The orders under `key` of a listing, `none` where they are `null`. -/
def readListing (key : String) (answer : HttpOutcome) : Except PyError (Option Json) :=
  match safely answer with
  | none => .ok none
  | some raw => do
      let orders ← raw.get key
      return (orders.getD (.obj [])).notNone

/-- What `QueryOrders` answered: the entries that are objects. -/
def readQueried (answer : HttpOutcome) : Except PyError (Option (List (String × Json))) :=
  match safely answer with
  | none => .ok none
  | some raw => do
      let entries ← raw.items
      return some (entries.filter fun e => e.2.isObject)

section Calls

variable {m : Type → Type} [Monad m] (client : KrakenClient m)

/-- Raise what a reader raised. -/
def KrakenClient.read {α : Type} (r : PrivateCall) (reader : HttpOutcome → Except PyError α) : m α := do
  let answer ← client.post r
  match reader answer with
  | .ok a => return a
  | .error e => client.raise e

def balance : m (Option (Dict String PyDecimal)) := client.read .balance readBalance

/-- A market order, always, and what became of the request. -/
def addOrder (pair side : String) (volume : Decimal) (clOrdId : String) (inQuote validate : Bool) :
    m Placement := do
  if inQuote ∧ side ≠ "buy" then client.raise .valueError
  else
    let answer ← client.post (.addOrder pair side volume clOrdId inQuote validate)
    return readPlacement validate answer

def openOrders (clOrdId : String) : m (Option Json) :=
  client.read (.openOrders (some clOrdId)) (readListing "open")

def closedOrders (clOrdId : String) : m (Option Json) :=
  client.read (.closedOrders (some clOrdId)) (readListing "closed")

/-- Orders by Kraken's own id, open or closed. -/
def queryOrders (txid : String) : m (Option (List (String × Json))) :=
  client.read (.queryOrders txid) readQueried

end Calls

end Coinpilot.Exchange
