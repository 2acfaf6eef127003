import Coinpilot.Api.Assets

/-!
# Saving the targets

`saveOrder` puts the writes of the form in order, and the form sends them one by one: a write that
fails is the last. Each of them is one request, one transaction of the platform.
-/

set_option autoImplicit false

namespace Coinpilot.Web

open Coinpilot.Lib Coinpilot.Lib.Program Coinpilot.Lib.ReadCommitted Coinpilot.Exchange
  Coinpilot.Core Coinpilot.Core.Assets Coinpilot.Api

/-- A `PUT` to send: the text of the target is one that the schema takes. -/
structure Put where
  asset : String
  target : AssetIn

/-- What to send: the deletes first, then the puts. -/
structure SaveOrder where
  deletes : List String
  puts : List Put

/-- `Big(target).minus(stored.get(asset) ?? "0")`. -/
def change (stored : Dict String Decimal) (put : Put) : Decimal :=
  put.target.targetPct.sub (stored.getD put.asset Decimal.zero)

section Order

variable (localeCompare : String → String → Int) (stored : Dict String Decimal)

/-- `a.change.cmp(b.change) || a.asset.localeCompare(b.asset)` is not positive. -/
def before (a b : Put) : Prop :=
  (change stored a).value < (change stored b).value ∨
    (change stored a).value = (change stored b).value ∧ localeCompare a.asset b.asset ≤ 0

instance (a b : Put) : Decidable (before localeCompare stored a b) :=
  inferInstanceAs (Decidable (_ ∨ _))

/-- A target that is already stored as it is needs no write. -/
def needed (put : Put) : Bool :=
  (stored.get? put.asset).isNone || decide ((change stored put).value ≠ 0)

/-- The deletes, and the puts from the largest decrease to the largest increase. -/
def saveOrder (wanted : Dict String AssetIn) : SaveOrder where
  deletes := stored.keys.filter fun asset => asset ∉ wanted.keys
  puts := ((wanted.entries.map fun e => Put.mk e.1 e.2).filter (needed stored)).insertionSort
    (before localeCompare stored)

end Order

/-! ## Sending -/

/-- What Kraken's catalog answers a request: its asset names and its pairs, if it can be read. -/
structure CatalogAnswer where
  assetNames : Option (Dict String String)
  pairs : Option (Dict String PairMeta)

/-- Why the form stops: the platform's answer to the write of an asset, or two rows that are one asset
of Kraken's. -/
inductive SaveError where
  | api (failedAt : String) (e : ApiError)
  | sameAsset (asset saved : String)
  deriving DecidableEq, Repr

/-- The writes of one form, with the platform that answers them. -/
abbrev SaveWork : Type → Type := Proc (Stmt AssetKey AssetRow) Reply Unit SaveError

/-- One request, one transaction. What it raises is the answer to the write of `failedAt`. -/
def unwrap {α : Type} (failedAt : String) (request : AssetWork α) : SaveWork α := fun l =>
  ((transaction request).exec l).bind fun r =>
    match r.1 with
    | .ok a => .ret (.ok a, r.2)
    | .error e => .ret (.error (.api failedAt e), r.2)

section Sending

variable (kraken : String → CatalogAnswer)

def sendDeletes : List String → SaveWork Unit
  | [] => pure ()
  | asset :: rest => do
      unwrap asset (Api.deleteAsset asset (kraken asset).assetNames)
      sendDeletes rest

def sendPuts (wanted : Dict String AssetIn) : List Put → SaveWork Unit
  | [] => pure ()
  | put :: rest => do
      let saved ← unwrap put.asset
        (putAsset put.asset put.target (kraken put.asset).assetNames (kraken put.asset).pairs)
      if saved.asset ≠ put.asset ∧ saved.asset ∈ wanted.keys then
        throw (.sameAsset put.asset saved.asset)
      else sendPuts wanted rest

/-- The loops of `save`. -/
def send (wanted : Dict String AssetIn) (order : SaveOrder) : SaveWork Unit := do
  sendDeletes kraken order.deletes
  sendPuts kraken wanted order.puts

end Sending

/-- The targets that the form has read: `stored.map((s) => [s.asset, s.target_pct])`. -/
def storedTargets (rows : List AssetConfig) : Dict String Decimal :=
  Dict.ofList (rows.map fun row => (row.asset, row.targetPct))

end Coinpilot.Web
