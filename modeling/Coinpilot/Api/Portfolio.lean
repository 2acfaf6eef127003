import Coinpilot.Core.Execution

/-!
# A refresh of the portfolio

`POST /portfolio/refresh` reads Kraken now and keeps what it read as the day's point. It takes no
lock of the user's.
-/

set_option autoImplicit false

namespace Coinpilot.Api

open Coinpilot.Lib Coinpilot.Lib.Program Coinpilot.Core

/-- The key of a refresh. One that does not open is the server's failure. -/
def refreshKey (sealed : Sealed) : Work Unit :=
  tryCatch' (krakenFor sealed) fun e =>
    match e with
    | .credentialsUnreadable => throw (.http 500 "the stored key cannot be read; register it again")
    | e => throw e

/-- The account of a refresh, or the read that failed. -/
def refreshView (fiat : String) (targets : List Target) : Work PortfolioView :=
  tryCatch' (readPortfolio fiat targets) fun e =>
    match e with
    | .portfolioUnavailable what =>
        throw (.http 503 ("kraken did not return " ++ what ++ "; nothing was recorded"))
    | e => throw e

/-- The id of the snapshot that is shown. -/
def refresh : Work Nat := do
  let settings : Option UserSettings ← transact .readSettings
  match settings with
  | none => throw (.http 409 "choose a fiat with PATCH /api/config first")
  | some settings =>
      let record : Option Sealed ← transact .readCredentials
      match record with
      | none => throw (.http 409 "register a Kraken key with POST /api/credentials first")
      | some sealed =>
          refreshKey sealed
          let targets : List Target ← transact .listAssets
          let view ← refreshView settings.fiat targets
          let asOf ← currentTime
          transact (.keepSnapshot asOf settings.fiat view.managedValue view.cash.value
            view.snapshotJson)

end Coinpilot.Api
