import Coinpilot.Core.System

/-!
# The Kraken reads of a portfolio view

Every read is required: one that fails raises `portfolioUnavailable`. Balances that are not finite
amounts raise as their arithmetic does.
-/

set_option autoImplicit false

namespace Coinpilot.Core

open Coinpilot.Lib Coinpilot.Lib.Program Coinpilot.Exchange Coinpilot.Engine

/-- A read that is required. -/
def orUnavailable {α : Type} (what : String) : Option α → Work α
  | some a => pure a
  | none => throw (.portfolioUnavailable what)

/-- The finite amounts of a balance. -/
def finiteAmounts : List (String × PyDecimal) → Except Exn (List (String × Decimal))
  | [] => .ok []
  | (key, .finite d) :: rest => (finiteAmounts rest).map fun others => (key, d) :: others
  | _ :: _ => .error (.python .invalidOperation)

/-- The assets held that the user did not configure. -/
def unmanagedAssets (balances : Dict String Decimal) (names : Dict String String) (fiat : String)
    (targets : Dict String Decimal) : List String :=
  let held := balances.entries.filterMap fun (key, amount) =>
    let (name, suffix) := splitBalanceKey key names
    if amount.value ≠ 0 ∧ suffix ∈ TRADABLE_SUFFIXES then some name else none
  sortedKeys (held.dedup.filter fun name => name ∉ targets.keys ∧ name ≠ fiat)

/-- The pair of each asset: the configured ones, and those found for what else is held. -/
def pairsFor (fiat : String) (configuredPairs names : Dict String String) (unmanaged : List String) :
    Work (Dict String String) :=
  if unmanaged = [] then return configuredPairs
  else do
    let pairs ← orUnavailable "asset pairs" (← assetPairs)
    return unmanaged.foldl (fun pairOf asset =>
      match resolvePair asset fiat names pairs with
      | some m => pairOf.set asset m.pair
      | none => pairOf) configuredPairs

/-- The prices of these pairs. -/
def quotesFor (pairOf : Dict String String) : Work (Dict String Decimal) :=
  if pairOf.entries = [] then return Dict.empty
  else do orUnavailable "prices" (← ticker (sortedKeys pairOf.values.dedup))

/-- Read the account through the market's public side and the user's key. -/
def readPortfolio (fiat : String) (configured : List Target) : Work PortfolioView := do
  let names ← orUnavailable "asset names" (← assetNames)
  let raw ← orUnavailable "balance" (← balance privateClient)
  let balances := Dict.ofList (← fromExcept (finiteAmounts raw.entries))
  let targets := Dict.ofList (configured.map fun t => (t.asset, t.targetPct))
  let pairOf ← pairsFor fiat (Dict.ofList (configured.map fun t => (t.asset, t.pair))) names
    (unmanagedAssets balances names fiat targets)
  let quotes ← quotesFor pairOf
  match buildView balances names fiat targets (pairOf.filterMap fun _ pair => quotes.get? pair) with
  | .ok view => return view
  | .error e => throw (.unpriced e)

end Coinpilot.Core
