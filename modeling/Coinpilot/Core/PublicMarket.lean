import Coinpilot.Core.Portfolio
import Coinpilot.Lib.ReadThrough

/-!
# The prices of one tick

One tick's prices, read once and shared by every evaluation in it. What the source answers may depend
on all that it was asked before.
-/

set_option autoImplicit false

namespace Coinpilot.Core

open Coinpilot.Lib Coinpilot.Lib.ReadThrough

/-- What the source of a tick answers, after the questions it has had. -/
abbrev PriceSource : Type :=
  List (Question String Decimal) → List String → Option (Dict String Decimal)

/-- `_prices`, and what the source was asked and gave. -/
structure TickMarket where
  prices : Dict String Decimal := Dict.empty
  questions : List (Question String Decimal) := []

/-- The pairs that have no price yet. -/
def TickMarket.missing (market : TickMarket) (pairs : List String) : List String :=
  pairs.filter fun pair => pair ∉ market.prices.keys

/-- The prices of some pairs. Only those that are missing are asked for. -/
def TickMarket.ticker (source : PriceSource) (pairs : List String) (market : TickMarket) :
    Option (Dict String Decimal) × TickMarket :=
  let missing := market.missing pairs
  if missing = [] then (some (market.prices.restrict pairs), market)
  else
    match source market.questions missing with
    | none => (none, { market with questions := market.questions ++ [⟨missing, none⟩] })
    | some fetched =>
        let prices := market.prices.update fetched
        (some (prices.restrict pairs),
          { prices, questions := market.questions ++ [⟨missing, some fetched⟩] })

/-- One call for every pair the batch is configured with. -/
def TickMarket.preload (source : PriceSource) (pairs : List String) (market : TickMarket) : TickMarket :=
  (market.ticker source (sortedKeys pairs.dedup)).2

/-- A call of a tick. -/
inductive MarketCall where
  | preload (pairs : List String)
  | ticker (pairs : List String)
  deriving DecidableEq, Repr

/-- What a call hands out, if it is one that answers, and the market after it. -/
def MarketCall.perform (source : PriceSource) (market : TickMarket) :
    MarketCall → List (Option (Dict String Decimal)) × TickMarket
  | .preload pairs => ([], market.preload source pairs)
  | .ticker pairs =>
      let reply := market.ticker source pairs
      ([reply.1], reply.2)

/-- The calls of the evaluations of one tick, one after the other: the guard of the market is held
across each. -/
def TickMarket.run (source : PriceSource) (market : TickMarket) :
    List MarketCall → List (Option (Dict String Decimal)) × TickMarket
  | [] => ([], market)
  | call :: rest =>
      let reply := call.perform source market
      let others := reply.2.run source rest
      (reply.1 ++ others.1, others.2)

/-- A source whose prices do not change, and which refuses no question but for pairs that it does not
know. -/
structure FixedSource where
  prices : Dict String Decimal
  refuses : List String → Bool
  refuses_nil : refuses [] = false

/-- The pairs it does not know. -/
def FixedSource.unknown (source : FixedSource) (pairs : List String) : List String :=
  pairs.filter fun pair => pair ∉ source.prices.keys

/-- What it gives for some pairs alone. -/
def FixedSource.ticker (source : FixedSource) (pairs : List String) : Option (Dict String Decimal) :=
  if source.refuses (source.unknown pairs) then none else some (source.prices.restrict pairs)

end Coinpilot.Core
