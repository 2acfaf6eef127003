import Coinpilot.Exchange.Json

/-!
# The vocabulary of the exchange boundary

What Kraken's words are translated into, and the private calls of one key with the form each is
sent as. An HTTP exchange ends in one of three ways: nothing could be signed, no usable answer
came back, or a JSON body did.
-/

set_option autoImplicit false

namespace Coinpilot.Exchange

open Coinpilot.Lib

/-- What Kraken will accept for one tradable pair. -/
structure PairMeta where
  pair : String
  altname : String
  base : String
  quote : String
  priceDecimals : Int
  volumeDecimals : Int
  orderMin : Decimal
  costMin : Decimal
  status : String
  costDecimals : Int
  deriving DecidableEq, Repr

/-- Kraken publishes five statuses and only one of them accepts a market order. -/
def PairMeta.tradable (m : PairMeta) : Bool := m.status = "online"

/-- Kraken's order statuses, normalised. -/
inductive ExchangeOrderStatus where
  | canceled
  | closed
  | notFound
  | opened
  | pending
  | unknown
  deriving DecidableEq, Repr

def ExchangeOrderStatus.value : ExchangeOrderStatus → String
  | .canceled => "canceled"
  | .closed => "closed"
  | .notFound => "not_found"
  | .opened => "open"
  | .pending => "pending"
  | .unknown => "unknown"

/-- What one order looks like at the exchange. -/
structure OrderLookup where
  txid : Option String
  status : Option ExchangeOrderStatus
  volume : PyDecimal
  volumeExecuted : PyDecimal
  price : PyDecimal
  fee : PyDecimal
  cost : PyDecimal
  deriving DecidableEq, Repr

/-- What one `AddOrder` call achieved. -/
inductive PlacementOutcome where
  | sent
  | validated
  | refused
  | unknown
  deriving DecidableEq, Repr

structure Placement where
  outcome : PlacementOutcome
  txid : Option String := none
  error : Option String := none
  deriving DecidableEq, Repr

/-- One signed call, by its arguments. -/
inductive PrivateCall where
  | balance
  | addOrder (pair side : String) (volume : Decimal) (clOrdId : String) (inQuote validate : Bool)
  | openOrders (clOrdId : Option String)
  | closedOrders (clOrdId : Option String)
  | queryOrders (txid : String)
  deriving DecidableEq, Repr

/-- The string form Kraken accepts. -/
def formatDecimal (value : Decimal) : String := value.fixed

namespace PrivateCall

def endpoint : PrivateCall → String
  | .balance => "Balance"
  | .addOrder .. => "AddOrder"
  | .openOrders _ => "OpenOrders"
  | .closedOrders _ => "ClosedOrders"
  | .queryOrders _ => "QueryOrders"

/-- `{"cl_ord_id": cl_ord_id} if cl_ord_id else None`. -/
def byClOrdId : Option String → List (String × String)
  | some c => if c = "" then [] else [("cl_ord_id", c)]
  | none => []

/-- The form fields, without the nonce. -/
def payload : PrivateCall → List (String × String)
  | .balance => []
  | .addOrder pair side volume clOrdId inQuote validate =>
      [("pair", pair), ("type", side), ("ordertype", "market"), ("volume", formatDecimal volume),
        ("cl_ord_id", clOrdId)] ++
      (if inQuote then [("oflags", "viqc,fcib")]
        else if side = "sell" then [("oflags", "fciq")] else []) ++
      (if validate then [("validate", "true")] else [])
  | .openOrders clOrdId => byClOrdId clOrdId
  | .closedOrders clOrdId => byClOrdId clOrdId
  | .queryOrders txid => [("txid", txid)]

/-- The client id of a call that can trade. -/
def creates : PrivateCall → Option String
  | .addOrder _ _ _ clOrdId _ false => some clOrdId
  | _ => none

/-- A call that can trade sells. -/
def sells : PrivateCall → Bool
  | .addOrder _ side _ _ _ validate => side = "sell" && !validate
  | _ => false

end PrivateCall

/-- How one signed HTTP exchange ended. `failed` is any exception of the transport, an HTTP error
status included, and a body that is not JSON. -/
inductive HttpOutcome where
  | unsigned
  | failed
  | answered (body : Json)

/-- What the exchange functions need of a caller: to send a signed call, and to raise. -/
structure KrakenClient (m : Type → Type) where
  post : PrivateCall → m HttpOutcome
  raise : {α : Type} → PyError → m α

end Coinpilot.Exchange
