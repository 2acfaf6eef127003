import Coinpilot.Exchange.Types
import Coinpilot.Lib.Dict
import Mathlib.Data.List.Sort

/-!
# Kraken's asset names

Kraken names an asset three ways: the internal name, the short name, and either of them with the
suffix of an earn product. The short name is the one this system stores. Case and blanks are those
of ASCII, in which Kraken's names are written.
-/

set_option autoImplicit false

namespace Coinpilot.Core

open Coinpilot.Lib Coinpilot.Exchange

def upper (s : String) : String := String.ofList (s.toList.map Char.toUpper)

def strip (s : String) : String :=
  String.ofList ((s.toList.dropWhile Char.isWhitespace).reverse.dropWhile Char.isWhitespace).reverse

/-- `.F` is traded through its base asset; every other suffix cannot be sold now. -/
def TRADABLE_SUFFIXES : List String := ["", "F"]

def DARK_POOL_SUFFIX : String := ".d"

/-- The short name for a short or internal name, or `none` if Kraken does not list it. -/
def shortName (code : String) (assetNames : Dict String String) : Option String :=
  let wanted := upper (strip code)
  if wanted = "" then none
  else (assetNames.entries.find? fun e => wanted = upper e.1 ∨ wanted = upper e.2).map fun e => upper e.2

/-- The internal name of a short name. -/
def krakenKey (short : String) (assetNames : Dict String String) : Option String :=
  let wanted := upper (strip short)
  (assetNames.entries.find? fun e => upper e.2 = wanted).map Prod.fst

/-- `XBT.F` is (`XBT`, `F`). An unlisted base keeps its own name. -/
def splitBalanceKey (key : String) (assetNames : Dict String String) : String × String :=
  let base := String.ofList (key.toList.takeWhile (· ≠ '.'))
  let suffix := String.ofList ((key.toList.dropWhile (· ≠ '.')).drop 1)
  let listed := (shortName base assetNames).getD ""
  (if listed = "" then upper base else listed, suffix)

/-- The one pair that trades `asset` against `fiat` with a market order. -/
def resolvePair (asset fiat : String) (assetNames : Dict String String)
    (pairs : Dict String PairMeta) : Option PairMeta := do
  let base ← krakenKey asset assetNames
  let quote ← krakenKey fiat assetNames
  if base = quote then none
  else
    let sorted := pairs.entries.insertionSort fun a b => a.1 ≤ b.1
    (sorted.find? fun e => !(DARK_POOL_SUFFIX.toList.isSuffixOf e.1.toList) &&
      e.2.base = base && e.2.quote = quote && e.2.tradable).map Prod.snd

end Coinpilot.Core
