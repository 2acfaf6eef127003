import Coinpilot.Exchange.Client

/-!
# Kraken's public data

How the answers to `AssetPairs`, `Ticker` and `Assets` are read. Each reader goes through the entries of
a result that must be an object (`readEntries`), and an entry adds something, or nothing, or raises.
-/

set_option autoImplicit false

namespace Coinpilot.Exchange

open Coinpilot.Lib

/-! ## Reading a number of places -/

/-- The zeros of the decimal digits of every script. -/
def DIGIT_ZEROS : List Nat :=
  [0x30, 0x660, 0x6f0, 0x7c0, 0x966, 0x9e6, 0xa66, 0xae6, 0xb66, 0xbe6, 0xc66, 0xce6, 0xd66, 0xde6, 0xe50,
    0xed0, 0xf20, 0x1040, 0x1090, 0x17e0, 0x1810, 0x1946, 0x19d0, 0x1a80, 0x1a90, 0x1b50, 0x1bb0, 0x1c40,
    0x1c50, 0xa620, 0xa8d0, 0xa900, 0xa9d0, 0xa9f0, 0xaa50, 0xabf0, 0xff10, 0x104a0, 0x10d30, 0x11066,
    0x110f0, 0x11136, 0x111d0, 0x112f0, 0x11450, 0x114d0, 0x11650, 0x116c0, 0x11730, 0x118e0, 0x11950,
    0x11c50, 0x11d50, 0x11da0, 0x11f50, 0x16a60, 0x16ac0, 0x16b50, 0x1d7ce, 0x1d7d8, 0x1d7e2, 0x1d7ec,
    0x1d7f6, 0x1e140, 0x1e2f0, 0x1e4f0, 0x1e950, 0x1fbf0]

/-- The value of a decimal digit. -/
def digitValue (c : Char) : Option Nat :=
  (DIGIT_ZEROS.find? fun first => first ≤ c.toNat ∧ c.toNat < first + 10).map fun first => c.toNat - first

/-- A blank around a number. A text of ASCII only has fewer of them. -/
def isBlank (ascii : Bool) (c : Char) : Bool :=
  let n := c.toNat
  (9 ≤ n && n ≤ 13) || n = 32 || (!ascii && ((28 ≤ n && n ≤ 31) || n = 0x85 || n = 0xa0 || n = 0x1680 ||
    (0x2000 ≤ n && n ≤ 0x200a) || n = 0x2028 || n = 0x2029 || n = 0x202f || n = 0x205f || n = 0x3000))

/-- Digits, with at most one underscore between two of them. -/
def scanDigits : List Char → Option (List Nat)
  | [] => none
  | [c] => (digitValue c).map fun d => [d]
  | c :: '_' :: rest => do return (← digitValue c) :: (← scanDigits rest)
  | c :: d :: rest => do return (← digitValue c) :: (← scanDigits (d :: rest))

/-- The digits that `int(text)` converts at most. -/
def MAX_DIGITS : Nat := 4300

/-- `int(text)`, or `none` where it raises `ValueError`. -/
def parseInt (text : String) : Option Int :=
  let blank := isBlank (text.toList.all fun c => c.toNat < 128)
  let cs := ((text.toList.dropWhile blank).reverse.dropWhile blank).reverse
  let negative := cs.head? = some '-'
  let cs := if negative ∨ cs.head? = some '+' then cs.tail else cs
  match scanDigits cs with
  | none => none
  | some digits =>
      if MAX_DIGITS < digits.length then none
      else
        let n : Int := digits.foldl (fun n d => 10 * n + d) 0
        some (if negative then -n else n)

/-- `int(x)`. A float is cut off towards zero. -/
def toInt : Json → Except PyError Int
  | .int n => .ok n
  | .bool b => .ok (if b then 1 else 0)
  | .float repr =>
      match PyDecimal.parse repr with
      | some (.finite d) => .ok (d.value.num.tdiv d.value.den)
      | some (.infinite _) => .error .overflowError
      | _ => .error .valueError
  | .str text =>
      match parseInt text with
      | some n => .ok n
      | none => .error .valueError
  | _ => .error .typeError

/-! ## Entries -/

/-- `x[key]`, for a key that is a text. -/
def item (j : Json) (key : String) : Except PyError Json :=
  match j with
  | .obj fields =>
      match fields.lookup key with
      | some value => .ok value
      | none => .error .keyError
  | _ => .error .typeError

/-- `Decimal(str(x))`. -/
def toDecimal (j : Json) : Except PyError PyDecimal :=
  match PyDecimal.parse j.pyStr with
  | some d => .ok d
  | none => .error .invalidOperation

/-- What each entry adds, in order, until one raises. -/
def keepEach {β : Type} (keep : String → Json → Except PyError (Option β)) :
    List (String × Json) → Except PyError (List β)
  | [] => .ok []
  | (name, entry) :: rest => do
      let kept ← keep name entry
      let others ← keepEach keep rest
      return kept.toList ++ others

/-- A dictionary of what the entries of a result add. -/
def readEntries {α : Type} (keep : String → Json → Except PyError (Option (String × α)))
    (answer : HttpOutcome) : Except PyError (Option (Dict String α)) :=
  match safely answer with
  | none => .ok none
  | some raw => do
      let kept ← keepEach keep (← raw.items)
      return some (Dict.ofList kept)

/-! ## The readers -/

/-- A pair as it is read. What is a text by its name may be any value. -/
structure ReadPair where
  pair : String
  altname : Json
  base : Json
  quote : Json
  priceDecimals : Int
  volumeDecimals : Int
  orderMin : PyDecimal
  costMin : PyDecimal
  status : String
  costDecimals : Int

/-- One pair. Its fields are read in this order. -/
def readPair (name : String) (entry : Json) : Except PyError ReadPair := do
  let altname ← item entry "altname"
  let base ← item entry "base"
  let quote ← item entry "quote"
  let priceDecimals ← toInt (← item entry "pair_decimals")
  let volumeDecimals ← toInt (← item entry "lot_decimals")
  let orderMin ← toDecimal (← item entry "ordermin")
  let costMin ← toDecimal (← item entry "costmin")
  let status ← item entry "status"
  let costDecimals ← toInt (← item entry "cost_decimals")
  return {
    pair := name, altname, base, quote, priceDecimals, volumeDecimals, orderMin, costMin
    status := status.pyStr, costDecimals }

/-- The exceptions that skip an unreadable pair. -/
def skipsPair : PyError → Bool
  | .keyError | .typeError | .valueError | .invalidOperation => true
  | _ => false

/-- The `try` around one pair. -/
def keepPair (name : String) (entry : Json) : Except PyError (Option (String × ReadPair)) :=
  match readPair name entry with
  | .ok p => .ok (some (name, p))
  | .error e => if skipsPair e then .ok none else .error e

/-- Every tradable pair. A pair missing a field is skipped rather than raised on. -/
def readAssetPairs : HttpOutcome → Except PyError (Option (Dict String ReadPair)) := readEntries keepPair

/-- `(entry.get("c") or [None])[0]`. -/
def firstOf : Option Json → Except PyError Json
  | none => .ok .null
  | some c =>
      if !c.truthy then .ok .null
      else
        match c with
        | .arr (x :: _) => .ok x
        | .str text => .ok (.str (String.ofList (text.toList.take 1)))
        | .obj _ => .error .keyError
        | _ => .error .typeError

/-- The price of one pair, where it is a number. `c` is [price, lot volume]. -/
def keepPrice (name : String) (entry : Json) : Except PyError (Option (String × PyDecimal)) := do
  let first ← firstOf (← entry.get "c")
  return (decimalOf first).map fun price => (name, price)

/-- The last traded price of each pair. -/
def readTicker : HttpOutcome → Except PyError (Option (Dict String PyDecimal)) := readEntries keepPrice

/-- The altname of an asset, where it has one. -/
def altnameOf : Json → Option Json
  | .obj fields => (fields.lookup "altname").bind fun altname => if altname.truthy then some altname else none
  | _ => none

/-- Kraken's internal name for every asset, mapped to its short name: `XXBT` to `XBT`. -/
def readAssets : HttpOutcome → Except PyError (Option (Dict String String)) :=
  readEntries fun name entry => .ok ((altnameOf entry).map fun altname => (name, altname.pyStr))

/-- The places of an asset, where they are there. -/
def decimalsOf : Json → Option Json
  | .obj fields => (fields.lookup "decimals").bind Json.notNone
  | _ => none

/-- The short name of one asset with its places. -/
def keepPlaces (_name : String) (entry : Json) : Except PyError (Option (String × Int)) :=
  match altnameOf entry, decimalsOf entry with
  | some altname, some decimals => do return some (altname.pyStr, ← toInt decimals)
  | _, _ => .ok none

/-- The places Kraken's ledger keeps for each asset, by short name: `EUR` to 4. -/
def readAssetDecimals : HttpOutcome → Except PyError (Option (Dict String Int)) := readEntries keepPlaces

/-! ## What raises -/

theorem keepEach_ok {β : Type} {keep : String → Json → Except PyError (Option β)}
    {entries : List (String × Json)} :
    (∃ kept, keepEach keep entries = .ok kept) ↔ ∀ e ∈ entries, ∃ b, keep e.1 e.2 = .ok b := by
  induction entries with
  | nil => exact ⟨fun _ e he => absurd he List.not_mem_nil, fun _ => ⟨[], rfl⟩⟩
  | cons e rest ih =>
    obtain ⟨name, entry⟩ := e
    rw [List.forall_mem_cons, ← ih, keepEach]
    cases hkeep : keep name entry with
    | error x =>
      constructor
      · rintro ⟨kept, h⟩
        cases h
      · rintro ⟨⟨b, h⟩, -⟩
        cases h
    | ok b =>
      cases hrest : keepEach keep rest with
      | error x =>
        constructor
        · rintro ⟨kept, h⟩
          cases h
        · rintro ⟨-, ⟨kept, h⟩⟩
          cases h
      | ok others => exact ⟨fun _ => ⟨⟨b, rfl⟩, others, rfl⟩, fun _ => ⟨_, rfl⟩⟩

/-- What is kept comes from an entry. -/
theorem mem_keepEach {β : Type} {keep : String → Json → Except PyError (Option β)}
    {entries : List (String × Json)} {kept : List β} (h : keepEach keep entries = .ok kept) {b : β}
    (hb : b ∈ kept) : ∃ e ∈ entries, keep e.1 e.2 = .ok (some b) := by
  induction entries generalizing kept with
  | nil =>
    obtain rfl := Except.ok.inj h
    exact absurd hb List.not_mem_nil
  | cons e rest ih =>
    obtain ⟨name, entry⟩ := e
    rw [keepEach] at h
    cases hkeep : keep name entry with
    | error x =>
      rw [hkeep] at h
      cases h
    | ok first =>
      cases hrest : keepEach keep rest with
      | error x =>
        rw [hkeep, hrest] at h
        cases h
      | ok others =>
        rw [hkeep, hrest] at h
        obtain rfl := Except.ok.inj h
        rcases List.mem_append.mp hb with hfirst | hothers
        · obtain rfl := Option.mem_toList.mp hfirst
          exact ⟨_, List.mem_cons_self, hkeep⟩
        · obtain ⟨e, he, hfrom⟩ := ih hrest hothers
          exact ⟨e, List.mem_cons_of_mem _ he, hfrom⟩

theorem readPair_name {name : String} {entry : Json} {p : ReadPair} (h : readPair name entry = .ok p) :
    p.pair = name := by
  simp only [readPair, bind, Except.bind, pure, Except.pure] at h
  repeat' split at h
  all_goals cases h
  rfl

/-- Every pair is read under its own name. -/
theorem readAssetPairs_named {answer : HttpOutcome} {pairs : Dict String ReadPair}
    (h : readAssetPairs answer = .ok (some pairs)) : ∀ e ∈ pairs.entries, e.2.pair = e.1 := by
  rw [readAssetPairs, readEntries] at h
  cases hraw : safely answer with
  | none =>
    rw [hraw] at h
    cases h
  | some raw =>
    rw [hraw] at h
    cases raw with
    | obj entries =>
      simp only [Json.items, bind, Except.bind, pure, Except.pure] at h
      cases hkept : keepEach keepPair entries with
      | error x =>
        rw [hkept] at h
        cases h
      | ok kept =>
        rw [hkept] at h
        obtain rfl := Option.some.inj (Except.ok.inj h)
        intro e he
        obtain ⟨e', -, hfrom⟩ := mem_keepEach hkept (Dict.mem_of_mem_ofList he)
        rw [keepPair] at hfrom
        cases hpair : readPair e'.1 e'.2 with
        | error x =>
          rw [hpair] at hfrom
          dsimp only at hfrom
          split at hfrom
          · cases hfrom
          · cases hfrom
        | ok p =>
          rw [hpair] at hfrom
          obtain rfl := Option.some.inj (Except.ok.inj hfrom)
          exact readPair_name hpair
    | _ => cases h

/-- There is no result, or it is an object. -/
def ObjectResult (answer : HttpOutcome) : Prop := ∀ raw, safely answer = some raw → raw.isObject = true

theorem objectResult_none {answer : HttpOutcome} (h : safely answer = none) : ObjectResult answer := by
  intro raw hraw
  rw [h] at hraw
  cases hraw

theorem objectResult_some {answer : HttpOutcome} {raw : Json} (h : safely answer = some raw) :
    ObjectResult answer ↔ ∃ fields, raw = .obj fields := by
  rw [ObjectResult, h]
  constructor
  · intro hobj
    have hraw := hobj raw rfl
    cases raw with
    | obj fields => exact ⟨fields, rfl⟩
    | _ => cases hraw
  · rintro ⟨fields, rfl⟩ raw hraw
    obtain rfl := Option.some.inj hraw
    rfl

/-- Every entry of a result that is an object is as `good` says. -/
def EachEntry (good : Json → Prop) (answer : HttpOutcome) : Prop :=
  ∀ entries, safely answer = some (.obj entries) → ∀ e ∈ entries, good e.2

/-- A dictionary is read exactly where the result is an object whose entries can be kept. -/
theorem readEntries_ok {α : Type} {keep : String → Json → Except PyError (Option (String × α))}
    {good : Json → Prop} (hgood : ∀ name entry, (∃ b, keep name entry = .ok b) ↔ good entry)
    {answer : HttpOutcome} :
    (∃ read, readEntries keep answer = .ok read) ↔ ObjectResult answer ∧ EachEntry good answer := by
  rw [readEntries, EachEntry]
  cases h : safely answer with
  | none => exact ⟨fun _ => ⟨objectResult_none h, by simp⟩, fun _ => ⟨none, rfl⟩⟩
  | some raw =>
    rw [objectResult_some h]
    cases raw with
    | obj entries =>
      have hkept : (∃ kept, keepEach keep entries = .ok kept) ↔ ∀ e ∈ entries, good e.2 := by
        rw [keepEach_ok]
        exact forall₂_congr fun e _ => hgood e.1 e.2
      simp only [Json.items, bind, Except.bind, pure, Except.pure, Option.some.injEq, Json.obj.injEq,
        exists_eq', true_and, forall_eq', ← hkept]
      cases keepEach keep entries <;> simp
    | _ => simp [Json.items, bind, Except.bind]

end Coinpilot.Exchange
