import Coinpilot.Exchange.Orders

/-!
# What an answer says of an order

An answer lists its orders explicitly (`ListsNone` where there are none), or a default stands for the
list (`Defaulted`). An entry states the volume that was executed (`States`), or it does not
(`Unstated`). The lemmas say what the code reads of each, and where a lookup by client id finds the
order when every call ends as given (`findOrderByClOrdId_some`).
-/

set_option autoImplicit false

namespace Coinpilot.Exchange

open Coinpilot.Lib

/-! ## What the answers say -/

/-- An answer without error that carries its list of orders explicitly, and empty. -/
def ListsNone (key : String) (answer : HttpOutcome) : Prop :=
  ∃ body result, answer = .answered (.obj body) ∧ unwrap (.obj body) = .ok (.obj result) ∧
    body.lookup "result" = some (.obj result) ∧
    (result.lookup key = some (.obj []) ∨ result.lookup key = some (.arr []))

/-- An answer without error whose list of orders comes from a default: the result or the list is
missing, or something that is no list stands for it and is false as Python reads it, but no `null`. -/
inductive Defaulted (key : String) : HttpOutcome → Prop where
  | noResult {body : List (String × Json)} {raw : Json} : unwrap (.obj body) = .ok raw →
      body.lookup "result" = none → Defaulted key (.answered (.obj body))
  | noList {body result : List (String × Json)} : unwrap (.obj body) = .ok (.obj result) →
      body.lookup "result" = some (.obj result) → result.lookup key = none →
      Defaulted key (.answered (.obj body))
  | notList {body result : List (String × Json)} {j : Json} : unwrap (.obj body) = .ok (.obj result) →
      body.lookup "result" = some (.obj result) → result.lookup key = some j → j.truthy = false →
      j ≠ .null → j ≠ .obj [] → j ≠ .arr [] → Defaulted key (.answered (.obj body))

/-- An entry that echoes a client id. -/
def Echoes (clOrdId : String) (entry : Json) : Prop :=
  ∃ raw, entry.get "cl_ord_id" = .ok raw ∧ echoes clOrdId raw = true

/-- The first entry of a listing that echoes a client id. What stands before it can be read. -/
inductive FirstEcho (clOrdId : String) : List (String × Json) → String → Json → Prop where
  | here {txid : String} {entry : Json} {rest : List (String × Json)} : Echoes clOrdId entry →
      FirstEcho clOrdId ((txid, entry) :: rest) txid entry
  | later {e : String × Json} {raw : Option Json} {rest : List (String × Json)} {txid : String}
      {entry : Json} : e.2.get "cl_ord_id" = .ok raw → echoes clOrdId raw = false →
      FirstEcho clOrdId rest txid entry → FirstEcho clOrdId (e :: rest) txid entry

/-- An executed volume that is present, readable and as `good` says. -/
def States (good : PyDecimal → Prop) (entry : Json) : Prop :=
  ∃ j p, entry.get "vol_exec" = .ok (some j) ∧ PyDecimal.parse j.pyStr = some p ∧ good p

/-- A number that is zero. -/
def IsZero : PyDecimal → Prop
  | .finite d => d.value = 0
  | _ => False

/-- A number below zero. -/
def BelowZero : PyDecimal → Prop
  | .finite d => d.value < 0
  | .infinite negative => negative = true
  | .nan => False

/-- An executed volume that is missing, that is not a number, or that is below zero. -/
def Unstated (entry : Json) : Prop :=
  entry.get "vol_exec" = .ok none ∨
    (∃ j, entry.get "vol_exec" = .ok (some j) ∧ PyDecimal.parse j.pyStr = none) ∨
    States BelowZero entry
/-! ## Reading the answers -/

/-- A result is unwrapped from an object. -/
theorem unwrap_ok {payload raw : Json} (h : unwrap payload = .ok raw) :
    ∃ body, payload = .obj body ∧ raw = (body.lookup "result").getD (.obj []) := by
  cases payload with
  | obj body =>
    refine ⟨body, rfl, ?_⟩
    rw [unwrap] at h
    split at h
    · cases h
    · dsimp only at h
      split at h
      · cases h
      · exact (Except.ok.inj h).symm
  | _ => cases h

/-- What a listing reads as. -/
theorem readListing_some {key : String} {answer : HttpOutcome} {orders : Json} :
    readListing key answer = .ok (some orders) ↔
      ∃ body result, answer = .answered (.obj body) ∧ unwrap (.obj body) = .ok (.obj result) ∧
        orders = (result.lookup key).getD (.obj []) ∧ orders ≠ .null := by
  constructor
  · intro h
    cases answer with
    | unsigned => cases h
    | failed => cases h
    | answered payload =>
      rw [readListing, safely, callPrivate] at h
      cases hunwrap : unwrap payload with
      | error e => rw [hunwrap] at h; cases h
      | ok raw =>
        obtain ⟨body, rfl, -⟩ := unwrap_ok hunwrap
        rw [hunwrap] at h
        cases raw with
        | obj result =>
          obtain ⟨horders, hne⟩ := Json.notNone_eq_some.mp (Except.ok.inj h)
          exact ⟨body, result, rfl, hunwrap, horders.symm, hne⟩
        | _ => cases h
  · rintro ⟨body, result, rfl, hunwrap, rfl, hne⟩
    rw [readListing, safely, callPrivate, hunwrap]
    exact congrArg Except.ok (Json.notNone_eq_some.mpr ⟨rfl, hne⟩)

/-- A listing reads as empty where it is, or where a default stands for it. -/
theorem readListing_falsy {key : String} {answer : HttpOutcome} :
    (∃ orders, readListing key answer = .ok (some orders) ∧ orders.truthy = false) ↔
      ListsNone key answer ∨ Defaulted key answer := by
  constructor
  · rintro ⟨orders, hread, hfalsy⟩
    obtain ⟨body, result, rfl, hunwrap, rfl, hne⟩ := readListing_some.mp hread
    obtain ⟨body', hbody, hraw⟩ := unwrap_ok hunwrap
    obtain rfl := Json.obj.inj hbody
    cases hresult : body.lookup "result" with
    | none => exact Or.inr (.noResult hunwrap hresult)
    | some raw =>
      rw [hresult, Option.getD_some] at hraw
      obtain rfl := hraw
      cases hlist : result.lookup key with
      | none => exact Or.inr (.noList hunwrap hresult hlist)
      | some j =>
        rw [hlist, Option.getD_some] at hfalsy hne
        by_cases hempty : j = .obj [] ∨ j = .arr []
        · refine Or.inl ⟨body, result, rfl, hunwrap, hresult, ?_⟩
          rcases hempty with rfl | rfl
          · exact Or.inl hlist
          · exact Or.inr hlist
        · rw [not_or] at hempty
          exact Or.inr (.notList hunwrap hresult hlist hfalsy hne hempty.1 hempty.2)
  · rintro (⟨body, result, rfl, hunwrap, -, hlist⟩ | hdefault)
    · rcases hlist with hlist | hlist
      · exact ⟨_, readListing_some.mpr ⟨body, result, rfl, hunwrap, rfl, by simp [hlist]⟩, by rw [hlist]; rfl⟩
      · exact ⟨_, readListing_some.mpr ⟨body, result, rfl, hunwrap, rfl, by simp [hlist]⟩, by rw [hlist]; rfl⟩
    · cases hdefault with
      | @noResult body raw hunwrap hresult =>
        obtain ⟨body', hbody, hraw⟩ := unwrap_ok hunwrap
        obtain rfl := Json.obj.inj hbody
        rw [hresult, Option.getD_none] at hraw
        obtain rfl := hraw
        exact ⟨_, readListing_some.mpr ⟨body, [], rfl, hunwrap, rfl, by simp⟩, rfl⟩
      | @noList body result hunwrap hresult hlist =>
        exact ⟨_, readListing_some.mpr ⟨body, result, rfl, hunwrap, rfl, by simp [hlist]⟩, by rw [hlist]; rfl⟩
      | @notList body result j hunwrap hresult hlist hfalsy hnull hobj harr =>
        exact ⟨j, readListing_some.mpr ⟨body, result, rfl, hunwrap, by rw [hlist]; rfl, hnull⟩, hfalsy⟩

/-- An explicit list does not come from a default. -/
theorem ListsNone.not_defaulted {key : String} {answer : HttpOutcome} (h : ListsNone key answer) :
    ¬Defaulted key answer := by
  obtain ⟨body, result, rfl, -, hresult, hlist⟩ := h
  intro hdefault
  cases hdefault with
  | noResult _ hnone =>
    rw [hresult] at hnone
    cases hnone
  | noList _ hresult' hnone =>
    obtain rfl := Json.obj.inj (Option.some.inj (hresult.symm.trans hresult'))
    rcases hlist with hlist | hlist
    · rw [hlist] at hnone; cases hnone
    · rw [hlist] at hnone; cases hnone
  | notList _ hresult' hj _ _ hobj harr =>
    obtain rfl := Json.obj.inj (Option.some.inj (hresult.symm.trans hresult'))
    rcases hlist with hlist | hlist
    · exact hobj (Option.some.inj (hj.symm.trans hlist))
    · exact harr (Option.some.inj (hj.symm.trans hlist))

theorem FirstEcho.mem {clOrdId : String} {entries : List (String × Json)} {txid : String} {entry : Json}
    (h : FirstEcho clOrdId entries txid entry) : (txid, entry) ∈ entries ∧ Echoes clOrdId entry := by
  induction h with
  | here hecho => exact ⟨List.mem_cons_self, hecho⟩
  | later _ _ _ ih => exact ⟨List.mem_cons_of_mem _ ih.1, ih.2⟩
/-- The first entry that echoes the id is the one that is read. -/
theorem matchOrder_some {clOrdId : String} {entries : List (String × Json)} {k : OrderLookup} :
    matchOrder clOrdId entries = .ok (some k) ↔
      ∃ txid entry, FirstEcho clOrdId entries txid entry ∧ lookup txid entry = .ok k := by
  induction entries with
  | nil =>
    constructor
    · intro h
      cases h
    · rintro ⟨txid, entry, hfirst, -⟩
      cases hfirst
  | cons e rest ih =>
    obtain ⟨txid, entry⟩ := e
    rw [matchOrder]
    cases hget : entry.get "cl_ord_id" with
    | error x =>
      constructor
      · intro h
        cases h
      · rintro ⟨txid', entry', hfirst, -⟩
        cases hfirst with
        | here hecho =>
          obtain ⟨raw, hraw, -⟩ := hecho
          rw [hget] at hraw
          cases hraw
        | later hraw =>
          rw [hget] at hraw
          cases hraw
    | ok raw =>
      simp only [bind, Except.bind]
      by_cases hecho : echoes clOrdId raw = true
      · rw [if_pos hecho]
        constructor
        · intro h
          cases hl : lookup txid entry with
          | error x => rw [hl] at h; cases h
          | ok l =>
            rw [hl] at h
            obtain rfl := Option.some.inj (Except.ok.inj h)
            exact ⟨txid, entry, .here ⟨raw, hget, hecho⟩, hl⟩
        · rintro ⟨txid', entry', hfirst, hl⟩
          cases hfirst with
          | here _ => rw [hl]; rfl
          | later hraw hno =>
            obtain rfl := Except.ok.inj (hget.symm.trans hraw)
            rw [hecho] at hno
            cases hno
      · rw [if_neg hecho, ih]
        have hno : echoes clOrdId raw = false := by simpa using hecho
        constructor
        · rintro ⟨txid', entry', hfirst, hl⟩
          exact ⟨txid', entry', .later hget hno hfirst, hl⟩
        · rintro ⟨txid', entry', hfirst, hl⟩
          cases hfirst with
          | here hyes =>
            obtain ⟨raw', hraw', hyes⟩ := hyes
            obtain rfl := Except.ok.inj (hget.symm.trans hraw')
            exact absurd hyes hecho
          | later _ _ hrest => exact ⟨txid', entry', hrest, hl⟩

/-- What is read of an entry. -/
theorem lookup_ok {txid : String} {entry : Json} {k : OrderLookup} (h : lookup txid entry = .ok k) :
    (∃ raw, entry.get "status" = .ok raw ∧ k.status = some (mapOrderStatus (raw.getD .null).pyStr)) ∧
      ∃ raw, entry.get "vol_exec" = .ok raw ∧ k.volumeExecuted = asDecimal raw := by
  cases entry with
  | obj fields =>
    rw [lookup] at h
    simp only [Json.get] at h
    obtain rfl := Except.ok.inj h
    exact ⟨⟨_, rfl, rfl⟩, _, rfl, rfl⟩
  | _ => cases h

theorem gtZero_zero : (PyDecimal.finite .zero).gtZero = .ok false := by
  simp [PyDecimal.gtZero, Decimal.value_zero]

/-- Nothing is read as executed where that is stated, or where nothing positive is. -/
theorem asDecimal_zero {entry : Json} {raw : Option Json} (h : entry.get "vol_exec" = .ok raw) :
    (asDecimal raw).gtZero = .ok false ↔ States IsZero entry ∨ Unstated entry := by
  have hparse : PyDecimal.parse Json.null.pyStr = none := by decide
  cases raw with
  | none =>
    rw [asDecimal, Option.getD_none, hparse]
    exact ⟨fun _ => Or.inr (Or.inl h), fun _ => gtZero_zero⟩
  | some j =>
    rw [asDecimal, Option.getD_some]
    cases hj : PyDecimal.parse j.pyStr with
    | none => exact ⟨fun _ => Or.inr (Or.inr (Or.inl ⟨j, h, hj⟩)), fun _ => gtZero_zero⟩
    | some p =>
      have hread : ∀ good, States good entry ↔ good p := by
        intro good
        refine ⟨?_, fun hp => ⟨j, p, h, hj, hp⟩⟩
        rintro ⟨j', p', hget, hparsed, hgood⟩
        obtain rfl := Option.some.inj (Except.ok.inj (h.symm.trans hget))
        exact Option.some.inj (hj.symm.trans hparsed) ▸ hgood
      have hstated : Unstated entry ↔ BelowZero p := by
        rw [Unstated, hread]
        refine ⟨?_, fun hp => Or.inr (Or.inr hp)⟩
        rintro (hget | ⟨j', hget, hparsed⟩ | hp)
        · cases h.symm.trans hget
        · obtain rfl := Option.some.inj (Except.ok.inj (h.symm.trans hget))
          rw [hj] at hparsed
          cases hparsed
        · exact hp
      rw [hread, hstated, Option.getD_some]
      cases p with
      | finite d =>
        simp only [PyDecimal.gtZero, IsZero, BelowZero, Except.ok.injEq, decide_eq_false_iff_not, not_lt]
        rw [le_iff_eq_or_lt]
      | infinite negative => simp [PyDecimal.gtZero, IsZero, BelowZero]
      | nan => simp [PyDecimal.gtZero, IsZero, BelowZero]

theorem asDecimal_positive {entry : Json} {raw : Option Json} (h : entry.get "vol_exec" = .ok raw)
    (hgt : (asDecimal raw).gtZero = .ok true) : States (fun p => p.gtZero = .ok true) entry := by
  have hnone : (PyDecimal.finite .zero).gtZero ≠ .ok true := by
    rw [gtZero_zero]
    simp
  cases raw with
  | none =>
    have hparse : PyDecimal.parse Json.null.pyStr = none := by decide
    rw [asDecimal, Option.getD_none, hparse] at hgt
    exact absurd hgt hnone
  | some j =>
    rw [asDecimal, Option.getD_some] at hgt
    cases hj : PyDecimal.parse j.pyStr with
    | none =>
      rw [hj] at hgt
      exact absurd hgt hnone
    | some p =>
      rw [hj] at hgt
      exact ⟨j, p, h, hj, hgt⟩
theorem sight_found {clOrdId : String} {orders : Option Json} {k : OrderLookup} :
    sight clOrdId orders = .ok (.found k) ↔
      ∃ entries, orders = some (.obj entries) ∧ matchOrder clOrdId entries = .ok (some k) := by
  constructor
  · intro h
    cases orders with
    | none => cases h
    | some orders =>
      rcases sight_some h with ⟨hno, -⟩ | ⟨entries, hi, ⟨l, hl, hm⟩ | hno⟩
      · cases hno
      · obtain rfl := Sighting.found.inj hl
        cases orders with
        | obj fields =>
          obtain rfl := Except.ok.inj hi
          exact ⟨fields, rfl, hm⟩
        | _ => cases hi
      · cases hno
  · rintro ⟨entries, rfl, hm⟩
    cases entries with
    | nil => cases hm
    | cons e rest =>
      rw [sight]
      simp only [Json.truthy, List.isEmpty_cons, Bool.not_false, Bool.not_true, Bool.false_eq_true,
        if_false, Json.items, bind, Except.bind, hm]
      rfl

theorem sight_notHere {clOrdId : String} {orders : Option Json} :
    sight clOrdId orders = .ok .notHere ↔ ∃ listing, orders = some listing ∧ listing.truthy = false := by
  constructor
  · intro h
    cases orders with
    | none => cases h
    | some orders =>
      rcases sight_some h with ⟨-, hfalsy⟩ | ⟨entries, hi, ⟨l, hl, hm⟩ | hno⟩
      · exact ⟨orders, rfl, hfalsy⟩
      · cases hl
      · cases hno
  · rintro ⟨listing, rfl, hfalsy⟩
    rw [sight, hfalsy]
    rfl

/-- What an endpoint's answer shows of the order. -/
def seenIn (clOrdId key : String) (answer : HttpOutcome) : Except PyError Sighting :=
  (readListing key answer).bind fun orders => sight clOrdId orders

theorem seenIn_ok {clOrdId key : String} {answer : HttpOutcome} {seen : Sighting} :
    seenIn clOrdId key answer = .ok seen ↔
      ∃ orders, readListing key answer = .ok orders ∧ sight clOrdId orders = .ok seen := by
  rw [seenIn]
  cases readListing key answer with
  | error e =>
    constructor
    · intro h
      cases h
    · rintro ⟨orders, horders, -⟩
      cases horders
  | ok orders =>
    constructor
    · intro h
      exact ⟨orders, rfl, h⟩
    · rintro ⟨orders', horders, h⟩
      obtain rfl := Except.ok.inj horders
      exact h

theorem seenIn_found {clOrdId key : String} {answer : HttpOutcome} {k : OrderLookup} :
    seenIn clOrdId key answer = .ok (.found k) ↔
      ∃ entries txid entry, readListing key answer = .ok (some (.obj entries)) ∧
        FirstEcho clOrdId entries txid entry ∧ lookup txid entry = .ok k := by
  rw [seenIn_ok]
  constructor
  · rintro ⟨orders, hread, hsight⟩
    obtain ⟨entries, rfl, hm⟩ := sight_found.mp hsight
    obtain ⟨txid, entry, hfirst, hl⟩ := matchOrder_some.mp hm
    exact ⟨entries, txid, entry, hread, hfirst, hl⟩
  · rintro ⟨entries, txid, entry, hread, hfirst, hl⟩
    exact ⟨_, hread, sight_found.mpr ⟨entries, rfl, matchOrder_some.mpr ⟨txid, entry, hfirst, hl⟩⟩⟩

theorem seenIn_notHere {clOrdId key : String} {answer : HttpOutcome} :
    seenIn clOrdId key answer = .ok .notHere ↔ ListsNone key answer ∨ Defaulted key answer := by
  rw [seenIn_ok, ← readListing_falsy]
  constructor
  · rintro ⟨orders, hread, hsight⟩
    obtain ⟨listing, rfl, hfalsy⟩ := sight_notHere.mp hsight
    exact ⟨listing, hread, hfalsy⟩
  · rintro ⟨listing, hread, hfalsy⟩
    exact ⟨_, hread, sight_notHere.mpr ⟨listing, rfl, hfalsy⟩⟩

/-! ## Calls that end as given -/

/-- How each call of a key ends. -/
abbrev Replies : Type := PrivateCall → HttpOutcome

/-- The client of a key whose calls end as given. -/
def replying (replies : Replies) : KrakenClient (Except PyError) where
  post r := .ok (replies r)
  raise e := .error e

theorem read_replying {replies : Replies} {α : Type} (r : PrivateCall)
    (reader : HttpOutcome → Except PyError α) : KrakenClient.read (replying replies) r reader = reader (replies r) := by
  cases h : reader (replies r) with
  | ok a => simp only [KrakenClient.read, replying, bind, Except.bind, h]; rfl
  | error e => simp only [KrakenClient.read, replying, bind, Except.bind, h]

section Lookups

variable (replies : Replies) (clOrdId : String)

def openReply : HttpOutcome := replies (.openOrders (some clOrdId))

def closedReply : HttpOutcome := replies (.closedOrders (some clOrdId))

/-- Closed orders are asked for when the open ones did not have the order. -/
def AsksClosed : Prop :=
  ∃ orders seen, readListing "open" (openReply replies clOrdId) = .ok orders ∧
    sight clOrdId orders = .ok seen ∧ ∀ k, seen ≠ .found k

variable {replies clOrdId}

/-- The loop over the endpoints, one at a time. -/
theorem findIn_cons {clOrdId : String} (fetch : String → Except PyError (Option Json))
    (rest : List (String → Except PyError (Option Json))) (unresolved : Bool) :
    findIn (replying replies) clOrdId (fetch :: rest) unresolved =
      match (fetch clOrdId).bind fun orders => sight clOrdId orders with
      | .error e => .error e
      | .ok .unresolved => findIn (replying replies) clOrdId rest true
      | .ok .notHere => findIn (replying replies) clOrdId rest unresolved
      | .ok (.found k) => .ok (some k) := by
  rw [findIn]
  cases fetch clOrdId with
  | error e => rfl
  | ok orders =>
    simp only [bind, Except.bind]
    cases sight clOrdId orders with
    | error e => rfl
    | ok seen => cases seen <;> rfl

/-- What is seen with the open orders. -/
theorem openOrders_seen :
    ((openOrders (replying replies) clOrdId).bind fun orders => sight clOrdId orders) =
      seenIn clOrdId "open" (openReply replies clOrdId) := by
  rw [openOrders, read_replying]
  rfl

/-- What is seen with the closed orders. -/
theorem closedOrders_seen :
    ((closedOrders (replying replies) clOrdId).bind fun orders => sight clOrdId orders) =
      seenIn clOrdId "closed" (closedReply replies clOrdId) := by
  rw [closedOrders, read_replying]
  rfl

/-- The loop with the closed orders left to ask for. -/
theorem findIn_closed {unresolved : Bool} {k : OrderLookup} :
    findIn (replying replies) clOrdId [closedOrders (replying replies)] unresolved = .ok (some k) ↔
      seenIn clOrdId "closed" (closedReply replies clOrdId) = .ok (.found k) ∨
        (unresolved = false ∧ k = ABSENT ∧
          seenIn clOrdId "closed" (closedReply replies clOrdId) = .ok .notHere) := by
  rw [findIn_cons, closedOrders_seen]
  cases seenIn clOrdId "closed" (closedReply replies clOrdId) with
  | error e => simp
  | ok seen =>
    cases seen with
    | unresolved => simp [findIn, pure, Except.pure]
    | notHere =>
      cases unresolved with
      | true => simp [findIn, pure, Except.pure]
      | false => simp [findIn, pure, Except.pure, eq_comm]
    | found k' => simp

theorem asksClosed_iff : AsksClosed replies clOrdId ↔
    ∃ seen, seenIn clOrdId "open" (openReply replies clOrdId) = .ok seen ∧ ∀ k, seen ≠ .found k := by
  constructor
  · rintro ⟨orders, seen, hread, hsight, hno⟩
    exact ⟨seen, seenIn_ok.mpr ⟨orders, hread, hsight⟩, hno⟩
  · rintro ⟨seen, hseen, hno⟩
    obtain ⟨orders, hread, hsight⟩ := seenIn_ok.mp hseen
    exact ⟨orders, seen, hread, hsight, hno⟩

/-- A lookup by client id finds the order with the open ones, or with the closed ones when it was not
with the open ones, or nowhere. -/
theorem findOrderByClOrdId_some {k : OrderLookup} :
    findOrderByClOrdId (replying replies) clOrdId = .ok (some k) ↔
      seenIn clOrdId "open" (openReply replies clOrdId) = .ok (.found k) ∨
      (AsksClosed replies clOrdId ∧ seenIn clOrdId "closed" (closedReply replies clOrdId) = .ok (.found k)) ∨
      (k = ABSENT ∧ seenIn clOrdId "open" (openReply replies clOrdId) = .ok .notHere ∧
        seenIn clOrdId "closed" (closedReply replies clOrdId) = .ok .notHere) := by
  rw [findOrderByClOrdId, findIn_cons, openOrders_seen, asksClosed_iff]
  cases seenIn clOrdId "open" (openReply replies clOrdId) with
  | error e => simp
  | ok seen =>
    cases seen with
    | unresolved => simp [findIn_closed]
    | notHere => simp [findIn_closed]
    | found k' => simp

end Lookups

end Coinpilot.Exchange
