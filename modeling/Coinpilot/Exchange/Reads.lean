import Coinpilot.Exchange.Public
import Coinpilot.Exchange.Answers

/-!
# Which answers the reads get through

`safely` turns a failed call into `none`, and the readers go on from there over whatever the result is.
`ClientRead` lists the reads of a client. For each of them `Readable` says of the answers alone which
shapes its reader gets through, and a read returns exactly on those (`returns_iff_readable`).
-/

set_option autoImplicit false

namespace Coinpilot.Exchange

open Coinpilot.Lib

/-! ## Numbers of places -/

/-- A value that `int` takes. -/
def Converts : Json → Prop
  | .int _ => True
  | .bool _ => True
  | .float repr => ∃ d, PyDecimal.parse repr = some (.finite d)
  | .str text => ∃ n, parseInt text = some n
  | _ => False

/-- A float that is an infinity. -/
def IsInfinite : Json → Prop
  | .float repr => ∃ negative, PyDecimal.parse repr = some (.infinite negative)
  | _ => False

theorem toInt_ok {j : Json} : (∃ n, toInt j = .ok n) ↔ Converts j := by
  cases j with
  | int n => exact ⟨fun _ => trivial, fun _ => ⟨n, rfl⟩⟩
  | bool b => exact ⟨fun _ => trivial, fun _ => ⟨_, rfl⟩⟩
  | float repr =>
    rw [toInt, Converts]
    cases PyDecimal.parse repr with
    | none => simp
    | some p => cases p <;> simp
  | str text =>
    rw [toInt, Converts]
    cases parseInt text <;> simp
  | _ => simp [toInt, Converts]

/-- What `int` raises. Only an infinity is an overflow. -/
theorem toInt_error {j : Json} {e : PyError} (he : skipsPair e = false) :
    toInt j = .error e ↔ e = .overflowError ∧ IsInfinite j := by
  cases j with
  | float repr =>
    rw [toInt, IsInfinite]
    cases PyDecimal.parse repr with
    | none => cases e <;> simp_all [skipsPair]
    | some p => cases p <;> cases e <;> simp_all [skipsPair]
  | str text =>
    rw [toInt, show IsInfinite (.str text) = False from rfl]
    cases parseInt text <;> cases e <;> simp_all [skipsPair]
  | _ => cases e <;> simp_all [toInt, IsInfinite, skipsPair]

/-! ## The fields of a pair -/

/-- What becomes of a field of a pair. -/
inductive FieldKind where
  | text
  | places
  | amount

/-- The fields of a pair, in the order in which they are read. -/
def PAIR_FIELDS : List (String × FieldKind) :=
  [("altname", .text), ("base", .text), ("quote", .text), ("pair_decimals", .places),
    ("lot_decimals", .places), ("ordermin", .amount), ("costmin", .amount), ("status", .text),
    ("cost_decimals", .places)]

/-- A value that a field of this kind can have. -/
def FieldKind.Reads : FieldKind → Json → Prop
  | .text, _ => True
  | .places, j => Converts j
  | .amount, j => ∃ d, PyDecimal.parse j.pyStr = some d

/-- The first field that cannot be read is a number of places, and infinite. -/
inductive InfiniteFirst (entry : Json) : List (String × FieldKind) → Prop where
  | here {key : String} {j : Json} {rest : List (String × FieldKind)} : item entry key = .ok j →
      IsInfinite j → InfiniteFirst entry ((key, .places) :: rest)
  | later {key : String} {kind : FieldKind} {j : Json} {rest : List (String × FieldKind)} :
      item entry key = .ok j → kind.Reads j → InfiniteFirst entry rest →
      InfiniteFirst entry ((key, kind) :: rest)

theorem item_error {entry : Json} {key : String} {e : PyError} (h : item entry key = .error e) :
    skipsPair e = true := by
  cases entry with
  | obj fields =>
    rw [item] at h
    cases hlookup : fields.lookup key with
    | none => rw [hlookup] at h; cases h; rfl
    | some j => rw [hlookup] at h; cases h
  | _ => cases h; rfl

theorem not_infinite_of_converts {j : Json} (h : Converts j) : ¬IsInfinite j := by
  cases j with
  | float repr =>
    obtain ⟨d, hd⟩ := h
    rintro ⟨negative, hinf⟩
    rw [hd] at hinf
    cases hinf
  | _ => exact id

section Fields

variable {α : Type} {entry : Json} {e : PyError} (he : skipsPair e = false) {key : String}
  {rest : List (String × FieldKind)}

include he

/-- One field, and the others after it. `conv` is what is done to its value. -/
theorem field_error {β : Type} {kind : FieldKind} (conv : Json → Except PyError β)
    (hok : ∀ j, (∃ b, conv j = .ok b) ↔ kind.Reads j)
    (herror : ∀ j, conv j = .error e ↔ e = .overflowError ∧ kind = .places ∧ IsInfinite j)
    {f : β → Except PyError α}
    (hf : ∀ b, f b = .error e ↔ e = .overflowError ∧ InfiniteFirst entry rest) :
    (item entry key).bind (fun j => (conv j).bind f) = .error e ↔
      e = .overflowError ∧ InfiniteFirst entry ((key, kind) :: rest) := by
  cases hitem : item entry key with
  | error x =>
    constructor
    · intro h
      obtain rfl := Except.error.inj h
      rw [item_error hitem] at he
      cases he
    · rintro ⟨-, h⟩
      cases h with
      | here hj => rw [hitem] at hj; cases hj
      | later hj => rw [hitem] at hj; cases hj
  | ok j =>
    change (conv j).bind f = .error e ↔ _
    cases hconv : conv j with
    | error x =>
      have hreads : ¬kind.Reads j := by
        rw [← hok j, hconv]
        rintro ⟨b, hb⟩
        cases hb
      constructor
      · intro h
        obtain rfl := Except.error.inj h
        obtain ⟨rfl, rfl, hinf⟩ := (herror j).mp hconv
        exact ⟨rfl, .here hitem hinf⟩
      · rintro ⟨rfl, h⟩
        cases h with
        | here hj hinf =>
          obtain rfl := Except.ok.inj (hitem.symm.trans hj)
          obtain rfl := Except.error.inj (hconv.symm.trans ((herror _).mpr ⟨rfl, rfl, hinf⟩))
          rfl
        | later hj hread =>
          obtain rfl := Except.ok.inj (hitem.symm.trans hj)
          exact absurd hread hreads
    | ok b =>
      have hreads : kind.Reads j := (hok j).mp ⟨b, hconv⟩
      change f b = .error e ↔ _
      rw [hf b]
      constructor
      · rintro ⟨rfl, h⟩
        exact ⟨rfl, .later hitem hreads h⟩
      · rintro ⟨rfl, h⟩
        cases h with
        | here hj hinf =>
          obtain rfl := Except.ok.inj (hitem.symm.trans hj)
          exact absurd hinf (not_infinite_of_converts hreads)
        | later _ _ h => exact ⟨rfl, h⟩

/-- A text may be any value. -/
theorem text_error {f : Json → Except PyError α}
    (hf : ∀ j, f j = .error e ↔ e = .overflowError ∧ InfiniteFirst entry rest) :
    (item entry key).bind f = .error e ↔
      e = .overflowError ∧ InfiniteFirst entry ((key, .text) :: rest) := by
  refine field_error he (fun j => .ok j) (fun j => ?_) (fun j => ?_) hf
  · exact ⟨fun _ => trivial, fun _ => ⟨j, rfl⟩⟩
  · simp

theorem places_error {f : Int → Except PyError α}
    (hf : ∀ n, f n = .error e ↔ e = .overflowError ∧ InfiniteFirst entry rest) :
    (item entry key).bind (fun j => (toInt j).bind f) = .error e ↔
      e = .overflowError ∧ InfiniteFirst entry ((key, .places) :: rest) := by
  refine field_error he toInt (fun j => toInt_ok) (fun j => ?_) hf
  rw [toInt_error he]
  simp

theorem amount_error {f : PyDecimal → Except PyError α}
    (hf : ∀ d, f d = .error e ↔ e = .overflowError ∧ InfiniteFirst entry rest) :
    (item entry key).bind (fun j => (toDecimal j).bind f) = .error e ↔
      e = .overflowError ∧ InfiniteFirst entry ((key, .amount) :: rest) := by
  refine field_error he toDecimal (fun j => ?_) (fun j => ?_) hf
  · rw [toDecimal, FieldKind.Reads]
    cases PyDecimal.parse j.pyStr <;> simp
  · rw [toDecimal]
    cases PyDecimal.parse j.pyStr with
    | none => cases e <;> simp_all [skipsPair]
    | some d => simp

/-- An exception that does not skip the pair is an overflow, of the first field that cannot be read. -/
theorem readPair_error {name : String} :
    readPair name entry = .error e ↔ e = .overflowError ∧ InfiniteFirst entry PAIR_FIELDS := by
  have hend : ∀ p : ReadPair, (Except.ok p : Except PyError ReadPair) = .error e ↔
      e = .overflowError ∧ InfiniteFirst entry [] := by
    intro p
    constructor
    · intro h
      cases h
    · rintro ⟨-, h⟩
      cases h
  exact text_error he fun _ => text_error he fun _ => text_error he fun _ =>
    places_error he fun _ => places_error he fun _ =>
    amount_error he fun _ => amount_error he fun _ =>
    text_error he fun _ => places_error he fun _ => hend _

end Fields

/-- A pair is kept, or skipped, except where that overflow is raised. -/
theorem keepPair_returns {name : String} {entry : Json} :
    (∃ kept, keepPair name entry = .ok kept) ↔ ¬InfiniteFirst entry PAIR_FIELDS := by
  have hoverflow : readPair name entry = .error .overflowError ↔ _ := readPair_error rfl
  rw [keepPair]
  cases hread : readPair name entry with
  | ok p =>
    rw [hread] at hoverflow
    exact ⟨fun _ h => (by cases hoverflow.mpr ⟨rfl, h⟩), fun _ => ⟨_, rfl⟩⟩
  | error e =>
    change (∃ kept, (if skipsPair e = true then Except.ok none else Except.error e) = .ok kept) ↔ _
    cases hskip : skipsPair e with
    | true =>
      refine ⟨fun _ h => ?_, fun _ => ⟨_, rfl⟩⟩
      rw [hread] at hoverflow
      obtain rfl := Except.error.inj (hoverflow.mpr ⟨rfl, h⟩)
      cases hskip
    | false =>
      constructor
      · rintro ⟨kept, h⟩
        cases h
      · exact fun h => absurd ((readPair_error hskip).mp hread).2 h

/-! ## The entries of the other answers -/

/-- `c` is missing or false, or a list, or a text. -/
def PriceReads (entry : Json) : Prop :=
  ∃ fields, entry = .obj fields ∧ ∀ c, fields.lookup "c" = some c → c.truthy = true →
    (∃ items, c = .arr items) ∨ ∃ text, c = .str text

theorem firstOf_returns {c : Option Json} :
    (∃ first, firstOf c = .ok first) ↔
      ∀ j, c = some j → j.truthy = true → (∃ items, j = .arr items) ∨ ∃ text, j = .str text := by
  cases c with
  | none => simp [firstOf]
  | some c =>
    cases htruthy : c.truthy with
    | false =>
      refine ⟨fun _ j hj hyes => ?_, fun _ => ⟨.null, by unfold firstOf; simp [htruthy]⟩⟩
      obtain rfl := Option.some.inj hj
      rw [htruthy] at hyes
      cases hyes
    | true =>
      unfold firstOf
      cases c with
      | arr items =>
        cases items with
        | nil => cases htruthy
        | cons x rest => simp [htruthy]
      | str text => simp [htruthy]
      | _ => simp [htruthy]

theorem keepPrice_returns {name : String} {entry : Json} :
    (∃ kept, keepPrice name entry = .ok kept) ↔ PriceReads entry := by
  cases entry with
  | obj fields =>
    have hfirst := firstOf_returns (c := fields.lookup "c")
    rw [keepPrice, PriceReads]
    simp only [Json.get, bind, Except.bind, pure, Except.pure, Json.obj.injEq, exists_eq_left', ← hfirst]
    cases firstOf (fields.lookup "c") <;> simp
  | _ => simp [keepPrice, PriceReads, Json.get, bind, Except.bind]

/-- An asset with a name and a number of places that is there has one that `int` takes. -/
def PlacesRead (entry : Json) : Prop :=
  ∀ altname decimals, altnameOf entry = some altname → decimalsOf entry = some decimals →
    Converts decimals

theorem keepPlaces_returns {name : String} {entry : Json} :
    (∃ kept, keepPlaces name entry = .ok kept) ↔ PlacesRead entry := by
  rw [keepPlaces, PlacesRead]
  cases altnameOf entry with
  | none => simp
  | some altname =>
    cases decimalsOf entry with
    | none => simp
    | some decimals =>
      have hthere : (∀ a d, some altname = some a → some decimals = some d → Converts d) ↔
          Converts decimals :=
        ⟨fun h => h altname decimals rfl rfl, fun h a d _ hd => Option.some.inj hd ▸ h⟩
      rw [hthere, ← toInt_ok]
      change (∃ kept, ((toInt decimals).bind fun n => .ok (some (altname.pyStr, n))) = .ok kept) ↔ _
      cases toInt decimals <;> simp [Except.bind]

theorem readBalance_returns {answer : HttpOutcome} :
    (∃ read, readBalance answer = .ok read) ↔ ObjectResult answer := by
  rw [readBalance]
  cases h : safely answer with
  | none => exact ⟨fun _ => objectResult_none h, fun _ => ⟨none, rfl⟩⟩
  | some raw =>
    rw [objectResult_some h]
    cases raw <;> simp [Json.items, bind, Except.bind, pure, Except.pure]

theorem readQueried_returns {answer : HttpOutcome} :
    (∃ read, readQueried answer = .ok read) ↔ ObjectResult answer := by
  rw [readQueried]
  cases h : safely answer with
  | none => exact ⟨fun _ => objectResult_none h, fun _ => ⟨none, rfl⟩⟩
  | some raw =>
    rw [objectResult_some h]
    cases raw <;> simp [Json.items, bind, Except.bind, pure, Except.pure]

/-! ## Listings -/

/-- The entries are read up to the first that echoes the id, or all of them. -/
theorem matchOrder_returns {clOrdId : String} {entries : List (String × Json)} :
    (∃ k, matchOrder clOrdId entries = .ok k) ↔
      (∀ e ∈ entries, e.2.isObject = true) ∨ ∃ txid entry, FirstEcho clOrdId entries txid entry := by
  induction entries with
  | nil => exact ⟨fun _ => Or.inl fun e he => absurd he List.not_mem_nil, fun _ => ⟨none, rfl⟩⟩
  | cons e rest ih =>
    obtain ⟨txid, entry⟩ := e
    rw [matchOrder, List.forall_mem_cons]
    cases entry with
    | obj fields =>
      change (∃ k, (if echoes clOrdId (fields.lookup "cl_ord_id") = true then _ else _) = _) ↔ _
      by_cases hecho : echoes clOrdId (fields.lookup "cl_ord_id") = true
      · rw [if_pos hecho]
        exact ⟨fun _ => Or.inr ⟨txid, _, .here ⟨_, rfl, hecho⟩⟩, fun _ => ⟨_, rfl⟩⟩
      · have hno : echoes clOrdId (fields.lookup "cl_ord_id") = false := by simpa using hecho
        rw [if_neg hecho, ih]
        constructor
        · rintro (hall | ⟨txid', entry', hfirst⟩)
          · exact Or.inl ⟨rfl, hall⟩
          · exact Or.inr ⟨txid', entry', .later rfl hno hfirst⟩
        · rintro (⟨-, hall⟩ | ⟨txid', entry', hfirst⟩)
          · exact Or.inl hall
          · cases hfirst with
            | here hyes =>
              obtain ⟨raw, hraw, hyes⟩ := hyes
              obtain rfl := Except.ok.inj hraw
              exact absurd hyes hecho
            | later _ _ hrest => exact Or.inr ⟨txid', entry', hrest⟩
    | _ =>
      constructor
      · rintro ⟨k, h⟩
        cases h
      · rintro (⟨h, -⟩ | ⟨txid', entry', hfirst⟩)
        · cases h
        · cases hfirst with
          | here hyes =>
            obtain ⟨raw, hraw, -⟩ := hyes
            cases hraw
          | later hraw => cases hraw

/-- A listing that is empty, or an object whose entries are objects as far as they are read. -/
def ListingReads (clOrdId : String) (listing : Json) : Prop :=
  listing.truthy = true → ∃ entries, listing = .obj entries ∧
    ((∀ e ∈ entries, e.2.isObject = true) ∨ ∃ txid entry, FirstEcho clOrdId entries txid entry)

theorem sight_returns {clOrdId : String} {listing : Json} :
    (∃ seen, sight clOrdId (some listing) = .ok seen) ↔ ListingReads clOrdId listing := by
  rw [sight, ListingReads]
  cases htruthy : listing.truthy with
  | false => simp
  | true =>
    simp only [Bool.not_true, Bool.false_eq_true, if_false, forall_const]
    cases listing with
    | obj entries =>
      have hreads : (∃ k, matchOrder clOrdId entries = .ok k) ↔ _ := matchOrder_returns
      change (∃ seen, (matchOrder clOrdId entries).bind _ = .ok seen) ↔ _
      cases hmatch : matchOrder clOrdId entries with
      | error e =>
        rw [hmatch] at hreads
        constructor
        · rintro ⟨seen, h⟩
          cases h
        · rintro ⟨entries', hentries, h⟩
          obtain rfl := Json.obj.inj hentries
          obtain ⟨k, hk⟩ := hreads.mpr h
          cases hk
      | ok k =>
        refine ⟨fun _ => ⟨entries, rfl, hreads.mp ⟨k, hmatch⟩⟩, fun _ => ?_⟩
        cases k with
        | none => exact ⟨_, rfl⟩
        | some k => exact ⟨_, rfl⟩
    | _ =>
      constructor
      · rintro ⟨seen, h⟩
        cases h
      · rintro ⟨entries, h, -⟩
        cases h

theorem readListing_returns {key : String} {answer : HttpOutcome} :
    (∃ orders, readListing key answer = .ok orders) ↔ ObjectResult answer := by
  rw [readListing]
  cases h : safely answer with
  | none => exact ⟨fun _ => objectResult_none h, fun _ => ⟨none, rfl⟩⟩
  | some raw =>
    rw [objectResult_some h]
    cases raw <;> simp [Json.get, bind, Except.bind, pure, Except.pure]

/-- The answer to a request for orders, read for one id. -/
def AnswerReads (clOrdId key : String) (answer : HttpOutcome) : Prop :=
  ObjectResult answer ∧ ∀ fields listing, safely answer = some (.obj fields) →
    fields.lookup key = some listing → ListingReads clOrdId listing

/-- The order is shown among the orders of an answer. -/
def Shows (clOrdId key : String) (answer : HttpOutcome) : Prop :=
  ∃ fields entries txid entry, safely answer = some (.obj fields) ∧
    fields.lookup key = some (.obj entries) ∧ FirstEcho clOrdId entries txid entry

theorem readListing_obj {key : String} {answer : HttpOutcome} {fields : List (String × Json)}
    (h : safely answer = some (.obj fields)) :
    readListing key answer = .ok ((fields.lookup key).getD (.obj [])).notNone := by
  rw [readListing, h]
  rfl

theorem seenIn_returns {clOrdId key : String} {answer : HttpOutcome} :
    (∃ seen, seenIn clOrdId key answer = .ok seen) ↔ AnswerReads clOrdId key answer := by
  have hreturns : (∃ orders, readListing key answer = .ok orders) ↔ _ := readListing_returns
  by_cases hobj : ObjectResult answer
  · cases h : safely answer with
    | none =>
      have hread : readListing key answer = .ok none := by rw [readListing, h]
      refine iff_of_true ⟨.unresolved, seenIn_ok.mpr ⟨none, hread, rfl⟩⟩ ⟨hobj, ?_⟩
      intro fields listing hfields
      rw [h] at hfields
      cases hfields
    | some raw =>
      obtain ⟨fields, rfl⟩ := (objectResult_some h).mp hobj
      have hanswer : AnswerReads clOrdId key answer ↔
          ListingReads clOrdId ((fields.lookup key).getD (.obj [])) := by
        constructor
        · rintro ⟨-, hall⟩
          cases hlookup : fields.lookup key with
          | none => exact fun htruthy => by cases htruthy
          | some listing => exact hall fields listing h hlookup
        · intro hlisting
          refine ⟨hobj, fun fields' listing hfields hlookup => ?_⟩
          obtain rfl := Json.obj.inj (Option.some.inj (h.symm.trans hfields))
          rw [hlookup] at hlisting
          exact hlisting
      rw [hanswer, seenIn, readListing_obj h]
      cases (fields.lookup key).getD (.obj []) with
      | null => exact iff_of_true ⟨.unresolved, rfl⟩ fun htruthy => by cases htruthy
      | _ => exact sight_returns
  · refine iff_of_false ?_ fun h => hobj h.1
    rintro ⟨seen, hseen⟩
    obtain ⟨orders, hread, -⟩ := seenIn_ok.mp hseen
    exact hobj (hreturns.mp ⟨orders, hread⟩)

/-- The order is found exactly where it is shown. -/
theorem shows_iff {clOrdId key : String} {answer : HttpOutcome} :
    Shows clOrdId key answer ↔ ∃ k, seenIn clOrdId key answer = .ok (.found k) := by
  constructor
  · rintro ⟨fields, entries, txid, entry, h, hlookup, hfirst⟩
    have hread : readListing key answer = .ok (some (.obj entries)) := by
      rw [readListing_obj h, hlookup]
      rfl
    obtain ⟨-, raw, hraw, -⟩ := hfirst.mem
    cases entry with
    | obj entry => exact ⟨_, seenIn_found.mpr ⟨entries, txid, .obj entry, hread, hfirst, rfl⟩⟩
    | _ => cases hraw
  · rintro ⟨k, hseen⟩
    obtain ⟨entries, txid, entry, hread, hfirst, -⟩ := seenIn_found.mp hseen
    cases h : safely answer with
    | none =>
      rw [readListing, h] at hread
      cases hread
    | some raw =>
      obtain ⟨fields, rfl⟩ := (objectResult_some h).mp (readListing_returns.mp ⟨_, hread⟩)
      rw [readListing_obj h] at hread
      have horders := (Json.notNone_eq_some.mp (Except.ok.inj hread)).1
      cases hlookup : fields.lookup key with
      | none =>
        rw [hlookup] at horders
        obtain rfl := Json.obj.inj horders
        cases hfirst
      | some listing =>
        rw [hlookup] at horders
        obtain rfl := horders
        exact ⟨fields, entries, txid, entry, h, hlookup, hfirst⟩

section Lookups

variable {replies : Replies} {clOrdId : String}

theorem findIn_closed_returns {unresolved : Bool} :
    (∃ k, findIn (replying replies) clOrdId [closedOrders (replying replies)] unresolved = .ok k) ↔
      ∃ seen, seenIn clOrdId "closed" (closedReply replies clOrdId) = .ok seen := by
  rw [findIn_cons, closedOrders_seen]
  cases seenIn clOrdId "closed" (closedReply replies clOrdId) with
  | error e => simp
  | ok seen => cases seen <;> simp [findIn, pure, Except.pure]

/-- The closed orders must be readable only where the open ones do not show the order. -/
theorem findOrderByClOrdId_returns :
    (∃ k, findOrderByClOrdId (replying replies) clOrdId = .ok k) ↔
      AnswerReads clOrdId "open" (openReply replies clOrdId) ∧
        (Shows clOrdId "open" (openReply replies clOrdId) ∨
          AnswerReads clOrdId "closed" (closedReply replies clOrdId)) := by
  rw [findOrderByClOrdId, findIn_cons, openOrders_seen, shows_iff, ← seenIn_returns, ← seenIn_returns]
  cases seenIn clOrdId "open" (openReply replies clOrdId) with
  | error e => simp
  | ok seen =>
    cases seen with
    | unresolved => simp [findIn_closed_returns]
    | notHere => simp [findIn_closed_returns]
    | found k => simp

/-- What is kept of the answer is objects, and of an object every field can be asked for. -/
theorem pickQueried_objects {txid : String} {entries : List (String × Json)}
    (h : ∀ e ∈ entries, e.2.isObject = true) : ∃ k, pickQueried txid (some entries) = .ok k := by
  rw [pickQueried]
  cases hlookup : entries.lookup txid with
  | none => exact ⟨none, rfl⟩
  | some order =>
    obtain ⟨before, after, rfl, -⟩ := List.lookup_eq_some_iff.mp hlookup
    have horder := h (txid, order) (List.mem_append_right _ List.mem_cons_self)
    cases order with
    | obj fields => exact ⟨_, rfl⟩
    | _ => cases horder

theorem findOrderByTxid_returns {txid : String} :
    (∃ k, findOrderByTxid (replying replies) txid = .ok k) ↔
      ObjectResult (replies (.queryOrders txid)) := by
  rw [findOrderByTxid, queryOrders, read_replying, readQueried]
  cases h : safely (replies (.queryOrders txid)) with
  | none => exact ⟨fun _ => objectResult_none h, fun _ => ⟨none, rfl⟩⟩
  | some raw =>
    rw [objectResult_some h]
    cases raw with
    | obj entries =>
      obtain ⟨k, hk⟩ := @pickQueried_objects txid (entries.filter fun e => e.2.isObject)
        fun e he => (List.mem_filter.mp he).2
      refine ⟨fun _ => ⟨entries, rfl⟩, fun _ => ⟨k, ?_⟩⟩
      simp only [Json.items, bind, Except.bind, pure, Except.pure, hk]
    | _ => simp [Json.items, bind, Except.bind]

end Lookups

/-! ## The reads of a client -/

/-- A read of a client with credentials, and the placing of an order. -/
inductive ClientRead where
  | assets
  | assetDecimals
  | assetPairs
  | ticker
  | balance
  | openOrders (clOrdId : Option String)
  | closedOrders (clOrdId : Option String)
  | queryOrders (txid : String)
  | findOrderByClOrdId (clOrdId : String)
  | findOrderByTxid (txid : String)
  | addOrder (pair side : String) (volume : Decimal) (clOrdId : String) (inQuote validate : Bool)

namespace ClientRead

variable (data : HttpOutcome) (replies : Replies)

/-- It returns, with a value or with `none`, when a public call ends as `data` and the private ones as
given. -/
def Returns : ClientRead → Prop
  | assets => ∃ read, readAssets data = .ok read
  | assetDecimals => ∃ read, readAssetDecimals data = .ok read
  | assetPairs => ∃ read, readAssetPairs data = .ok read
  | ticker => ∃ read, readTicker data = .ok read
  | balance => ∃ read, Exchange.balance (replying replies) = .ok read
  | openOrders clOrdId =>
      ∃ read, (replying replies).read (.openOrders clOrdId) (readListing "open") = .ok read
  | closedOrders clOrdId =>
      ∃ read, (replying replies).read (.closedOrders clOrdId) (readListing "closed") = .ok read
  | queryOrders txid => ∃ read, Exchange.queryOrders (replying replies) txid = .ok read
  | findOrderByClOrdId clOrdId => ∃ k, Exchange.findOrderByClOrdId (replying replies) clOrdId = .ok k
  | findOrderByTxid txid => ∃ k, Exchange.findOrderByTxid (replying replies) txid = .ok k
  | addOrder pair side volume clOrdId inQuote validate =>
      ∃ placement,
        Exchange.addOrder (replying replies) pair side volume clOrdId inQuote validate = .ok placement

/-- The answers have the shapes that its reader goes through. An order needs none, only its own
arguments must fit together. -/
def Readable : ClientRead → Prop
  | assets => ObjectResult data
  | assetDecimals => ObjectResult data ∧ EachEntry PlacesRead data
  | assetPairs => ObjectResult data ∧ EachEntry (fun entry => ¬InfiniteFirst entry PAIR_FIELDS) data
  | ticker => ObjectResult data ∧ EachEntry PriceReads data
  | balance => ObjectResult (replies .balance)
  | openOrders clOrdId => ObjectResult (replies (.openOrders clOrdId))
  | closedOrders clOrdId => ObjectResult (replies (.closedOrders clOrdId))
  | queryOrders txid => ObjectResult (replies (.queryOrders txid))
  | findOrderByClOrdId clOrdId =>
      AnswerReads clOrdId "open" (openReply replies clOrdId) ∧
        (Shows clOrdId "open" (openReply replies clOrdId) ∨
          AnswerReads clOrdId "closed" (closedReply replies clOrdId))
  | findOrderByTxid txid => ObjectResult (replies (.queryOrders txid))
  | addOrder _ side _ _ inQuote _ => inQuote = true → side = "buy"

variable {data replies}

/-- An answer without error whose result is an empty list. -/
def listResult : Replies := fun _ => .answered (.obj [("error", .arr []), ("result", .arr [])])

end ClientRead

end Coinpilot.Exchange
