import Coinpilot.Core.PublicMarket

/-!
# The prices of a tick are shared without coupling its users

Whatever the users of a tick ask and in what order, the market holds for each pair the first price that
the source gave (`ticker_inStep`). Over a source whose prices do not change, an answer is therefore what
the source would give for those pairs alone (`run_fixed`).
-/

set_option autoImplicit false

namespace Coinpilot.Scheduling.Prices

open Coinpilot.Core Coinpilot.Lib Coinpilot.Lib.ReadThrough

/-- A source answers only pairs that it is asked for. -/
def Honest (source : PriceSource) : Prop :=
  ∀ questions pairs fetched, source questions pairs = some fetched → ∀ pair ∈ fetched.keys, pair ∈ pairs

variable {source : PriceSource} {market : TickMarket}

/-- The market holds the first price that the source gave for each pair. -/
def Holds (market : TickMarket) : Prop := InStep market.prices market.questions

/-- How a call leaves the market: it holds the first prices, and the questions go on from those before. -/
structure Served (before after : TickMarket) : Prop where
  holds : Holds after
  goesOn : ∃ more, after.questions = before.questions ++ more

theorem Served.trans {a b c : TickMarket} (h : Served a b) (h' : Served b c) : Served a c where
  holds := h'.holds
  goesOn := by
    obtain ⟨more, hmore⟩ := h.goesOn
    obtain ⟨more', hmore'⟩ := h'.goesOn
    exact ⟨more ++ more', by rw [hmore', hmore, List.append_assoc]⟩

/-- A first price stays the first. -/
theorem Served.first {a b : TickMarket} (h : Served a b) {pair : String} {price : Decimal}
    (hprice : first a.questions pair = some price) : first b.questions pair = some price := by
  obtain ⟨more, hmore⟩ := h.goesOn
  rw [hmore]
  exact first_of_prefix hprice

theorem not_mem_keys_of_missing {pairs : List String} :
    ∀ pair ∈ market.missing pairs, pair ∉ market.prices.keys := by
  intro pair hpair
  exact of_decide_eq_true (List.mem_filter.mp hpair).2

/-- A call hands out prices that the market then holds. -/
theorem ticker_inStep (honest : Honest source) (h : Holds market) (pairs : List String) :
    Served market (market.ticker source pairs).2 ∧
      ∀ prices, (market.ticker source pairs).1 = some prices →
        prices = (market.ticker source pairs).2.prices.restrict pairs := by
  simp only [TickMarket.ticker]
  split_ifs with hmissing
  · refine ⟨⟨h, [], by simp⟩, ?_⟩
    intro prices hprices
    cases hprices
    rfl
  · cases hanswer : source market.questions (market.missing pairs) with
    | none =>
      refine ⟨⟨InStep.failed h not_mem_keys_of_missing, _, rfl⟩, ?_⟩
      intro prices hprices
      cases hprices
    | some fetched =>
      refine ⟨⟨InStep.answered h not_mem_keys_of_missing (honest _ _ _ hanswer), _, rfl⟩, ?_⟩
      intro prices hprices
      cases hprices
      rfl

/-- A failed read stores nothing. -/
theorem ticker_failed {pairs : List String} (h : (market.ticker source pairs).1 = none) :
    (market.ticker source pairs).2.prices = market.prices := by
  simp only [TickMarket.ticker] at h ⊢
  split_ifs at h ⊢ with hmissing
  cases hanswer : source market.questions (market.missing pairs) with
  | none => rfl
  | some fetched =>
    rw [hanswer] at h
    cases h

/-- Every price that a call hands out is the first that the source gave. -/
theorem perform_first (honest : Honest source) (h : Holds market) (call : MarketCall) :
    Served market (call.perform source market).2 ∧
      ∀ reply ∈ (call.perform source market).1, ∀ prices, reply = some prices →
        ∀ pair price, prices.get? pair = some price →
          first (call.perform source market).2.questions pair = some price := by
  cases call with
  | preload pairs =>
    exact ⟨(ticker_inStep honest h _).1, fun reply hreply => absurd hreply List.not_mem_nil⟩
  | ticker pairs =>
    obtain ⟨hserved, hprices⟩ := ticker_inStep honest h pairs
    refine ⟨hserved, ?_⟩
    intro reply hreply prices hsome pair price hget
    rw [List.mem_singleton.mp hreply] at hsome
    rw [hprices prices hsome, Dict.get?_restrict] at hget
    split_ifs at hget
    exact (hserved.holds.holds pair).symm.trans hget

/-- So is every price that a run of calls hands out. -/
theorem run_first (honest : Honest source) (h : Holds market) (calls : List MarketCall) :
    Served market (market.run source calls).2 ∧
      ∀ reply ∈ (market.run source calls).1, ∀ prices, reply = some prices →
        ∀ pair price, prices.get? pair = some price →
          first (market.run source calls).2.questions pair = some price := by
  induction calls generalizing market with
  | nil => exact ⟨⟨h, [], (List.append_nil _).symm⟩, fun reply hreply => absurd hreply List.not_mem_nil⟩
  | cons call rest ih =>
    obtain ⟨hserved, hfirst⟩ := perform_first honest h call
    obtain ⟨hrest, hothers⟩ := ih hserved.holds
    refine ⟨hserved.trans hrest, ?_⟩
    intro reply hreply prices hsome pair price hget
    rcases List.mem_append.mp hreply with hnow | hlater
    · exact hrest.first (hfirst reply hnow prices hsome pair price hget)
    · exact hothers reply hlater prices hsome pair price hget

/-! ## A source whose prices do not change -/

/-- The source as a tick asks it. -/
def asSource (fixed : FixedSource) : PriceSource := fun _ pairs => fixed.ticker pairs

/-- What a call is owed: the answer of the source to its pairs alone. -/
def owed (fixed : FixedSource) : MarketCall → List (Option (Dict String Decimal))
  | .preload _ => []
  | .ticker pairs => [fixed.ticker pairs]

variable {fixed : FixedSource}

/-- The market holds some of the source's prices. -/
def Copies (fixed : FixedSource) (market : TickMarket) : Prop :=
  ∀ pair price, market.prices.get? pair = some price → fixed.prices.get? pair = some price

theorem Copies.known (h : Copies fixed market) {pair : String} (hpair : pair ∈ market.prices.keys) :
    pair ∈ fixed.prices.keys := by
  obtain ⟨price, hprice⟩ := Dict.mem_keys_iff.mp hpair
  exact Dict.mem_keys_iff.mpr ⟨price, h pair price hprice⟩

/-- The missing pairs that the source does not know are all that it does not know. -/
theorem Copies.unknown_missing (h : Copies fixed market) (pairs : List String) :
    fixed.unknown (market.missing pairs) = fixed.unknown pairs := by
  rw [FixedSource.unknown, FixedSource.unknown, TickMarket.missing, List.filter_filter]
  refine List.filter_congr ?_
  intro pair _
  by_cases hknown : pair ∈ fixed.prices.keys
  · simp [hknown]
  · have hmissing : pair ∉ market.prices.keys := fun hmem => hknown (h.known hmem)
    simp [hknown, hmissing]

/-- Prices that agree on some pairs are the same there. -/
theorem restrict_congr {d e : Dict String Decimal} {pairs : List String}
    (h : ∀ pair ∈ pairs, d.get? pair = e.get? pair) : d.restrict pairs = e.restrict pairs := by
  rw [Dict.restrict, Dict.restrict]
  congr 1
  exact List.filterMap_congr fun pair hpair => by rw [h pair hpair]

/-- A pair that is not missing has the source's price. -/
theorem Copies.held (h : Copies fixed market) {pairs : List String} {pair : String}
    (hpair : pair ∈ pairs) (hheld : pair ∉ market.missing pairs) :
    market.prices.get? pair = fixed.prices.get? pair := by
  have hkey : pair ∈ market.prices.keys := by
    by_contra hlacks
    exact hheld (List.mem_filter.mpr ⟨hpair, decide_eq_true hlacks⟩)
  obtain ⟨price, hprice⟩ := Dict.mem_keys_iff.mp hkey
  rw [hprice, h pair price hprice]

/-- With the missing prices it has the source's price of every pair. -/
theorem Copies.filled (h : Copies fixed market) {pairs : List String} {pair : String}
    (hpair : pair ∈ pairs) :
    (market.prices.update (fixed.prices.restrict (market.missing pairs))).get? pair =
      fixed.prices.get? pair := by
  rw [Dict.get?_update, Dict.get?_restrict]
  split_ifs with hmissing
  · cases hprice : fixed.prices.get? pair with
    | some price => rfl
    | none =>
      have hlacks := not_mem_keys_of_missing pair hmissing
      rw [Option.none_or, Option.eq_none_iff_forall_not_mem]
      exact fun price hheld => hlacks (Dict.mem_keys_iff.mpr ⟨price, hheld⟩)
  · rw [Option.none_or, h.held hpair hmissing]

/-- And it copies the source still. -/
theorem Copies.update (h : Copies fixed market) (pairs : List String) {pair : String} {price : Decimal}
    (hget : (market.prices.update (fixed.prices.restrict pairs)).get? pair = some price) :
    fixed.prices.get? pair = some price := by
  rw [Dict.get?_update, Dict.get?_restrict, Option.or_eq_some_iff] at hget
  rcases hget with hnew | ⟨-, hold⟩
  · split_ifs at hnew
    exact hnew
  · exact h pair price hold

/-- An answer is what the source would give for those pairs alone. -/
theorem ticker_fixed (h : Copies fixed market) (pairs : List String) :
    (market.ticker (asSource fixed) pairs).1 = fixed.ticker pairs ∧
      Copies fixed (market.ticker (asSource fixed) pairs).2 := by
  simp only [TickMarket.ticker, asSource]
  split_ifs with hmissing
  · have hunknown : fixed.unknown pairs = [] := by
      rw [← h.unknown_missing, hmissing, FixedSource.unknown, List.filter_nil]
    refine ⟨?_, h⟩
    rw [FixedSource.ticker, hunknown, fixed.refuses_nil, if_neg Bool.false_ne_true]
    refine congrArg some (restrict_congr ?_)
    intro pair hpair
    exact h.held hpair (by rw [hmissing]; exact List.not_mem_nil)
  · simp only [FixedSource.ticker, h.unknown_missing]
    by_cases hrefuses : fixed.refuses (fixed.unknown pairs) = true
    · simp only [if_pos hrefuses]
      exact ⟨trivial, h⟩
    · simp only [if_neg hrefuses]
      exact ⟨congrArg some (restrict_congr fun pair hpair => h.filled hpair),
        fun pair price => h.update _⟩

/-- Every answer of a run is what the source would give for those pairs alone. -/
theorem run_fixed (h : Copies fixed market) (calls : List MarketCall) :
    (market.run (asSource fixed) calls).1 = calls.flatMap (owed fixed) := by
  induction calls generalizing market with
  | nil => rfl
  | cons call rest ih =>
    have hcall : (call.perform (asSource fixed) market).1 = owed fixed call ∧
        Copies fixed (call.perform (asSource fixed) market).2 := by
      cases call with
      | preload pairs => exact ⟨rfl, (ticker_fixed h _).2⟩
      | ticker pairs =>
        obtain ⟨hreply, hcopies⟩ := ticker_fixed h pairs
        exact ⟨congrArg (fun reply => [reply]) hreply, hcopies⟩
    rw [TickMarket.run, List.flatMap_cons, ← hcall.1, ← ih hcall.2]

/-! ## One tick -/

theorem holds_fresh : Holds {} := InStep.empty

theorem copies_fresh : Copies fixed {} := by
  intro pair price hget
  cases hget

/-- The users of a tick share its prices: each price handed out is the first that the source gave for
its pair, so they all see one price for a pair, and none is asked for once it is read; a failed read
stores nothing; and a source whose prices do not change answers each of them as if it were alone. -/
theorem tick_prices_shared (source : PriceSource) (honest : Honest source) (calls : List MarketCall) :
    let tick := TickMarket.run source {} calls
    (∀ reply ∈ tick.1, ∀ prices, reply = some prices → ∀ pair price, prices.get? pair = some price →
      first tick.2.questions pair = some price) ∧
    (∀ reply ∈ tick.1, ∀ other ∈ tick.1, ∀ prices others, reply = some prices → other = some others →
      ∀ pair price price', prices.get? pair = some price → others.get? pair = some price' →
        price = price') ∧
    (∀ before question after, tick.2.questions = before ++ question :: after →
      ∀ pair ∈ question.asked, first before pair = none) ∧
    (∀ pairs, (tick.2.ticker source pairs).1 = none →
      (tick.2.ticker source pairs).2.prices = tick.2.prices) ∧
    ∀ fixed : FixedSource,
      (TickMarket.run (asSource fixed) {} calls).1 = calls.flatMap (owed fixed) := by
  obtain ⟨hserved, hfirst⟩ := run_first honest holds_fresh calls
  refine ⟨hfirst, ?_, hserved.holds.once, fun pairs => ticker_failed, ?_⟩
  · intro reply hreply other hother prices others hprices hothers pair price price' hget hget'
    have hgiven := hfirst reply hreply prices hprices pair price hget
    have hgiven' := hfirst other hother others hothers pair price' hget'
    exact Option.some.inj (hgiven.symm.trans hgiven')
  · intro fixed
    exact run_fixed copies_fresh calls

/-- A source that gives another price each time, and fails its second question. -/
def restless : PriceSource := fun questions pairs =>
  if questions.length = 1 then none
  else some (Dict.ofList (pairs.map fun pair => (pair, ⟨questions.length, 0⟩)))

theorem restless_honest : Honest restless := by
  intro questions pairs fetched h pair hpair
  rw [restless] at h
  split_ifs at h
  cases h
  obtain ⟨price, hprice⟩ := Dict.mem_keys_iff.mp hpair
  obtain ⟨asked, hasked, hentry⟩ := List.mem_map.mp (Dict.mem_of_mem_ofList (Dict.mem_of_get? hprice))
  cases hentry
  exact hasked

/-- A batch, a user whose pair it missed and whose read fails, and one who asks again. -/
def restlessCalls : List MarketCall :=
  [.preload ["XETHZEUR", "XXBTZEUR"], .ticker ["SOLEUR"], .ticker ["SOLEUR", "XXBTZEUR"]]

theorem tick_of_restless : Honest restless ∧
    first (TickMarket.run restless {} restlessCalls).2.questions "SOLEUR" = some ⟨2, 0⟩ := by
  refine ⟨restless_honest, ?_⟩
  have hreplies : (TickMarket.run restless {} restlessCalls).1 =
      [none, some (Dict.ofList [("SOLEUR", ⟨2, 0⟩), ("XXBTZEUR", ⟨0, 0⟩)])] := by decide
  exact (tick_prices_shared restless restless_honest restlessCalls).1 _
    (by rw [hreplies]; exact List.mem_cons_of_mem _ List.mem_cons_self) _ rfl "SOLEUR" ⟨2, 0⟩ (by decide)

end Coinpilot.Scheduling.Prices
