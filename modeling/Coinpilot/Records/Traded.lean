import Coinpilot.Core.Spellings
import Coinpilot.Lib.GoodRows
import Coinpilot.Records.Weights

/-!
# What is traded is what was read

A row is written with the pair that resolves its code in Kraken's catalog. Over any run of `PUT` and
`DELETE` with one catalog, the pair of every row has the internal name as its base whose balances are
counted under the row's code, and no two rows have one pair (`rows_traded`).
-/

set_option autoImplicit false

namespace Coinpilot.Records

open Coinpilot.Lib Coinpilot.Lib.Program Coinpilot.Lib.ReadCommitted Coinpilot.Exchange
  Coinpilot.Core Coinpilot.Core.Assets Coinpilot.Api

/-! ## One row -/

/-- Every pair is listed under its own name, as `asset_pairs` builds them. -/
def Named (pairs : Dict String PairMeta) : Prop := ∀ e ∈ pairs.entries, e.2.pair = e.1

instance (pairs : Dict String PairMeta) : Decidable (Named pairs) :=
  inferInstanceAs (Decidable (∀ e ∈ pairs.entries, e.2.pair = e.1))

/-- A row stores the pair that trades a listed asset, which is not the fiat, under the asset's code. -/
def Stores (names : Dict String String) (pairs : Dict String PairMeta) (fiat code : String)
    (row : AssetConfig) : Prop :=
  row.asset = code ∧ ∃ A ∈ names.entries, ∃ pair, code = rowCode A ∧ rowCode A ≠ fiat ∧
    Trades names pairs fiat A.1 pair ∧ row.pair = pair.pair

section Resolved

variable {names : Dict String String} (h : Distinct names) {pairs : Dict String PairMeta} {fiat : String}

include h

/-- What `PUT` accepts is a spelling of a listed asset, and it takes the pair that trades it. -/
theorem resolveAsset_ok {spelling code : String} {pair : PairMeta}
    (hok : resolveAsset spelling fiat (some names) (some pairs) = .ok (code, pair)) :
    ∃ A ∈ names.entries, Spells spelling A ∧ code = rowCode A ∧ rowCode A ≠ fiat ∧
      Trades names pairs fiat A.1 pair := by
  rw [resolveAsset] at hok
  dsimp only at hok
  cases hshort : shortName spelling names with
  | none =>
    rw [hshort] at hok
    cases hok
  | some found =>
    obtain ⟨A, hA, hs, rfl⟩ := (shortName_eq h).mp hshort
    rw [hshort] at hok
    dsimp only at hok
    split at hok
    · cases hok
    · rename_i hfiat
      cases hpair : resolvePair (rowCode A) fiat names pairs with
      | none =>
        rw [hpair] at hok
        cases hok
      | some meta' =>
        rw [hpair] at hok
        obtain ⟨rfl, rfl⟩ := Prod.mk.inj (Except.ok.inj hok)
        exact ⟨A, hA, hs, rfl, hfiat, resolvePair_trades h hA hpair⟩

end Resolved

/-- The catalog may not have been read. Nothing is accepted then. -/
theorem resolveAsset_catalog {names : Dict String String} {pairs : Dict String PairMeta}
    {spelling fiat code : String} {pair : PairMeta} {namesRead pairsRead : Bool}
    (hok : resolveAsset spelling fiat (if namesRead then some names else none)
      (if pairsRead then some pairs else none) = .ok (code, pair)) :
    resolveAsset spelling fiat (some names) (some pairs) = .ok (code, pair) := by
  cases namesRead with
  | false => cases hok
  | true =>
    cases pairsRead with
    | true => exact hok
    | false =>
      simp only [if_true, Bool.false_eq_true, if_false] at hok
      rw [resolveAsset] at hok
      dsimp only at hok
      split at hok
      · cases hok
      · split at hok
        · cases hok
        · cases hok

section Rows

variable {names : Dict String String} {pairs : Dict String PairMeta} {fiat code code' : String}
  {row row' : AssetConfig}

/-- The name that a pair is stored under is one it is listed under. -/
theorem listed_of_named (hnamed : Named pairs) {base : String} {pair : PairMeta}
    (h : Trades names pairs fiat base pair) :
    (pair.pair, pair) ∈ pairs.entries ∧
      DARK_POOL_SUFFIX.toList.isSuffixOf pair.pair.toList = false := by
  obtain ⟨name, hmem, hdark⟩ := h.listed
  have hname : pair.pair = name := hnamed _ hmem
  rw [hname]
  exact ⟨hmem, hdark⟩

/-- Two rows with one pair are of one asset. -/
theorem Stores.code_eq (hnamed : Named pairs) (h : Stores names pairs fiat code row)
    (h' : Stores names pairs fiat code' row') (hpair : row.pair = row'.pair) : code = code' := by
  obtain ⟨-, A, hA, pair, rfl, -, htrades, hrow⟩ := h
  obtain ⟨-, B, hB, pair', rfl, -, htrades', hrow'⟩ := h'
  have hlisted := (listed_of_named hnamed htrades).1
  have hlisted' := (listed_of_named hnamed htrades').1
  rw [← hrow, hpair, hrow'] at hlisted
  -- a name lists one pair, which has one base
  have hsame := (Prod.mk.inj (List.inj_on_of_nodup_map pairs.nodup hlisted hlisted' rfl)).2
  have hbase : A.1 = B.1 := by rw [← htrades.base_eq, hsame, htrades'.base_eq]
  rw [List.inj_on_of_nodup_map names.nodup hA hB hbase]

end Rows

/-! ## Every run -/

/-- A request on a user's assets, and what could be read of Kraken's catalog for it. -/
inductive ListedCall where
  | put (asset : String) (body : AssetIn) (namesRead pairsRead : Bool)
  | delete (asset : String) (namesRead : Bool)

section Runs

variable (names : Dict String String) (pairs : Dict String PairMeta) (settings : Option UserSettings)

/-- The request, with one catalog. -/
def ListedCall.call : ListedCall → AssetCall
  | .put asset body namesRead pairsRead =>
      .put asset body (if namesRead then some names else none) (if pairsRead then some pairs else none)
  | .delete asset namesRead => .delete asset (if namesRead then some names else none)

/-- The settings stay, and an asset's row stores what trades it. -/
def GoodRow : AssetKey → Option AssetRow → Prop
  | .settings, v => v = settings.map AssetRow.settings
  | .asset code, v => ∀ row, assetAt v = some row →
      ∃ s, settings = some s ∧ Stores names pairs s.fiat code row

variable {names pairs settings}

theorem upsertAsset_keeps {code pair : String} {target : Decimal}
    (hgood : ∀ row : AssetConfig, row.asset = code → row.pair = pair →
      GoodRow names pairs settings (.asset code) (some (.asset row))) :
    Keeps ListedCall (GoodRow names pairs settings) (fun _ => True) (upsertAsset code pair target) := by
  apply keeps_bind keeps_select
  · rintro rows ⟨rows', hrows, hall⟩
    cases hrows
    cases hrow : assetAt (rows (.asset code)) with
    | none =>
      have hinsert := @keeps_insertRow _ _ ListedCall Unit ApiError _ (GoodRow names pairs settings) _ _
        (hgood { asset := code, pair, targetPct := target } rfl rfl)
      apply keeps_bind hinsert
      · intro free _
        split
        · exact keeps_pure trivial
        · exact keeps_throw trivial
      · exact fun _ _ => trivial
    | some row =>
      have hasset : row.asset = code := by
        obtain ⟨s, -, hstores⟩ := hall (.asset code) row hrow
        exact hstores.1
      dsimp only
      split
      · exact keeps_pure trivial
      · apply keeps_bind (keeps_updateRow fun _ _ => hgood { row with pair, targetPct := target } hasset rfl)
        · intro found _
          split
          · exact keeps_pure trivial
          · exact keeps_throw trivial
        · exact fun _ _ => trivial
  · rintro e ⟨rows, hrows, -⟩
    cases hrows

theorem getSettings_keeps : Keeps ListedCall (GoodRow names pairs settings) (fun r => r = .ok settings)
    Assets.getSettings := by
  apply keeps_bind keeps_select
  · rintro rows ⟨rows', hrows, hall⟩
    cases hrows
    have hsettings : settingsAt (rows .settings) = settings := by
      have hrow : rows .settings = settings.map AssetRow.settings := hall .settings
      rw [hrow]
      cases settings <;> rfl
    exact keeps_pure (congrArg Except.ok hsettings)
  · rintro e ⟨rows, hrows, -⟩
    cases hrows

theorem putAsset_keeps (h : Distinct names) {asset : String} {body : AssetIn} {namesRead pairsRead : Bool} :
    Keeps ListedCall (GoodRow names pairs settings) (fun _ => True)
      (putAsset asset body (if namesRead then some names else none)
        (if pairsRead then some pairs else none)) := by
  apply keeps_bind getSettings_keeps
  · intro found hfound
    obtain rfl := Except.ok.inj hfound
    cases found with
    | none => exact keeps_throw trivial
    | some s =>
      dsimp only
      apply keeps_bind (keeps_fromExcept (R := fun r => r = resolveAsset asset s.fiat
        (if namesRead then some names else none) (if pairsRead then some pairs else none)) rfl)
      · rintro ⟨code, pair⟩ hresolved
        obtain ⟨A, hA, -, hcode, hfiat, htrades⟩ := resolveAsset_ok h (resolveAsset_catalog hresolved.symm)
        -- what is written is the row of the asset that the spelling named
        have hgood : ∀ row : AssetConfig, row.asset = code → row.pair = pair.pair →
            GoodRow names pairs (some s) (.asset code) (some (.asset row)) := by
          rintro row hasset hpair row' hrow'
          obtain rfl := Option.some.inj hrow'
          exact ⟨s, rfl, hasset, A, hA, pair, hcode, hfiat, htrades, hpair⟩
        have hlock : Keeps ListedCall (GoodRow names pairs (some s)) (fun _ => True) Assets.lockSettings :=
          keeps_bind (keeps_lockRow AssetKey.settings) (fun _ _ => keeps_pure trivial) fun _ _ => trivial
        have hlist : Keeps ListedCall (GoodRow names pairs (some s)) (fun _ => True) Assets.listAssets :=
          keeps_bind keeps_selectAll (fun _ _ => keeps_pure trivial) fun _ _ => trivial
        apply keeps_bind hlock
        · intro locked _
          apply keeps_bind hlist
          · intro listed _
            dsimp only
            split
            · exact keeps_throw trivial
            · exact upsertAsset_keeps hgood
          · exact fun _ _ => trivial
        · exact fun _ _ => trivial
      · exact fun _ _ => trivial
  · exact fun _ _ => trivial

theorem assetWork_keeps (h : Distinct names) (call : ListedCall) :
    Keeps ListedCall (GoodRow names pairs settings) (fun _ => True) (assetWork (call.call names pairs)) := by
  cases call with
  | put asset body namesRead pairsRead =>
    apply keeps_bind (putAsset_keeps h)
    · exact fun _ _ => keeps_pure trivial
    · exact fun _ _ => trivial
  | delete asset namesRead =>
    have hdelete : Keeps ListedCall (GoodRow names pairs settings) (fun _ => True)
        (Assets.deleteAsset (deletedCode asset (if namesRead then some names else none))) := by
      apply keeps_bind keeps_select
      · intro rows _
        split
        · exact keeps_pure trivial
        · refine keeps_bind (keeps_deleteRow ?_) (fun _ _ => keeps_pure trivial) fun _ _ => trivial
          rintro row ⟨⟩
      · exact fun _ _ => trivial
    apply keeps_bind hdelete
    · intro deleted _
      split
      · exact keeps_pure trivial
      · exact keeps_throw trivial
    · exact fun _ _ => trivial

end Runs

/-- A row trades the asset that it reads: its code is the asset's short name, its pair is listed with the
asset's internal name as its base, takes market orders against the fiat and is no dark pool, and the
balances that are counted under the code are those of the asset. -/
structure TradesAsRead (names : Dict String String) (pairs : Dict String PairMeta) (fiat : String)
    (row : AssetConfig) (A : String × String) : Prop where
  code : row.asset = rowCode A
  pair : ∃ pair, (row.pair, pair) ∈ pairs.entries ∧ pair.base = A.1 ∧
    (∃ F ∈ names.entries, upper F.2 = upper (strip fiat) ∧ pair.quote = F.1) ∧ pair.tradable = true ∧
    DARK_POOL_SUFFIX.toList.isSuffixOf row.pair.toList = false
  counted : ∀ key, placeOf names fiat key = .held row.asset ↔ CountsFor A key
  keys : '.' ∉ A.1.toList → '.' ∉ A.2.toList → ∀ key ∈ balanceKeys A,
    placeOf names fiat key = .held row.asset
  others : ∀ B ∈ names.entries, '.' ∉ B.1.toList → '.' ∉ B.2.toList → ∀ key ∈ balanceKeys B,
    placeOf names fiat key = .held row.asset → B.1 = A.1
  amount : ∀ balances targets prices, row.asset ∈ targets.keys → ∃ view holding,
    buildView balances names fiat targets prices = .ok view ∧ shown view false row.asset = [holding] ∧
      holding.amount.value =
        ((balances.entries.filter fun e => CountsFor A e.1).map fun e => e.2.value).sum

theorem Stores.trades {names : Dict String String} (h : Distinct names) {pairs : Dict String PairMeta}
    (hnamed : Named pairs) {fiat code : String} {row : AssetConfig} (hrow : Stores names pairs fiat code row) :
    ∃ A ∈ names.entries, TradesAsRead names pairs fiat row A := by
  obtain ⟨hcode, A, hA, pair, rfl, hfiat, htrades, hpair⟩ := hrow
  have hcounted : ∀ key, placeOf names fiat key = .held row.asset ↔ CountsFor A key := by
    intro key
    rw [hcode]
    exact placeOf_held_iff h hA hfiat key
  refine ⟨A, hA, ⟨hcode, ?_, hcounted, ?_, ?_, ?_⟩⟩
  · obtain ⟨hlisted, hlit⟩ := listed_of_named hnamed htrades
    rw [hpair]
    exact ⟨pair, hlisted, htrades.base_eq, htrades.quote_eq, htrades.tradable, hlit⟩
  · intro hinternal hshort key hkey
    exact (hcounted key).mpr (countsFor_balanceKeys h hA ⟨hinternal, hshort⟩ key hkey)
  · intro B hB hinternal hshort key hkey hheld
    have hspellsB := (countsFor_balanceKeys h hB ⟨hinternal, hshort⟩ key hkey).1
    rw [h.spells_unique hB hA hspellsB ((hcounted key).mp hheld).1]
  · intro balances targets prices hconfigured
    obtain ⟨view, hview, hcounts, -⟩ := view_counts_once balances names fiat targets prices
    obtain ⟨holding, hshown, -, hamount, -⟩ := hcounts.configured row.asset hconfigured
    refine ⟨view, holding, hview, hshown, ?_⟩
    rw [hamount, Core.counted]
    simp only [hcounted]

/-- What the spellings of an asset address, and what every row trades after any run with one catalog. -/
theorem rows_traded {names : Dict String String} (h : Distinct names) {pairs : Dict String PairMeta}
    (hnamed : Named pairs) (settings : Option UserSettings)
    {σ : Config (Stmt AssetKey AssetRow) Reply ListedCall (Store AssetKey AssetRow)
      (Except ApiError Unit × Unit)}
    (hreach : Reaches (semantics AssetKey AssetRow ListedCall) (fun c => assetRequest (c.call names pairs))
      (.start (noWeights settings)) σ) :
    (∀ A ∈ names.entries, ∀ spelling, Spells spelling A →
      deletedCode spelling (some names) = rowCode A ∧ ∀ fiat code pair,
        resolveAsset spelling fiat (some names) (some pairs) = .ok (code, pair) → code = rowCode A) ∧
    (∀ spelling fiat code pair, resolveAsset spelling fiat (some names) (some pairs) = .ok (code, pair) →
      ∃ A ∈ names.entries, Spells spelling A) ∧
    (∀ A ∈ names.entries, ∀ B ∈ names.entries, rowCode A = rowCode B → A = B) ∧
    (∀ code row, assetAt (σ.world.rows (.asset code)) = some row → row.asset = code ∧
      ∃ s, settings = some s ∧ ∃ A ∈ names.entries, TradesAsRead names pairs s.fiat row A) ∧
    ∀ code code' row row', assetAt (σ.world.rows (.asset code)) = some row →
      assetAt (σ.world.rows (.asset code')) = some row' → row.pair = row'.pair → code = code' := by
  have hgood : ∀ code row, assetAt (σ.world.rows (.asset code)) = some row →
      ∃ s, settings = some s ∧ Stores names pairs s.fiat code row := by
    intro code
    refine good_of_reaches (fun c => ⟨_, assetWork_keeps h c⟩) (noWeights_inv settings).1 ?_
      (fun _ _ => rfl) hreach (.asset code)
    intro k
    cases k with
    | settings => rfl
    | asset code => rintro row ⟨⟩
  refine ⟨?_, ?_, ?_, ?_, ?_⟩
  · intro A hA spelling hs
    have hshort := (shortName_eq h).mpr ⟨A, hA, hs, rfl⟩
    refine ⟨?_, fun fiat code pair hok => ?_⟩
    · rw [deletedCode, Option.bind_some, hshort]
      exact if_neg (h.rowCode_ne hA)
    · obtain ⟨B, hB, hsB, rfl, -⟩ := resolveAsset_ok h hok
      rw [h.spells_unique hB hA hsB hs]
  · intro spelling fiat code pair hok
    obtain ⟨A, hA, hs, -⟩ := resolveAsset_ok h hok
    exact ⟨A, hA, hs⟩
  · exact h.shorts
  · intro code row hrow
    obtain ⟨s, hs, hstores⟩ := hgood code row hrow
    exact ⟨hstores.1, s, hs, hstores.trades h hnamed⟩
  · intro code code' row row' hrow hrow' hpair
    obtain ⟨s, hs, hstores⟩ := hgood code row hrow
    obtain ⟨s', hs', hstores'⟩ := hgood code' row' hrow'
    obtain rfl := Option.some.inj (hs.symm.trans hs')
    exact hstores.code_eq hnamed hstores' hpair

/-- One `PUT` of a spelling of bitcoin. -/
def onePut : List (Turn ListedCall Unit) :=
  .spawn 0 (.put " xbt" sixty true true) :: List.replicate 6 (.act 0 ())

theorem euroNames_distinct : Distinct euroNames where
  shorts := by decide +kernel
  apart := by decide +kernel
  internals := by decide +kernel
  plain := by decide +kernel

/-- The row of bitcoin trades what it reads, and its pair is that of no other row. -/
theorem rows_traded_onePut :
    ∃ σ : Config (Stmt AssetKey AssetRow) Reply ListedCall (Store AssetKey AssetRow)
        (Except ApiError Unit × Unit),
      ∃ row, assetAt (σ.world.rows (.asset "XBT")) = some row ∧
        (∃ s, some euroSettings = some s ∧ ∃ A ∈ euroNames.entries,
          TradesAsRead euroNames euroPairs s.fiat row A) ∧
        ∀ code' row', assetAt (σ.world.rows (.asset code')) = some row' → row.pair = row'.pair →
          "XBT" = code' := by
  obtain ⟨σ, hσ, hc⟩ := reaches_of_replay
    (fun c => assetRequest (ListedCall.call euroNames euroPairs c)) responder (.start (noWeights (some euroSettings))) onePut
    (fun σ => (assetAt (σ.world.rows (.asset "XBT"))).isSome) (by decide +kernel)
  obtain ⟨row, hrow⟩ := Option.isSome_iff_exists.mp hc
  have hnamed : Named euroPairs := by decide +kernel
  obtain ⟨-, -, -, htrades, hshared⟩ := rows_traded euroNames_distinct hnamed (some euroSettings) hσ
  exact ⟨σ, row, hrow, (htrades "XBT" row hrow).2,
    fun code' row' hrow' => hshared "XBT" code' row row' hrow hrow'⟩

/-! ## Names that only differ in case, or that have dots or blanks -/

/-- Names with a dot in them. -/
def dottedNames : Dict String String where
  entries := [("ETH2.S", "ETH2.S"), ("ZEUR", "EUR")]
  nodup := by decide

def dottedPairs : Dict String PairMeta where
  entries := [("ETH2.SEUR", euroPair "ETH2.SEUR" "ETH2.S")]
  nodup := by decide

/-- Internal names that differ in case only. -/
def casedNames : Dict String String where
  entries := [("abc", "X"), ("ABC", "Y")]
  nodup := by decide

/-- A short name with blanks around it. -/
def blankNames : Dict String String where
  entries := [("A", " XBT "), ("XXBT", "XBT"), ("ZEUR", "EUR")]
  nodup := by decide

/-- An internal name that is empty. -/
def emptyName : Dict String String where
  entries := [("", "X")]
  nodup := by decide

/-- What `PUT` makes of a spelling against the euro: the code, and the pair's name and base. -/
def putAs (spelling : String) (names : Dict String String) (pairs : Dict String PairMeta) :
    Option (String × String × String) :=
  (resolveAsset spelling "EUR" (some names) (some pairs)).toOption.map fun found =>
    (found.1, found.2.pair, found.2.base)

/-- Lists in which the short names are separate, and yet: a row whose asset's balance is locked under
another label; two assets whose spellings address one row; two rows with one pair; a balance that is
counted under no listed asset. -/
theorem separate_not_enough :
    (Separate dottedNames ∧ Named dottedPairs ∧
      putAs "eth2.s" dottedNames dottedPairs = some ("ETH2.S", "ETH2.SEUR", "ETH2.S") ∧
      placeOf dottedNames "EUR" "ETH2.S" = .locked "ETH2.S") ∧
    (Separate casedNames ∧ deletedCode "abc" (some casedNames) = deletedCode "ABC" (some casedNames)) ∧
    (Separate blankNames ∧ Named euroPairs ∧
      putAs "A" blankNames euroPairs = some (" XBT ", "XXBTZEUR", "XXBT") ∧
      putAs "XBT" blankNames euroPairs = some ("XBT", "XXBTZEUR", "XXBT")) ∧
    Separate emptyName ∧ placeOf emptyName "EUR" "" = .held "" := by
  refine ⟨⟨⟨?_, ?_⟩, ?_, ?_, ?_⟩, ⟨⟨?_, ?_⟩, ?_⟩, ⟨⟨?_, ?_⟩, ?_, ?_, ?_⟩, ⟨?_, ?_⟩, ?_⟩
  all_goals decide +kernel

end Coinpilot.Records
