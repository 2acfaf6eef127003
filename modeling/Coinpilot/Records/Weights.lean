import Coinpilot.Api.Assets
import Coinpilot.Lib.RowLocks
import Coinpilot.Lib.Trace

/-!
# The weights sum to 100 at most

A `PUT` checks the sum and writes one row under the lock of the settings row, so while it is at it
the other rows can only be deleted: the committed weights sum to 100 at most after every commit
(`weights_kept`). A `DELETE` takes no lock of the settings, and needs none.
-/

set_option autoImplicit false

namespace Coinpilot.Records

open Coinpilot.Lib Coinpilot.Lib.Program Coinpilot.Lib.ReadCommitted Coinpilot.Exchange
  Coinpilot.Core Coinpilot.Core.Assets Coinpilot.Api

/-! ## Sums of weights -/

/-- Terms that are not zero are all among those of the other list. -/
theorem sum_le_of_support {α : Type} [DecidableEq α] {f : α → Rat} (hf : ∀ a, 0 ≤ f a)
    {l l' : List α} (hl : l.Nodup) (h : ∀ a ∈ l, f a ≠ 0 → a ∈ l') :
    (l.map f).sum ≤ (l'.map f).sum := by
  induction l generalizing l' with
  | nil =>
    apply List.sum_nonneg
    simpa using fun a _ => hf a
  | cons a l ih =>
    rw [List.nodup_cons] at hl
    rw [List.map_cons, List.sum_cons]
    by_cases hzero : f a = 0
    · rw [hzero, zero_add]
      exact ih hl.2 fun b hb => h b (List.mem_cons_of_mem a hb)
    · have hmem := h a List.mem_cons_self hzero
      rw [((List.perm_cons_erase hmem).map f).sum_eq, List.map_cons, List.sum_cons]
      apply add_le_add_right
      apply ih hl.2
      intro b hb hne
      have hba : b ≠ a := fun heq => hl.1 (heq ▸ hb)
      exact (List.mem_erase_of_ne hba).mpr (h b (List.mem_cons_of_mem a hb) hne)

/-- The weight that is stored for an asset, zero where there is none. -/
def weight (rows : Rows AssetKey AssetRow) (code : String) : Rat :=
  match assetAt (rows (.asset code)) with
  | none => 0
  | some row => row.targetPct.value

/-- The rows of one user: each under its asset, with a weight that is not negative, and all of them
within 100. -/
structure Weighed (rows : Rows AssetKey AssetRow) : Prop where
  keyed : ∀ k row, assetAt (rows k) = some row → k = .asset row.asset ∧ 0 ≤ row.targetPct.value
  within : ∀ codes : List String, codes.Nodup → (codes.map (weight rows)).sum ≤ 100

theorem value_totalPct (rows : List AssetConfig) :
    (totalPct rows).value = (rows.map fun row => row.targetPct.value).sum := by
  have hfold : ∀ total : Decimal,
      (rows.foldl (fun total row => total.add row.targetPct) total).value =
        total.value + (rows.map fun row => row.targetPct.value).sum := by
    induction rows with
    | nil => simp
    | cons row rows ih =>
      intro total
      rw [List.foldl_cons, ih, Decimal.value_add, List.map_cons, List.sum_cons, add_assoc]
  rw [totalPct, hfold, Decimal.value_zero, zero_add]

section Rows

variable {rows rows' : Rows AssetKey AssetRow}

theorem weight_nonneg (h : ∀ k row, assetAt (rows k) = some row →
    k = .asset row.asset ∧ 0 ≤ row.targetPct.value) (code : String) : 0 ≤ weight rows code := by
  unfold weight
  split
  · exact le_refl 0
  · exact (h _ _ ‹_›).2

/-- Rows that only went have no greater weight. -/
theorem weight_le_of_gone (hnonneg : ∀ code, 0 ≤ weight rows code) {code : String}
    (h : rows' (.asset code) = rows (.asset code) ∨ rows' (.asset code) = none) :
    weight rows' code ≤ weight rows code := by
  rcases h with h | h
  · rw [weight, weight, h]
  · have hzero : weight rows' code = 0 := by simp [weight, h, assetAt]
    rw [hzero]
    exact hnonneg code

/-- The sum of rows that are stored is that of the weights of their assets. -/
theorem totalPct_of_stored {listed : List AssetConfig}
    (h : ∀ row ∈ listed, assetAt (rows (.asset row.asset)) = some row) :
    (totalPct listed).value = ((listed.map AssetConfig.asset).map (weight rows)).sum := by
  rw [value_totalPct, List.map_map]
  congr 1
  apply List.map_congr_left
  intro row hrow
  simp [weight, h row hrow]

/-- A list of the assets has each row that the transaction sees. -/
theorem mem_assetsIn {w : Store AssetKey AssetRow} {i : Nat} (hs : w.Sound) {row : AssetConfig} :
    row ∈ assetsIn (w.listing i) ↔ ∃ k, assetAt (w.view i k) = some row := by
  simp only [assetsIn, (List.perm_insertionSort _ _).mem_iff, List.mem_filterMap, Prod.exists]
  constructor
  · rintro ⟨k, v, hv, hrow⟩
    exact ⟨k, by rw [hs.mem_listing.mp hv]; exact hrow⟩
  · rintro ⟨k, hk⟩
    obtain ⟨v, hv⟩ : ∃ v, w.view i k = some v := by
      cases hv : w.view i k with
      | none => simp [hv, assetAt] at hk
      | some v => exact ⟨v, rfl⟩
    exact ⟨k, v, hs.mem_listing.mpr hv, by rw [← hv]; exact hk⟩

/-- The weights of other assets are within what a list of them sums to. -/
theorem sum_le_totalPct {w : Store AssetKey AssetRow} {i : Nat} (hs : w.Sound)
    (hkeyed : ∀ k row, assetAt (w.view i k) = some row → k = .asset row.asset ∧ 0 ≤ row.targetPct.value)
    {code : String} {codes : List String} (hcodes : codes.Nodup) (hcode : code ∉ codes) :
    (codes.map (weight (w.view i))).sum ≤
      (totalPct ((assetsIn (w.listing i)).filter fun row => row.asset ≠ code)).value := by
  generalize hlisted : (assetsIn (w.listing i)).filter (fun row => row.asset ≠ code) = listed
  have hstored : ∀ row ∈ listed, assetAt (w.view i (.asset row.asset)) = some row := by
    intro row hrow
    rw [← hlisted] at hrow
    obtain ⟨k, hk⟩ := (mem_assetsIn hs).mp (List.mem_filter.mp hrow).1
    rw [(hkeyed k row hk).1] at hk
    exact hk
  rw [totalPct_of_stored hstored]
  apply sum_le_of_support (weight_nonneg hkeyed) hcodes
  intro c hc hne
  have hrow : ∃ row, assetAt (w.view i (.asset c)) = some row := by
    unfold weight at hne
    split at hne
    · exact absurd rfl hne
    · exact ⟨_, ‹_›⟩
  obtain ⟨row, hrow⟩ := hrow
  have hasset := (hkeyed _ row hrow).1
  cases hasset
  apply List.mem_map.mpr
  refine ⟨row, ?_, rfl⟩
  rw [← hlisted]
  apply List.mem_filter.mpr
  refine ⟨(mem_assetsIn hs).mpr ⟨_, hrow⟩, ?_⟩
  simpa using fun heq : row.asset = code => hcode (heq ▸ hc)

/-- A list of the assets has each of them once. -/
theorem assets_nodup {listed : List (AssetKey × AssetRow)} (hnodup : (listed.map Prod.fst).Nodup)
    (hkeyed : ∀ entry ∈ listed, ∀ row, assetAt (some entry.2) = some row →
      entry.1 = .asset row.asset) : ((assetsIn listed).map AssetConfig.asset).Nodup := by
  have hsub : ((listed.filterMap fun row => assetAt (some row.2)).map fun row =>
      AssetKey.asset row.asset).Sublist (listed.map Prod.fst) := by
    clear hnodup
    induction listed with
    | nil => exact List.Sublist.refl _
    | cons entry listed ih =>
      have ih := ih fun e he => hkeyed e (List.mem_cons_of_mem _ he)
      cases hrow : assetAt (some entry.2) with
      | none =>
        simp only [List.filterMap_cons, hrow, List.map_cons]
        exact ih.cons _
      | some row =>
        simp only [List.filterMap_cons, hrow, List.map_cons]
        rw [hkeyed entry List.mem_cons_self row hrow]
        exact ih.cons_cons _
  have hassets : (assetsIn listed).map AssetConfig.asset |>.Perm
      ((listed.filterMap fun row => assetAt (some row.2)).map AssetConfig.asset) :=
    (List.perm_insertionSort _ _).map _
  rw [hassets.nodup_iff]
  apply List.Nodup.of_map AssetKey.asset
  rw [List.map_map]
  exact hsub.nodup hnodup

/-- A row written with a weight that leaves room for the others. -/
theorem Weighed.update (h : Weighed rows) {row : AssetConfig} (hpos : 0 ≤ row.targetPct.value)
    (hroom : ∀ codes : List String, codes.Nodup → row.asset ∉ codes →
      (codes.map (weight rows)).sum + row.targetPct.value ≤ 100) :
    Weighed (Function.update rows (.asset row.asset) (some (.asset row))) := by
  have hweight : ∀ code, code ≠ row.asset →
      weight (Function.update rows (.asset row.asset) (some (.asset row))) code = weight rows code := by
    intro code hne
    simp [weight, hne]
  have hself : weight (Function.update rows (.asset row.asset) (some (.asset row))) row.asset =
      row.targetPct.value := by
    simp [weight, assetAt]
  constructor
  · intro k row' hrow'
    by_cases hk : k = .asset row.asset
    · subst hk
      rw [Function.update_self] at hrow'
      cases hrow'
      exact ⟨rfl, hpos⟩
    · rw [Function.update_of_ne hk] at hrow'
      exact h.keyed k row' hrow'
  · intro codes hcodes
    by_cases hmem : row.asset ∈ codes
    · have hnodup := hcodes.erase row.asset
      have hnotin : row.asset ∉ codes.erase row.asset := hcodes.not_mem_erase
      rw [((List.perm_cons_erase hmem).map _).sum_eq, List.map_cons, List.sum_cons, hself, add_comm]
      have hsame : (codes.erase row.asset).map
          (weight (Function.update rows (.asset row.asset) (some (.asset row)))) =
            (codes.erase row.asset).map (weight rows) := by
        apply List.map_congr_left
        intro c hc
        exact hweight c fun heq => hnotin (heq ▸ hc)
      rw [hsame]
      exact hroom _ hnodup hnotin
    · have hsame : codes.map (weight (Function.update rows (.asset row.asset) (some (.asset row)))) =
          codes.map (weight rows) := by
        apply List.map_congr_left
        intro c hc
        exact hweight c fun heq => hmem (heq ▸ hc)
      rw [hsame]
      exact h.within codes hcodes

/-- A row that is removed. -/
theorem Weighed.erase (h : Weighed rows) (code : String) :
    Weighed (Function.update rows (.asset code) none) := by
  constructor
  · intro k row hrow
    by_cases hk : k = .asset code
    · subst hk
      simp [assetAt] at hrow
    · rw [Function.update_of_ne hk] at hrow
      exact h.keyed k row hrow
  · intro codes hcodes
    refine le_trans (List.sum_le_sum fun c _ => ?_) (h.within codes hcodes)
    apply weight_le_of_gone (weight_nonneg h.keyed)
    by_cases hc : c = code
    · exact .inr (by simp [hc])
    · exact .inl (by simp [hc])

end Rows

/-! ## The threads -/

/-- A request on a user's assets, with what Kraken's catalog answers it. -/
inductive AssetCall where
  | put (asset : String) (body : AssetIn) (assetNames : Option (Dict String String))
      (pairs : Option (Dict String PairMeta))
  | delete (asset : String) (assetNames : Option (Dict String String))

def assetWork : AssetCall → AssetWork Unit
  | .put asset body assetNames pairs => do
      let _ ← putAsset asset body assetNames pairs
      pure ()
  | .delete asset assetNames => Api.deleteAsset asset assetNames

def assetRequest (call : AssetCall) : Prog (Stmt AssetKey AssetRow) Reply (Except ApiError Unit × Unit) :=
  (transaction (assetWork call)).exec ()

/-- No asset has a weight yet. -/
def noWeights (settings : Option UserSettings) : Store AssetKey AssetRow :=
  Store.idle (fun k => match k with
    | .settings => settings.map AssetRow.settings
    | .asset _ => none) [.settings]

/-- While a transaction holds the settings row, the rows of the others can only go. -/
def weightsContract : Contract (semantics AssetKey AssetRow AssetCall) where
  inv w := w.Sound ∧ Weighed w.rows
  rely i w w' := Kept i w w' ∧ w'.rows .settings = w.rows .settings ∧
    (w.holder .settings = some i → ∀ code,
      w'.rows (.asset code) = w.rows (.asset code) ∨ w'.rows (.asset code) = none)
  guard i _ s w := s = .commit → Weighed (w.view i) ∧ w.view i .settings = w.rows .settings ∧
    ∀ code, w.view i (.asset code) = w.rows (.asset code) ∨ w.view i (.asset code) = none ∨
      w.holder .settings = some i
  rely_refl i w := ⟨Kept.refl i w, rfl, fun _ _ => .inl rfl⟩
  rely_trans := by
    rintro i w₁ w₂ w₃ ⟨hk, hs, hr⟩ ⟨hk', hs', hr'⟩
    refine ⟨hk.trans hk', hs'.trans hs, fun hh code => ?_⟩
    rcases hr' ((hk.holder _).mpr hh) code with h | h
    · rw [h]
      exact hr hh code
    · exact .inr h
  env_ok := by
    rintro w w' hi rfl
    exact ⟨hi, fun i => ⟨Kept.refl i _, rfl, fun _ _ => .inl rfl⟩⟩
  died_ok := by
    rintro i w ⟨hs, hi⟩
    exact ⟨⟨Store.release_sound hs i, hi⟩,
      fun j hj => ⟨Store.release_kept w hj, rfl, fun _ _ => .inl rfl⟩⟩
  step_ok := by
    rintro i c o w b w' ⟨hs, hi⟩ hg h
    change answered i o w b w' at h
    obtain ⟨hs', hk⟩ := answered_kept hs h
    by_cases ho : o = .commit
    · subst ho
      cases h
      obtain ⟨hweighed, hsettings, hrows⟩ := hg rfl
      refine ⟨⟨hs', hweighed⟩, fun j hj => ⟨hk j hj, hsettings, fun hh code => ?_⟩⟩
      rcases hrows code with h | h | h
      · exact .inl h
      · exact .inr h
      · rw [hh] at h
        exact absurd (Option.some.inj h) hj
    · have hrows := answered_rows h ho
      exact ⟨⟨hs', hrows ▸ hi⟩, fun j hj => ⟨hk j hj, by rw [hrows], fun _ _ => .inl (by rw [hrows])⟩⟩

theorem weights_guard {i : Nat} {c : AssetCall} {s : Stmt AssetKey AssetRow}
    {w : Store AssetKey AssetRow} (h : s ≠ .commit) : weightsContract.guard i c s w :=
  fun hc => absurd hc h

/-! ## What a transaction knows -/

section Transactions

variable {i : Nat} {c : AssetCall} {w w' : Store AssetKey AssetRow}

/-- The lock is had, nothing is changed, and a weight of `target` leaves the others room. -/
structure Checked (i : Nat) (code : String) (target : Rat) (w : Store AssetKey AssetRow) : Prop where
  locked : w.holder .settings = some i
  room : ∀ codes : List String, codes.Nodup → code ∉ codes →
    (codes.map (weight w.rows)).sum + target ≤ 100

theorem Checked.rely {code : String} {target : Rat} (h : Checked i code target w)
    (hi : weightsContract.inv w) (hr : weightsContract.rely i w w') : Checked i code target w' := by
  obtain ⟨hk, -, hrows⟩ := hr
  refine ⟨(hk.holder _).mpr h.locked, fun codes hcodes hcode => ?_⟩
  refine le_trans (add_le_add_left (List.sum_le_sum fun c _ => ?_) target) (h.room codes hcodes hcode)
  exact weight_le_of_gone (weight_nonneg hi.2.keyed) (hrows h.locked c)

/-- What a transaction that changed nothing may commit. -/
theorem commits_clean (h : w.Clean i) (hi : weightsContract.inv w) :
    weightsContract.guard i c .commit w := by
  intro _
  rw [h.view]
  exact ⟨hi.2, rfl, fun _ => .inl rfl⟩

/-- What a `PUT` may commit. -/
theorem commits_checked {row : AssetConfig} (hpos : 0 ≤ row.targetPct.value)
    (h : Checked i row.asset row.targetPct.value w) (hd : w.Drafts i (.asset row.asset) (some (.asset row)))
    (hi : weightsContract.inv w) : weightsContract.guard i c .commit w := by
  intro _
  rw [hd.view]
  exact ⟨hi.2.update hpos h.room, by simp, fun _ => .inr (.inr h.locked)⟩

/-- What a `DELETE` may commit. -/
theorem commits_deleted {code : String} (hd : w.Drafts i (.asset code) none) (hi : weightsContract.inv w) :
    weightsContract.guard i c .commit w := by
  intro _
  rw [hd.view]
  refine ⟨hi.2.erase code, by simp, fun code' => ?_⟩
  by_cases hcode : code' = code
  · exact .inr (.inl (by simp [hcode]))
  · exact .inl (by simp [hcode])

/-- A transaction may commit here, whatever the others do until then. -/
def MayCommit (i : Nat) (c : AssetCall) (w : Store AssetKey AssetRow) : Prop :=
  ∀ w', weightsContract.rely i w w' → weightsContract.inv w' → weightsContract.guard i c .commit w'

theorem mayCommit_clean (h : w.Clean i) : MayCommit i c w :=
  fun _ hr hi => commits_clean (hr.1.clean h) hi

theorem upsertAsset_wp {code pair : String} {target : Decimal} (hpos : 0 ≤ target.value)
    (hclean : w.Clean i) (hchecked : Checked i code target.value w) (hi : weightsContract.inv w) :
    (upsertAsset code pair target).Wp weightsContract i c
      (fun r _ w' => ∀ row, r = .ok row → MayCommit i c w') () w := by
  have hraise : ∀ (e : ApiError) (w' : Store AssetKey AssetRow) (row : AssetConfig),
      (Except.error e : Except ApiError AssetConfig) = .ok row → MayCommit i c w' := by
    intro e w' row h
    cases h
  -- from here only the row of `code` is a draft
  have hwritten : ∀ (row : AssetConfig) (w₁ : Store AssetKey AssetRow), row.asset = code →
      row.targetPct = target → w₁.Drafts i (.asset code) (some (.asset row)) → weightsContract.inv w₁ →
      Checked i code target.value w₁ → MayCommit i c w₁ := by
    rintro row w₁ rfl rfl hdraft hi₁ hchecked₁ w₂ hr hi₂
    have hdraft₂ := hr.1.drafted hdraft
    exact commits_checked hpos (hchecked₁.rely hi₁ hr) hdraft₂ hi₂
  apply wp_bind
  apply wp_select
  refine fun w₁ hr₁ hi₁ => ⟨weights_guard (by rintro ⟨⟩), ?_⟩
  have hclean₁ := hr₁.1.clean hclean
  have hchecked₁ := hchecked.rely hi hr₁
  dsimp only
  cases hrow : assetAt (w₁.view i (.asset code)) with
  | none =>
    apply wp_bind
    apply wp_insertRow
    refine fun w₂ hr₂ hi₂ => ⟨weights_guard (by rintro ⟨⟩), fun _ _ => hraise _ w₂, fun _ _ hi₃ => ?_⟩
    rintro row ⟨⟩
    have hdraft := Store.Clean.draft (hr₂.1.clean hclean₁) (.asset code)
      (some (.asset { asset := code, pair, targetPct := target }))
    have hchecked₂ := hchecked₁.rely hi₁ hr₂
    refine hwritten _ _ rfl rfl hdraft hi₃ ⟨?_, hchecked₂.room⟩
    simpa [Store.create, Store.draft] using hchecked₂.locked
  | some row =>
    have hasset : row.asset = code := by
      rw [hclean₁.view] at hrow
      have hkey := (hi₁.2.keyed _ row hrow).1
      cases hkey
      rfl
    dsimp only
    split
    · exact fun _ _ => mayCommit_clean hclean₁
    · apply wp_bind
      apply wp_bind
      apply wp_lockRow
      refine fun w₂ hr₂ hi₂ => ⟨weights_guard (by rintro ⟨⟩), fun _ => hraise _ w₂, fun v _ _ hi₃ => ?_⟩
      have hclean₂ := hr₂.1.clean hclean₁
      have hchecked₂ := hchecked₁.rely hi₁ hr₂
      have hchecked₃ : Checked i code target.value (w₂.take i (.asset code)) := by
        refine ⟨?_, hchecked₂.room⟩
        simpa [Store.take] using hchecked₂.locked
      apply wp_bind
      apply wp_writeRow
      refine fun w₄ hr₄ hi₄ => ⟨weights_guard (by rintro ⟨⟩), fun hi₅ => ?_⟩
      rintro changed ⟨⟩
      have hchecked₄ := hchecked₃.rely hi₃ hr₄
      have hdraft := Store.Clean.draft (hr₄.1.clean (hclean₂.take (.asset code))) (.asset code)
        (some (.asset { row with pair, targetPct := target }))
      refine hwritten { row with pair, targetPct := target } _ hasset rfl hdraft hi₅
        ⟨?_, hchecked₄.room⟩
      simpa [Store.draft] using hchecked₄.locked

/-- `PUT`: the list that it sums is read under the lock. -/
theorem putAsset_wp {asset : String} {body : AssetIn} {assetNames : Option (Dict String String)}
    {pairs : Option (Dict String PairMeta)} (hclean : w.Clean i) :
    (putAsset asset body assetNames pairs).Wp weightsContract i c
      (fun r _ w' => ∀ row, r = .ok row → MayCommit i c w') () w := by
  have hraise : ∀ (e : ApiError) (w' : Store AssetKey AssetRow) (row : AssetConfig),
      (Except.error e : Except ApiError AssetConfig) = .ok row → MayCommit i c w' := by
    intro e w' row h
    cases h
  apply wp_bind
  apply wp_bind
  apply wp_select
  refine fun w₁ hr₁ hi₁ => ⟨weights_guard nofun, ?_⟩
  have hclean₁ := hr₁.1.clean hclean
  apply wp_pure
  cases hsettings : settingsAt (w₁.view i .settings) with
  | none => exact hraise _ w₁
  | some settings =>
    have hrow : w₁.rows .settings ≠ none := by
      intro hnone
      rw [hclean₁.view, hnone] at hsettings
      cases hsettings
    apply wp_bind
    apply wp_fromExcept
    cases resolveAsset asset settings.fiat assetNames pairs with
    | error e => exact hraise e w₁
    | ok resolved =>
      obtain ⟨code, pair⟩ := resolved
      apply wp_bind
      apply wp_bind
      apply wp_lockRow
      intro w₂ hr₂ hi₂
      have hclean₂ := hr₂.1.clean hclean₁
      refine ⟨weights_guard nofun, fun hnone => ?_, fun _ _ _ hi₃ => ?_⟩
      · -- the settings row does not go
        rw [hclean₂.view, hr₂.2.1] at hnone
        exact absurd hnone hrow
      · apply wp_pure
        apply wp_bind
        apply wp_bind
        apply wp_selectAll
        intro w₄ hr₄ hi₄
        have hclean₄ := hr₄.1.clean (hclean₂.take .settings)
        have hlocked := (hr₄.1.holder .settings).mpr (w₂.take_holds i .settings).holder
        refine ⟨weights_guard nofun, ?_⟩
        apply wp_pure
        dsimp only
        split
        · exact hraise _ w₄
        · rename_i hlimit
          apply upsertAsset_wp body.bounded.1 hclean₄ _ hi₄
          refine ⟨hlocked, fun codes hcodes hcode => ?_⟩
          have hlisted := sum_le_totalPct hi₄.1 (by rw [hclean₄.view]; exact hi₄.2.keyed) hcodes hcode
          rw [hclean₄.view] at hlisted
          have hhundred : HUNDRED.value = 100 := by simp [HUNDRED, Decimal.value]
          rw [Decimal.value_add, not_lt, hhundred] at hlimit
          linarith

/-- `DELETE`: one row goes. -/
theorem deleteAsset_wp {asset : String} {assetNames : Option (Dict String String)}
    (hclean : w.Clean i) :
    (Api.deleteAsset asset assetNames).Wp weightsContract i c
      (fun r _ w' => ∀ a, r = .ok a → MayCommit i c w') () w := by
  apply wp_bind
  apply wp_bind
  apply wp_select
  refine fun w₁ hr₁ hi₁ => ⟨weights_guard nofun, ?_⟩
  have hclean₁ := hr₁.1.clean hclean
  dsimp only
  split
  · rintro a ⟨⟩
  · apply wp_bind
    apply wp_bind
    apply wp_lockRow
    refine fun w₂ hr₂ hi₂ => ⟨weights_guard nofun, fun _ => ?_, fun _ _ _ hi₃ => ?_⟩
    · exact fun _ _ => mayCommit_clean (hr₂.1.clean hclean₁)
    · apply wp_bind
      apply wp_writeRow
      refine fun w₄ hr₄ hi₄ => ⟨weights_guard nofun, fun _ _ _ w₅ hr₅ hi₅ => ?_⟩
      have hclean₄ := hr₄.1.clean ((hr₂.1.clean hclean₁).take (.asset (deletedCode asset assetNames)))
      exact commits_deleted (hr₅.1.drafted (hclean₄.draft _ none)) hi₅

theorem assetRequest_covers :
    weightsContract.Covers assetRequest (fun i w => w.Clean i) fun _ _ _ _ => True where
  fresh_stable := fun i w w' hclean hr _ => hr.1.clean hclean
  post_stable := fun _ _ _ _ _ _ _ _ => trivial
  code_ok := by
    intro i c w _ hclean
    change (transaction (assetWork c)).Wp weightsContract i c (fun _ _ _ => True) () w
    apply wp_transaction
    have hcommit : (assetWork c).Wp weightsContract i c
        (fun r _ w' => ∀ a, r = .ok a → MayCommit i c w') () w := by
      cases c with
      | put asset body assetNames pairs =>
        apply wp_bind
        refine Proc.wp_mono (putAsset_wp hclean) ?_
        rintro (e | row) l w' h
        · rintro a ⟨⟩
        · exact fun _ _ => h row rfl
      | delete asset assetNames => exact deleteAsset_wp hclean
    refine Proc.wp_mono hcommit ?_
    rintro (e | a) l w' h w₁ hr hi
    · exact ⟨weights_guard nofun, fun _ => trivial⟩
    · exact ⟨h a rfl w₁ hr hi, fun _ => trivial⟩

end Transactions

/-! ## Refused requests -/

section Refused

theorem body_upsertAsset (asset pair : String) (targetPct : Decimal) :
    (upsertAsset asset pair targetPct).Calls Body fun _ => True := by
  apply calls_bind body_select
  intro rows
  split
  · apply calls_bind (body_insertRow _ _)
    intro free
    split
    · exact calls_pure _
    · exact calls_throw _
  · dsimp only
    split
    · exact calls_pure _
    · apply calls_bind (body_updateRow _ _)
      intro found
      split
      · exact calls_pure _
      · exact calls_throw _

theorem body_assetWork (call : AssetCall) : (assetWork call).Calls Body fun _ => True := by
  cases call with
  | put asset body assetNames pairs =>
    refine calls_bind ?_ fun _ => calls_pure ()
    apply calls_bind (calls_bind body_select fun _ => calls_pure _)
    intro settings
    cases settings with
    | none => exact calls_throw _
    | some settings =>
      apply calls_bind (calls_fromExcept _)
      intro resolved
      apply calls_bind (calls_bind (body_lockRow _) fun _ => calls_pure _)
      intro _
      apply calls_bind (calls_bind body_selectAll fun _ => calls_pure _)
      intro rows
      dsimp only
      split
      · exact calls_throw _
      · exact body_upsertAsset _ _ _
  | delete asset assetNames =>
    have hdelete : (Assets.deleteAsset (deletedCode asset assetNames)).Calls Body fun _ => True := by
      apply calls_bind body_select
      intro rows
      split
      · exact calls_pure false
      · exact calls_bind (body_deleteRow _) fun _ => calls_pure true
    apply calls_bind hdelete
    intro deleted
    split
    · exact calls_pure ()
    · exact calls_throw _

theorem take_weightsProblem (total : Decimal) :
    (weightsProblem total).toList.take 5 = ['t', 'h', 'e', ' ', 'w'] := by
  have hstart : "the weights would sum to ".toList = 't' :: 'h' :: 'e' :: ' ' :: 'w' ::
      "eights would sum to ".toList := by decide
  unfold weightsProblem
  rw [String.toList_append, String.toList_append, List.append_assoc, hstart]
  rfl

/-- No other refusal says that the weights sum to too much. -/
theorem resolveAsset_ne {asset fiat : String} {assetNames : Option (Dict String String)}
    {pairs : Option (Dict String PairMeta)} {e : ApiError}
    (h : resolveAsset asset fiat assetNames pairs = .error e) (total : Decimal) :
    e ≠ .http 422 (weightsProblem total) := by
  have htext := take_weightsProblem total
  rintro rfl
  unfold resolveAsset at h
  split at h
  · cases h
  · split at h
    · injection h with h
      injection h with _ h
      rw [← h] at htext
      simp [String.toList_append] at htext
    · split at h
      · injection h with h
        injection h with _ h
        rw [← h] at htext
        simp at htext
      · split at h
        · cases h
        · split at h
          · injection h with h
            injection h with _ h
            rw [← h] at htext
            simp [String.toList_append] at htext
          · cases h

theorem resolveAsset_code {asset fiat code : String} {assetNames : Option (Dict String String)}
    {pairs : Option (Dict String PairMeta)} {pair : PairMeta}
    (h : resolveAsset asset fiat assetNames pairs = .ok (code, pair)) :
    ∃ names, assetNames = some names ∧ shortName asset names = some code := by
  unfold resolveAsset at h
  split at h
  · cases h
  · rename_i names
    split at h
    · cases h
    · rename_i found hfound
      split at h
      · cases h
      · split at h
        · cases h
        · split at h
          · cases h
          · cases h
            exact ⟨names, rfl, hfound⟩

section Paths

variable {t : List (Answer (Stmt AssetKey AssetRow) Reply)} {l l' : Unit} {e : ApiError}

/-- What only looks at an answer raises nothing. -/
theorem not_path_map {α β : Type} {m : AssetWork α} {f : α → β}
    (hm : ∀ {l t e l'}, ¬m.Path l t (.error e) l') :
    ¬(m >>= fun a => pure (f a) : AssetWork β).Path l t (.error e) l' := by
  intro h
  obtain ⟨a, l₁, t₁, t₂, -, h, -⟩ := path_bind_of_ok hm h
  obtain ⟨-, he, -⟩ := path_pure h
  cases he

theorem not_path_getSettings : ¬Assets.getSettings.Path l t (.error e) l' :=
  not_path_map not_path_select_error

theorem not_path_lockSettings : ¬Assets.lockSettings.Path l t (.error e) l' :=
  not_path_map not_path_lockRow_error

theorem not_path_listAssets : ¬Assets.listAssets.Path l t (.error e) l' :=
  not_path_map not_path_selectAll_error

theorem upsertAsset_not_refused {asset pair : String} {targetPct : Decimal} {status : Nat}
    {detail : String} :
    ¬(upsertAsset asset pair targetPct).Path l t (.error (.http status detail)) l' := by
  have hnone : ∀ {x l t l'} {a : AssetConfig}, x ≠ .http status detail →
      ∀ b : Bool, ¬(if b then pure a else throw x : AssetWork AssetConfig).Path l t
        (.error (.http status detail)) l' := by
    intro x l t l' a hx b h
    cases b with
    | true =>
      obtain ⟨-, he, -⟩ := path_pure h
      cases he
    | false =>
      obtain ⟨-, he, -⟩ := path_throw h
      exact hx (Except.error.inj he).symm
  intro h
  obtain ⟨rows, l₁, t₁, t₂, -, h, -⟩ := path_bind_of_ok (fun hp => not_path_select_error hp) h
  split at h
  · obtain ⟨free, l₂, t₃, t₄, -, h, -⟩ := path_bind_of_ok (fun hp => not_path_insertRow_error hp) h
    exact hnone (by simp) free h
  · dsimp only at h
    split at h
    · obtain ⟨-, he, -⟩ := path_pure h
      cases he
    · rcases path_bind h with ⟨found, l₂, t₃, t₄, -, h, -⟩ | ⟨x, hupdate, he⟩
      · exact hnone (by simp) found h
      · obtain ⟨-, ⟨found, hfound⟩, -⟩ := Proc.Only.path (within_updateRow _ _) hupdate
        cases hfound

end Paths

/-- A `PUT` that is refused for its weights was answered a list whose other assets leave it no
room. -/
theorem putAsset_refused {asset : String} {body : AssetIn} {assetNames : Option (Dict String String)}
    {pairs : Option (Dict String PairMeta)} {t : List (Answer (Stmt AssetKey AssetRow) Reply)}
    {total : Decimal} {l l' : Unit}
    (h : (putAsset asset body assetNames pairs).Path l t
      (.error (.http 422 (weightsProblem total))) l') :
    ∃ names code listed, assetNames = some names ∧ shortName asset names = some code ∧
      (⟨.scan, listed⟩ : Answer (Stmt AssetKey AssetRow) Reply) ∈ t ∧
      100 < (totalPct ((assetsIn listed).filter fun row => row.asset ≠ code)).value +
        body.targetPct.value := by
  obtain ⟨settings, l₁, t₁, t₂, -, h, rfl⟩ := path_bind_of_ok (fun hp => not_path_getSettings hp) h
  cases settings with
  | none =>
    obtain ⟨-, he, -⟩ := path_throw h
    injection he with he
    injection he with hstatus
    cases hstatus
  | some settings =>
    rcases path_bind h with ⟨⟨code, pair⟩, l₂, t₃, t₄, hresolve, hrest, rfl⟩ | ⟨e, hresolve, he⟩
    · obtain ⟨-, hresolved, -⟩ := path_fromExcept hresolve
      obtain ⟨names, hnames, hcode⟩ := resolveAsset_code hresolved.symm
      obtain ⟨locked, l₃, t₅, t₆, -, hread, rfl⟩ :=
        path_bind_of_ok (fun hp => not_path_lockSettings hp) hrest
      obtain ⟨rows, l₄, t₇, t₈, hlist, hcheck, rfl⟩ :=
        path_bind_of_ok (fun hp => not_path_listAssets hp) hread
      obtain ⟨listed, l₅, t₉, t₁₀, hscan, hsorted, rfl⟩ :=
        path_bind_of_ok (fun hp => not_path_selectAll_error hp) hlist
      obtain ⟨listed', rfl, heq, -⟩ := path_selectAll hscan
      cases heq
      obtain ⟨-, heq, -⟩ := path_pure hsorted
      cases heq
      refine ⟨names, code, listed, hnames, hcode, by simp, ?_⟩
      dsimp only at hcheck
      split at hcheck
      · rename_i hlimit
        have hhundred : HUNDRED.value = 100 := by simp [HUNDRED, Decimal.value]
        rwa [Decimal.value_add, hhundred] at hlimit
      · exact (upsertAsset_not_refused hcheck).elim
    · obtain ⟨-, hresolved, -⟩ := path_fromExcept hresolve
      cases he
      exact absurd rfl (resolveAsset_ne hresolved.symm total)

end Refused

/-! ## Every run -/

abbrev AssetHistory : Type :=
  Recorded (Stmt AssetKey AssetRow) Reply AssetCall (Store AssetKey AssetRow)

/-- What holds of the weights after any run: those that are committed sum to 100 at most, and so do
those that a request which starts now would list; a request that raised has changed no row; and a
`PUT` is refused for its weights only when the other assets leave it no room. -/
structure WeightsKept
    (σ : Config (Stmt AssetKey AssetRow) Reply AssetCall AssetHistory (Except ApiError Unit × Unit)) :
    Prop where
  within : ∀ codes : List String, codes.Nodup →
    (codes.map (weight σ.world.now.rows)).sum ≤ 100
  cash : ∀ i, σ.threads i = .unborn →
    0 ≤ (cashTargetPct (assetsIn (σ.world.now.listing i))).value
  unchanged : ∀ i call e l, σ.threads i = .live call (.ret (.error e, l)) →
    ∀ ev ∈ σ.world.past, ev.who = i → ev.after.rows = ev.before.rows
  others : ∀ i asset body assetNames pairs total l,
    σ.threads i = .live (.put asset body assetNames pairs)
      (.ret (.error (.http 422 (weightsProblem total)), l)) →
    ∃ names code listed, assetNames = some names ∧ shortName asset names = some code ∧
      (⟨.scan, listed⟩ : Answer (Stmt AssetKey AssetRow) Reply) ∈ traceOf i σ.world.past ∧
      100 < (totalPct ((assetsIn listed).filter fun row => row.asset ≠ code)).value +
        body.targetPct.value

theorem noWeights_inv (settings : Option UserSettings) : weightsContract.inv (noWeights settings) := by
  constructor
  · apply Store.idle_sound (List.nodup_singleton _)
    intro k hk
    cases k with
    | settings => exact List.mem_singleton_self _
    | asset code => exact absurd rfl hk
  · constructor
    · intro k row hrow
      cases k with
      | settings => cases settings <;> cases hrow
      | asset code => cases hrow
    · intro codes _
      have hzero : weight (noWeights settings).rows = fun _ => 0 := rfl
      simp [hzero]

/-- In every interleaving of requests on a user's assets, from a user with no weights on. -/
theorem weights_kept (settings : Option UserSettings)
    {σ : Config (Stmt AssetKey AssetRow) Reply AssetCall AssetHistory (Except ApiError Unit × Unit)}
    (h : Reaches (semantics AssetKey AssetRow AssetCall).recorded assetRequest
      (.start ⟨noWeights settings, []⟩) σ) : WeightsKept σ := by
  obtain ⟨⟨hsound, hweighed⟩, hthreads⟩ := Contract.sound assetRequest_covers
    (noWeights_inv settings) (fun i k => rfl) (reaches_of_recorded h)
  constructor
  · exact hweighed.within
  · intro i hi
    have hclean : σ.world.now.Clean i := by
      have hthread := hthreads i
      rw [hi] at hthread
      exact hthread
    have hlisted := assets_nodup (hsound.listing_nodup i) (by
      rintro ⟨k, v⟩ hmem row hrow
      have hview := hsound.mem_listing.mp hmem
      rw [hclean.view] at hview
      exact (hweighed.keyed k row (by rw [hview]; exact hrow)).1)
    have hstored : ∀ row ∈ assetsIn (σ.world.now.listing i),
        assetAt (σ.world.now.rows (.asset row.asset)) = some row := by
      intro row hrow
      obtain ⟨k, hk⟩ := (mem_assetsIn hsound).mp hrow
      rw [hclean.view] at hk
      rw [← (hweighed.keyed k row hk).1]
      exact hk
    have hwithin := hweighed.within _ hlisted
    have hhundred : HUNDRED.value = 100 := by simp [HUNDRED, Decimal.value]
    rw [cashTargetPct, Decimal.value_sub, totalPct_of_stored hstored, hhundred]
    exact sub_nonneg.mpr hwithin
  · intro i call e l hl
    exact rows_kept_of_raised h hl rfl (body_assetWork call)
  · intro i asset body assetNames pairs total l hl
    obtain ⟨t, x, hwork, htrace, -⟩ := path_transaction (path_of_returned h hl)
    rw [htrace]
    rcases path_bind hwork with ⟨row, l₁, t₁, t₂, -, hpure, -⟩ | ⟨e, hput, he⟩
    · obtain ⟨-, he, -⟩ := path_pure hpure
      cases he
    · cases he
      obtain ⟨names, code, listed, hnames, hcode, hmem, hlimit⟩ := putAsset_refused hput
      exact ⟨names, code, listed, hnames, hcode, List.mem_append_left _ hmem, hlimit⟩

/-! ## Two requests at once -/

def euroNames : Dict String String where
  entries := [("ZEUR", "EUR"), ("XXBT", "XBT"), ("XETH", "ETH")]
  nodup := by decide

/-- The market of an asset against the euro. -/
def euroPair (name base : String) : PairMeta where
  pair := name
  altname := name
  base
  quote := "ZEUR"
  priceDecimals := 1
  volumeDecimals := 8
  orderMin := ⟨1, -4⟩
  costMin := ⟨5, -1⟩
  status := "online"
  costDecimals := 5

def euroPairs : Dict String PairMeta where
  entries := [("XXBTZEUR", euroPair "XXBTZEUR" "XXBT"), ("XETHZEUR", euroPair "XETHZEUR" "XETH")]
  nodup := by decide

def euroSettings : UserSettings := (newSettings ⟨List.replicate 16 0, rfl⟩ "EUR").toUserSettings

def sixty : AssetIn where
  targetPct := ⟨60, 0⟩
  bounded := ⟨by decide +kernel, by decide +kernel, 6000, by norm_num [Decimal.value]⟩

def turnsOf (i n : Nat) : List (Turn AssetCall Unit) := List.replicate n (.act i ())

/-- Two `PUT` of sixty percent start together, and the second waits for the lock of the first. -/
def twoPuts : List (Turn AssetCall Unit) :=
  [.spawn 0 (.put " xbt" sixty (some euroNames) (some euroPairs)),
    .spawn 1 (.put "xeth" sixty (some euroNames) (some euroPairs))] ++
      turnsOf 0 1 ++ turnsOf 1 1 ++ turnsOf 0 5 ++ turnsOf 1 3

theorem weights_kept_twoPuts :
    ∃ σ, Reaches (semantics AssetKey AssetRow AssetCall).recorded assetRequest
        (.start ⟨noWeights (some euroSettings), []⟩) σ ∧
      weight σ.world.now.rows "XBT" = 60 ∧ weight σ.world.now.rows "ETH" = 0 ∧ WeightsKept σ := by
  obtain ⟨σ, hσ, hc⟩ := reaches_of_replay assetRequest responder.recorded
    (.start ⟨noWeights (some euroSettings), []⟩) twoPuts
    (fun σ => decide (weight σ.world.now.rows "XBT" = 60 ∧ weight σ.world.now.rows "ETH" = 0))
    (by decide +kernel)
  have hweights := of_decide_eq_true hc
  exact ⟨σ, hσ, hweights.1, hweights.2, weights_kept (some euroSettings) hσ⟩

end Coinpilot.Records
