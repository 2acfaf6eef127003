import Coinpilot.Web.SaveOrder
import Coinpilot.Records.Weights
import Coinpilot.Lib.Ascending
import Coinpilot.Lib.Sequential

/-!
# Saving the targets never trips the check of their sum

The form sends its puts from the largest decrease to the largest increase, and the platform checks
the sum at each of them. A put is answered where it leaves the others room (`serve_putAsset`). The sum
after some of the puts is where they start plus their changes, which first lower it and then raise it,
so it exceeds neither the sum that is stored nor the one that is wanted (`serve_sendPuts`).
-/

set_option autoImplicit false

namespace Coinpilot.Records.Saving

open Coinpilot.Lib Coinpilot.Lib.Program Coinpilot.Lib.ReadCommitted Coinpilot.Exchange
  Coinpilot.Core Coinpilot.Core.Assets Coinpilot.Api Coinpilot.Web

/-- A user who has chosen a fiat, with nothing in progress: each row is under its asset, and its target
is not negative. -/
structure Filed (settings : UserSettings) (w : Store AssetKey AssetRow) : Prop where
  quiet : w = Store.idle w.rows w.keys
  sound : w.Sound
  settings : w.rows .settings = some (.settings settings)
  keyed : ∀ k row, assetAt (w.rows k) = some row → k = .asset row.asset ∧ 0 ≤ row.targetPct.value
  typed : ∀ code v, w.rows (.asset code) = some v → ∃ row, v = .asset row

/-- The target that is stored for an asset, if one is. -/
def storedTarget (rows : Rows AssetKey AssetRow) (code : String) : Option Rat :=
  (assetAt (rows (.asset code))).map fun row => row.targetPct.value

theorem weight_eq (rows : Rows AssetKey AssetRow) (code : String) :
    weight rows code = (storedTarget rows code).getD 0 := by
  rw [weight, storedTarget]
  cases assetAt (rows (.asset code)) with
  | none => rfl
  | some row => rfl

section Reading

variable {settings : UserSettings} {w : Store AssetKey AssetRow} {i : Nat}

theorem Filed.view (h : Filed settings w) (i : Nat) : w.view i = w.rows := by
  rw [h.quiet]
  rfl

theorem Filed.own (h : Filed settings w) (i : Nat) : w.Own i := by
  rw [h.quiet]
  exact Store.own_idle i w.rows w.keys

/-- The rows that a list has. -/
theorem Filed.mem_listed (h : Filed settings w) {row : AssetConfig} :
    row ∈ assetsIn (w.listing i) ↔ assetAt (w.rows (.asset row.asset)) = some row := by
  rw [mem_assetsIn h.sound, h.view]
  constructor
  · rintro ⟨k, hk⟩
    rw [← (h.keyed k row hk).1]
    exact hk
  · exact fun hrow => ⟨_, hrow⟩

theorem Filed.listed_nodup (h : Filed settings w) :
    ((assetsIn (w.listing i)).map AssetConfig.asset).Nodup := by
  apply assets_nodup (h.sound.listing_nodup i)
  rintro ⟨k, v⟩ hmem row hrow
  have hview := h.sound.mem_listing.mp hmem
  rw [h.view] at hview
  exact (h.keyed k row (by rw [hview]; exact hrow)).1

/-- What the form reads is what is stored. -/
theorem Filed.get?_storedTargets (h : Filed settings w) (code : String) :
    (storedTargets (assetsIn (w.listing i))).get? code =
      (assetAt (w.rows (.asset code))).map AssetConfig.targetPct := by
  have hnodup : (((assetsIn (w.listing i)).map fun row => (row.asset, row.targetPct)).map
      Prod.fst).Nodup := by
    rw [List.map_map]
    exact h.listed_nodup
  have hentries := Dict.entries_ofList hnodup
  have hmem : ∀ target, (storedTargets (assetsIn (w.listing i))).get? code = some target ↔
      ∃ row, assetAt (w.rows (.asset code)) = some row ∧ row.targetPct = target := by
    intro target
    constructor
    · intro hget
      have hentry := Dict.mem_of_get? hget
      rw [storedTargets, hentries, List.mem_map] at hentry
      obtain ⟨row, hrow, heq⟩ := hentry
      cases heq
      exact ⟨row, h.mem_listed.mp hrow, rfl⟩
    · rintro ⟨row, hrow, rfl⟩
      have hcode := (h.keyed _ row hrow).1
      cases hcode
      apply Dict.get?_of_mem
      rw [storedTargets, hentries]
      exact List.mem_map_of_mem (h.mem_listed.mpr hrow)
  apply Option.ext
  intro target
  rw [hmem, Option.map_eq_some_iff]

/-- The others that are stored, where all that is stored is among some assets. -/
theorem Filed.others_le (h : Filed settings w) {codes : List String}
    (hstored : ∀ code, storedTarget w.rows code ≠ none → code ∈ codes) {code : String}
    (hcode : code ∈ codes) :
    (totalPct ((assetsIn (w.listing i)).filter fun row => row.asset ≠ code)).value +
      weight w.rows code ≤ (codes.map (weight w.rows)).sum := by
  have hlisted : ∀ row ∈ (assetsIn (w.listing i)).filter fun row => row.asset ≠ code,
      assetAt (w.rows (.asset row.asset)) = some row :=
    fun row hrow => h.mem_listed.mp (List.mem_filter.mp hrow).1
  rw [totalPct_of_stored hlisted, ((List.perm_cons_erase hcode).map _).sum_eq, List.map_cons,
    List.sum_cons, add_comm]
  apply add_le_add_right
  apply sum_le_of_support (weight_nonneg h.keyed)
  · exact h.listed_nodup.sublist (List.filter_sublist.map _)
  · intro c hc _
    obtain ⟨row, hrow, rfl⟩ := List.mem_map.mp hc
    have hne : row.asset ≠ code := by simpa using (List.mem_filter.mp hrow).2
    apply (List.mem_erase_of_ne hne).mpr
    apply hstored
    simp [storedTarget, hlisted row hrow]

end Reading

/-! ## One write -/

section Writing

variable {settings : UserSettings} {w w' : Store AssetKey AssetRow} {i : Nat}

/-- The row of an asset has this target, and no other row is another one. -/
structure Wrote (code : String) (target : Rat) (rows rows' : Rows AssetKey AssetRow) : Prop where
  here : ∃ row, rows' (.asset code) = some (.asset row) ∧ row.asset = code ∧ row.targetPct.value = target
  elsewhere : ∀ k, k ≠ .asset code → rows' k = rows k

theorem Wrote.storedTarget {code : String} {target : Rat} {rows rows' : Rows AssetKey AssetRow}
    (h : Wrote code target rows rows') : storedTarget rows' code = some target := by
  obtain ⟨row, hrow, -, htarget⟩ := h.here
  simp [Saving.storedTarget, hrow, assetAt, htarget]

theorem Wrote.weight {code : String} {target : Rat} {rows rows' : Rows AssetKey AssetRow}
    (h : Wrote code target rows rows') (c : String) :
    weight rows' c = if c = code then target else weight rows c := by
  by_cases hc : c = code
  · rw [weight_eq, hc, h.storedTarget, if_pos rfl]
    rfl
  · rw [if_neg hc, Records.weight, Records.weight, h.elsewhere (.asset c) (by simpa using hc)]

/-- A statement keeps what is known of the rows and the locks, so a program does. -/
theorem serve_sound {α : Type} {p : Prog (Stmt AssetKey AssetRow) Reply α} {a : α} (hs : w.Sound)
    (h : serve i p w = some (a, w')) : w'.Sound := by
  induction p generalizing w with
  | ret x =>
    cases h
    exact hs
  | call s next ih =>
    obtain ⟨⟨b, w₁⟩, hb, hrest⟩ := Option.bind_eq_some_iff.mp h
    exact ih b (answered_kept hs (respond_answers hb)).1 hrest

theorem Filed.wrote {code : String} {target : Rat} {rows' : Rows AssetKey AssetRow}
    {keys' : List AssetKey} (h : Filed settings w) (hpos : 0 ≤ target)
    (hwrote : Wrote code target w.rows rows') (hsound : (Store.idle rows' keys').Sound) :
    Filed settings (Store.idle rows' keys') := by
  obtain ⟨row, hrow, hasset, htarget⟩ := hwrote.here
  refine ⟨rfl, hsound, ?_, fun k row' hrow' => ?_, fun c v hv => ?_⟩
  · change rows' .settings = _
    rw [hwrote.elsewhere _ (by simp), h.settings]
  · change assetAt (rows' k) = some row' at hrow'
    by_cases hk : k = .asset code
    · rw [hk, hrow] at hrow'
      cases hrow'
      exact ⟨by rw [hk, hasset], by rwa [htarget]⟩
    · rw [hwrote.elsewhere k hk] at hrow'
      exact h.keyed k row' hrow'
  · change rows' (.asset c) = some v at hv
    by_cases hc : c = code
    · rw [hc, hrow] at hv
      exact ⟨row, (Option.some.inj hv).symm⟩
    · rw [hwrote.elsewhere (.asset c) (by simpa using hc)] at hv
      exact h.typed c v hv

theorem serve_upsertAsset (code pair : String) (target : Decimal) (hown : w.Own i)
    (htyped : ∀ v, w.view i (.asset code) = some v → ∃ row, v = .asset row ∧ row.asset = code) :
    ∃ row w', serve i ((upsertAsset code pair target).exec ()) w = some ((.ok row, ()), w') ∧
      row.asset = code ∧ w'.Own i ∧ Wrote code target.value (w.view i) (w'.view i) := by
  rw [upsertAsset, serve_bind serve_select]
  cases hrow : w.view i (.asset code) with
  | none =>
    have hnone : assetAt none = none := rfl
    simp only [hnone]
    rw [serve_bind (serve_insertRow (hown.free _) hrow _), if_pos rfl]
    refine ⟨_, _, serve_pure _, rfl, hown.create _ _,
      ⟨{ asset := code, pair, targetPct := target }, ?_, rfl, rfl⟩, fun k hk => ?_⟩
    · rw [Store.view_create, Function.update_self]
    · rw [Store.view_create, Function.update_of_ne hk]
  | some v =>
    obtain ⟨row, rfl, hasset⟩ := htyped v hrow
    have hsome : assetAt (some (.asset row)) = some row := rfl
    simp only [hsome]
    by_cases hsame : row.pair = pair ∧ row.targetPct.value = target.value
    · -- the row has these values, and no statement is sent
      rw [if_pos hsame]
      exact ⟨_, _, serve_pure _, hasset, hown, ⟨row, hrow, hasset, hsame.2⟩, fun k _ => rfl⟩
    · rw [if_neg hsame, serve_bind (serve_updateRow (hown.free _) hrow _), if_pos rfl]
      refine ⟨_, _, serve_pure _, hasset, (hown.take _).draft _ _,
        ⟨{ row with pair, targetPct := target }, ?_, hasset, rfl⟩, fun k hk => ?_⟩
      · rw [Store.view_draft, Function.update_self]
      · rw [Store.view_draft, Function.update_of_ne hk, Store.view_take]

/-- A put is answered where it leaves the others room. -/
theorem serve_putAsset {asset code : String} {pair : PairMeta} {body : AssetIn}
    {assetNames : Option (Dict String String)} {pairs : Option (Dict String PairMeta)}
    (h : Filed settings w)
    (hresolve : resolveAsset asset settings.fiat assetNames pairs = .ok (code, pair))
    (hroom : (totalPct ((assetsIn (w.listing i)).filter fun row => row.asset ≠ code)).value +
      body.targetPct.value ≤ 100) :
    ∃ row w', serve i ((putAsset asset body assetNames pairs).exec ()) w = some ((.ok row, ()), w') ∧
      row.asset = code ∧ w'.Own i ∧ Wrote code body.targetPct.value w.rows (w'.view i) := by
  have hsettings : settingsAt (w.view i .settings) = some settings := by
    rw [h.view, h.settings]
    rfl
  have hget : serve i (Assets.getSettings.exec ()) w = some ((.ok (some settings), ()), w) := by
    rw [Assets.getSettings, serve_bind serve_select, hsettings]
    rfl
  have hlock : serve i (Assets.lockSettings.exec ()) w =
      some ((.ok (some settings), ()), w.take i .settings) := by
    have hrow : w.view i .settings = some (.settings settings) := by rw [h.view, h.settings]
    rw [Assets.lockSettings, serve_bind (serve_lockRow ((h.own i).free _) hrow)]
    rfl
  have hlist : serve i (Assets.listAssets.exec ()) (w.take i .settings) =
      some ((.ok (assetsIn (w.listing i)), ()), w.take i .settings) := by
    rw [Assets.listAssets, serve_bind serve_selectAll]
    rfl
  have hlimit : ¬HUNDRED.value < ((totalPct ((assetsIn (w.listing i)).filter fun row =>
      row.asset ≠ code)).add body.targetPct).value := by
    have hhundred : HUNDRED.value = 100 := by simp [HUNDRED, Decimal.value]
    rw [Decimal.value_add, hhundred, not_lt]
    exact hroom
  have htyped : ∀ v, (w.take i .settings).view i (.asset code) = some v →
      ∃ row, v = .asset row ∧ row.asset = code := by
    intro v hv
    rw [Store.view_take, h.view] at hv
    obtain ⟨row, rfl⟩ := h.typed code v hv
    have hkey := (h.keyed (.asset code) row (by rw [hv]; rfl)).1
    exact ⟨row, rfl, (AssetKey.asset.inj hkey).symm⟩
  obtain ⟨row, w', hserve, hasset, hown, hwrote⟩ :=
    serve_upsertAsset code pair.pair body.targetPct ((h.own i).take .settings) htyped
  rw [Store.view_take, h.view] at hwrote
  refine ⟨row, w', ?_, hasset, hown, hwrote⟩
  rw [putAsset, serve_bind hget]
  dsimp only
  rw [serve_bind (serve_fromExcept hresolve)]
  dsimp only
  rw [serve_bind hlock, serve_bind hlist, if_neg hlimit]
  exact hserve

theorem serve_unwrap {α : Type} (failedAt : String) {request : AssetWork α} {a : α} (hown : w'.Own i)
    (h : serve i (request.exec ()) w = some ((.ok a, ()), w')) :
    serve i ((unwrap failedAt request).exec ()) w =
      some ((.ok a, ()), Store.idle (w'.view i) w'.keys) := by
  change serve i (Prog.bind _ _) w = _
  rw [serve_prog_bind, serve_transaction hown h]
  rfl

end Writing

/-! ## The loops -/

section Loops

variable {settings : UserSettings} {w : Store AssetKey AssetRow} {i : Nat}
  {kraken : String → CatalogAnswer} {wanted : Dict String AssetIn}

/-- Kraken lists an asset under the name that is sent, and trades it against the fiat. -/
def Accepts (kraken : String → CatalogAnswer) (fiat asset : String) : Prop :=
  ∃ pair, resolveAsset asset fiat (kraken asset).assetNames (kraken asset).pairs = .ok (asset, pair)

/-- What a put changes of the weights that are stored. -/
def gain (rows : Rows AssetKey AssetRow) (put : Put) : Rat :=
  put.target.targetPct.value - weight rows put.asset

theorem sum_weight_wrote {code : String} {target : Rat} {rows rows' : Rows AssetKey AssetRow}
    (h : Wrote code target rows rows') {codes : List String} (hcodes : codes.Nodup) (hcode : code ∈ codes) :
    (codes.map (weight rows')).sum = (codes.map (weight rows)).sum + (target - weight rows code) := by
  have hrest : (codes.erase code).map (weight rows') = (codes.erase code).map (weight rows) := by
    apply List.map_congr_left
    intro c hc
    rw [h.weight, if_neg fun heq : c = code => hcodes.not_mem_erase (heq ▸ hc)]
  have hsplit : ∀ f : String → Rat, (codes.map f).sum = f code + ((codes.erase code).map f).sum := by
    intro f
    rw [((List.perm_cons_erase hcode).map f).sum_eq, List.map_cons, List.sum_cons]
  rw [hsplit, hsplit (weight rows), hrest, h.weight, if_pos rfl]
  ring

/-- One put of the form that leaves the others room. -/
theorem serve_put (wanted : Dict String AssetIn) (h : Filed settings w) {put : Put}
    (hkraken : Accepts kraken settings.fiat put.asset)
    (hroom : (totalPct ((assetsIn (w.listing i)).filter fun row => row.asset ≠ put.asset)).value +
      put.target.targetPct.value ≤ 100) :
    ∃ w', Filed settings w' ∧ Wrote put.asset put.target.targetPct.value w.rows w'.rows ∧
      ∀ rest, serve i ((sendPuts kraken wanted (put :: rest)).exec ()) w =
        serve i ((sendPuts kraken wanted rest).exec ()) w' := by
  obtain ⟨pair, hresolve⟩ := hkraken
  obtain ⟨row, w₁, hserve, hasset, hown, hwrote⟩ := serve_putAsset h hresolve hroom
  have hsent := serve_unwrap put.asset hown hserve
  refine ⟨_, h.wrote put.target.bounded.1 hwrote (serve_sound h.sound hsent), hwrote, fun rest => ?_⟩
  have hsame : ¬(row.asset ≠ put.asset ∧ row.asset ∈ wanted.keys) := fun hdiffers => hdiffers.1 hasset
  rw [sendPuts, serve_bind hsent, if_neg hsame]

/-- What the puts leave, and the room that each of them finds. -/
structure Sent (w : Store AssetKey AssetRow) (codes : List String) (puts : List Put)
    (w' : Store AssetKey AssetRow) : Prop where
  written : ∀ put ∈ puts, storedTarget w'.rows put.asset = some put.target.targetPct.value
  unwritten : ∀ code, code ∉ puts.map Put.asset → w'.rows (.asset code) = w.rows (.asset code)
  total : (codes.map (weight w'.rows)).sum = (codes.map (weight w.rows)).sum + (puts.map (gain w.rows)).sum

/-- Every put is answered where the sum that it leaves is within 100 after each of them. -/
theorem serve_sendPuts (kraken : String → CatalogAnswer) (wanted : Dict String AssetIn)
    (codes : List String) (hcodes : codes.Nodup) {puts : List Put}
    (h : Filed settings w) (hputs : (puts.map Put.asset).Nodup) (hin : ∀ put ∈ puts, put.asset ∈ codes)
    (hstored : ∀ code, storedTarget w.rows code ≠ none → code ∈ codes)
    (hkraken : ∀ put ∈ puts, Accepts kraken settings.fiat put.asset)
    (hroom : ∀ pre post, puts = pre ++ post →
      (codes.map (weight w.rows)).sum + (pre.map (gain w.rows)).sum ≤ 100) :
    ∃ w', serve i ((sendPuts kraken wanted puts).exec ()) w = some ((.ok (), ()), w') ∧
      Filed settings w' ∧ Sent w codes puts w' ∧
      ∀ code, storedTarget w'.rows code ≠ none → code ∈ codes := by
  induction puts generalizing w with
  | nil => exact ⟨w, rfl, h, ⟨by simp, fun _ _ => rfl, by simp⟩, hstored⟩
  | cons put rest ih =>
    have hcode := hin put List.mem_cons_self
    have hnotin : put.asset ∉ rest.map Put.asset := (List.nodup_cons.mp hputs).1
    have hothers := h.others_le (i := i) hstored hcode
    have hfirst := hroom [put] rest rfl
    rw [List.map_singleton, List.sum_singleton, gain] at hfirst
    obtain ⟨w₁, hfiled, hwrote, hserve⟩ := serve_put (i := i) wanted h
      (hkraken put List.mem_cons_self) (by linarith)
    have htotal := sum_weight_wrote hwrote hcodes hcode
    -- the puts that are left have not been written, so they change what they would have changed
    have hgain : ∀ l : List Put, (∀ p ∈ l, p ∈ rest) → l.map (gain w₁.rows) = l.map (gain w.rows) := by
      intro l hl
      apply List.map_congr_left
      intro p hp
      have hne : p.asset ≠ put.asset := fun heq => hnotin (heq ▸ List.mem_map_of_mem (hl p hp))
      rw [gain, gain, hwrote.weight, if_neg hne]
    have hstored₁ : ∀ code, storedTarget w₁.rows code ≠ none → code ∈ codes := by
      intro code hne
      by_cases heq : code = put.asset
      · rwa [heq]
      · apply hstored code
        rwa [storedTarget, hwrote.elsewhere (.asset code) (by simpa using heq)] at hne
    obtain ⟨w', hrest, hfiled', hsent, hstored'⟩ := ih hfiled (List.nodup_cons.mp hputs).2
      (fun p hp => hin p (List.mem_cons_of_mem _ hp)) hstored₁
      (fun p hp => hkraken p (List.mem_cons_of_mem _ hp)) (by
        intro pre post heq
        have hroom' := hroom (put :: pre) post (by rw [heq]; rfl)
        rw [List.map_cons, List.sum_cons, gain] at hroom'
        rw [htotal, hgain pre fun p hp => by rw [heq]; exact List.mem_append_left _ hp]
        linarith)
    refine ⟨w', by rw [hserve, hrest], hfiled', ⟨?_, ?_, ?_⟩, hstored'⟩
    · intro p hp
      rcases List.mem_cons.mp hp with rfl | hp
      · rw [storedTarget, hsent.unwritten _ hnotin]
        exact hwrote.storedTarget
      · exact hsent.written p hp
    · intro code hne
      rw [List.map_cons, List.mem_cons, not_or] at hne
      rw [hsent.unwritten code hne.2, hwrote.elsewhere (.asset code) (by simpa using hne.1)]
    · rw [hsent.total, htotal, hgain rest fun _ hp => hp, List.map_cons, List.sum_cons, gain]
      ring

/-- The row that a delete removes. -/
theorem Filed.removed {code : String} {keys' : List AssetKey} (h : Filed settings w)
    (hsound : (Store.idle (Function.update w.rows (.asset code) none) keys').Sound) :
    Filed settings (Store.idle (Function.update w.rows (.asset code) none) keys') := by
  refine ⟨rfl, hsound, ?_, fun k row hrow => ?_, fun c v hv => ?_⟩
  · change Function.update w.rows (.asset code) none .settings = _
    rw [Function.update_of_ne (by simp), h.settings]
  · change assetAt (Function.update w.rows (.asset code) none k) = some row at hrow
    by_cases hk : k = .asset code
    · rw [hk, Function.update_self] at hrow
      cases hrow
    · rw [Function.update_of_ne hk] at hrow
      exact h.keyed k row hrow
  · change Function.update w.rows (.asset code) none (.asset c) = some v at hv
    by_cases hc : AssetKey.asset c = .asset code
    · rw [hc, Function.update_self] at hv
      cases hv
    · rw [Function.update_of_ne hc] at hv
      exact h.typed c v hv

/-- One delete of the form. -/
theorem serve_delete (h : Filed settings w) {asset : String} {row : AssetConfig}
    (hrow : w.rows (.asset asset) = some (.asset row))
    (hcode : deletedCode asset (kraken asset).assetNames = asset) :
    ∃ w', Filed settings w' ∧ w'.rows = Function.update w.rows (.asset asset) none ∧
      ∀ rest, serve i ((sendDeletes kraken (asset :: rest)).exec ()) w =
        serve i ((sendDeletes kraken rest).exec ()) w' := by
  have hview : w.view i (.asset asset) = some (.asset row) := by rw [h.view, hrow]
  have hdelete : serve i ((Assets.deleteAsset asset).exec ()) w =
      some ((.ok true, ()), (w.take i (.asset asset)).draft i (.asset asset) none) := by
    have hsome : assetAt (w.view i (.asset asset)) = some row := by rw [hview]; rfl
    rw [Assets.deleteAsset, serve_bind serve_select]
    simp only [hsome]
    rw [serve_bind (serve_deleteRow ((h.own i).free _) hview), serve_pure]
  have hown : ((w.take i (.asset asset)).draft i (.asset asset) none).Own i :=
    ((h.own i).take _).draft _ _
  have hserve : serve i ((Api.deleteAsset asset (kraken asset).assetNames).exec ()) w =
      some ((.ok (), ()), (w.take i (.asset asset)).draft i (.asset asset) none) := by
    rw [Api.deleteAsset, hcode, serve_bind hdelete, if_pos rfl, serve_pure]
  have hsent := serve_unwrap asset hown hserve
  have hsound := serve_sound h.sound hsent
  rw [Store.view_draft, Store.view_take, h.view] at hsent hsound
  exact ⟨_, h.removed hsound, rfl, fun rest => by rw [sendDeletes, serve_bind hsent]⟩

theorem serve_sendDeletes (kraken : String → CatalogAnswer) {deletes : List String}
    (h : Filed settings w) (hdeletes : deletes.Nodup)
    (hrows : ∀ asset ∈ deletes, ∃ row, w.rows (.asset asset) = some (.asset row))
    (hcode : ∀ asset ∈ deletes, deletedCode asset (kraken asset).assetNames = asset) :
    ∃ w', serve i ((sendDeletes kraken deletes).exec ()) w = some ((.ok (), ()), w') ∧
      Filed settings w' ∧ (∀ asset ∈ deletes, w'.rows (.asset asset) = none) ∧
      ∀ code, code ∉ deletes → w'.rows (.asset code) = w.rows (.asset code) := by
  induction deletes generalizing w with
  | nil => exact ⟨w, rfl, h, by simp, fun _ _ => rfl⟩
  | cons asset rest ih =>
    obtain ⟨hnotin, hnodup⟩ := List.nodup_cons.mp hdeletes
    obtain ⟨row, hrow⟩ := hrows asset List.mem_cons_self
    obtain ⟨w₁, hfiled, hrows₁, hserve⟩ := serve_delete (i := i) h hrow (hcode asset List.mem_cons_self)
    have hkept : ∀ code, code ≠ asset → w₁.rows (.asset code) = w.rows (.asset code) := by
      intro code hne
      rw [hrows₁, Function.update_of_ne (by simpa using hne)]
    obtain ⟨w', hrest, hfiled', hgone, hkept'⟩ := ih hfiled hnodup (by
        intro code hc
        rw [hkept code fun heq => hnotin (heq ▸ hc)]
        exact hrows code (List.mem_cons_of_mem _ hc))
      fun code hc => hcode code (List.mem_cons_of_mem _ hc)
    refine ⟨w', by rw [hserve, hrest], hfiled', ?_, ?_⟩
    · intro code hc
      rcases List.mem_cons.mp hc with rfl | hc
      · rw [hkept' code hnotin, hrows₁, Function.update_self]
      · exact hgone code hc
    · intro code hc
      rw [List.mem_cons, not_or] at hc
      rw [hkept' code hc.2, hkept code hc.1]

end Loops

/-! ## The order -/

section Order

variable {settings : UserSettings} {w : Store AssetKey AssetRow} {i : Nat}
  {localeCompare : String → String → Int} {wanted : Dict String AssetIn}

theorem mem_puts {stored : Dict String Decimal} {put : Put} :
    put ∈ (saveOrder localeCompare stored wanted).puts ↔
      (put.asset, put.target) ∈ wanted.entries ∧ needed stored put = true := by
  rw [saveOrder, (List.perm_insertionSort _ _).mem_iff, List.mem_filter, List.mem_map]
  refine and_congr_left' ⟨?_, fun h => ⟨_, h, rfl⟩⟩
  rintro ⟨e, he, rfl⟩
  exact he

theorem puts_nodup (localeCompare : String → String → Int) (stored : Dict String Decimal)
    (wanted : Dict String AssetIn) :
    ((saveOrder localeCompare stored wanted).puts.map Put.asset).Nodup := by
  rw [saveOrder, ((List.perm_insertionSort _ _).map _).nodup_iff]
  apply List.Nodup.sublist (List.filter_sublist.map _)
  rw [List.map_map]
  exact wanted.nodup

theorem puts_ascending (localeCompare : String → String → Int) (stored : Dict String Decimal)
    (wanted : Dict String AssetIn) :
    (saveOrder localeCompare stored wanted).puts.Pairwise fun a b =>
      (change stored a).value ≤ (change stored b).value := by
  apply Ascending.pairwise_insertionSort_key
  · rintro a b (h | h)
    · exact h.le
    · exact h.1.le
  · intro a b h
    exact not_lt.mp fun hlt => h (.inl hlt)

/-- What the form takes for the change is the change of what is stored. -/
theorem Filed.change_eq (h : Filed settings w) (put : Put) :
    (change (storedTargets (assetsIn (w.listing i))) put).value = gain w.rows put := by
  rw [change, Decimal.value_sub, gain, Dict.getD, h.get?_storedTargets, weight]
  cases assetAt (w.rows (.asset put.asset)) with
  | none => rw [Option.map_none, Option.getD_none, Decimal.value_zero]
  | some row => rfl

theorem Filed.storedTarget_eq (h : Filed settings w) (code : String) :
    storedTarget w.rows code =
      ((storedTargets (assetsIn (w.listing i))).get? code).map Decimal.value := by
  rw [h.get?_storedTargets, storedTarget, Option.map_map]
  rfl

/-- A put is needed unless the target is stored as it is. -/
theorem Filed.needed_iff (h : Filed settings w) (put : Put) :
    needed (storedTargets (assetsIn (w.listing i))) put = true ↔
      storedTarget w.rows put.asset ≠ some put.target.targetPct.value := by
  rw [needed, Bool.or_eq_true, decide_eq_true_iff, h.change_eq, h.storedTarget_eq (i := i), gain, weight_eq,
    h.storedTarget_eq (i := i)]
  cases (storedTargets (assetsIn (w.listing i))).get? put.asset with
  | none => simp
  | some target =>
    rw [Option.map_some, Option.getD_some, sub_ne_zero, Option.isNone_some, Ne, Ne, Option.some.injEq]
    simp [eq_comm]

theorem sum_filter_eq {α : Type} {p : α → Bool} {f : α → Rat} {l : List α}
    (h : ∀ a ∈ l, p a = false → f a = 0) : ((l.filter p).map f).sum = (l.map f).sum := by
  induction l with
  | nil => rfl
  | cons a l ih =>
    have ih := ih fun b hb => h b (List.mem_cons_of_mem a hb)
    cases hp : p a with
    | true => rw [List.filter_cons_of_pos hp, List.map_cons, List.sum_cons, ih, List.map_cons, List.sum_cons]
    | false =>
      rw [List.filter_cons_of_neg (by simp [hp]), ih, List.map_cons, List.sum_cons,
        h a List.mem_cons_self hp, zero_add]

/-- The changes lead from what is stored of the wanted assets to what is wanted. -/
theorem Filed.sum_gains (localeCompare : String → String → Int) (wanted : Dict String AssetIn)
    (h : Filed settings w) :
    (wanted.keys.map (weight w.rows)).sum +
      ((saveOrder localeCompare (storedTargets (assetsIn (w.listing i))) wanted).puts.map
        (gain w.rows)).sum = (wanted.values.map fun target => target.targetPct.value).sum := by
  have hzero : ∀ put ∈ wanted.entries.map (fun e => Put.mk e.1 e.2),
      needed (storedTargets (assetsIn (w.listing i))) put = false → gain w.rows put = 0 := by
    intro put _ hneeded
    have hsame : storedTarget w.rows put.asset = some put.target.targetPct.value := by
      by_contra hne
      rw [(h.needed_iff put).mpr hne] at hneeded
      cases hneeded
    rw [gain, weight_eq, hsame, Option.getD_some, sub_self]
  rw [saveOrder, ((List.perm_insertionSort _ _).map _).sum_eq, sum_filter_eq hzero, List.map_map, Dict.keys,
    Dict.values, List.map_map, List.map_map, ← List.sum_map_add]
  congr 1
  apply List.map_congr_left
  intro e _
  simp [gain]

end Order

/-! ## The form and the platform -/

/-- What sending an order does: each put passes the platform's check on what is stored when it arrives;
the order is sent to its end, and leaves the wanted targets and no others; and no target is sent that
does not change. -/
structure Saved (kraken : String → CatalogAnswer) (i : Nat) (w : Store AssetKey AssetRow)
    (wanted : Dict String AssetIn) (order : SaveOrder) : Prop where
  passes : ∀ pre put post, order.puts = pre ++ put :: post → ∃ w₁,
    serve i ((send kraken wanted ⟨order.deletes, pre⟩).exec ()) w = some ((.ok (), ()), w₁) ∧
      ((totalPct ((assetsIn (w₁.listing i)).filter fun row => row.asset ≠ put.asset)).add
        put.target.targetPct).value ≤ HUNDRED.value
  stored : ∃ w', serve i ((send kraken wanted order).exec ()) w = some ((.ok (), ()), w') ∧
    ∀ code, storedTarget w'.rows code = (wanted.get? code).map fun target => target.targetPct.value
  spared : ∀ put ∈ order.puts, storedTarget w.rows put.asset ≠ some put.target.targetPct.value

/-- Whatever is stored within 100 and wanted within 100, where Kraken takes the names that are sent. -/
theorem saving_passes_checks (settings : UserSettings) (w : Store AssetKey AssetRow)
    (h : Filed settings w)
    (hstored : ∀ codes : List String, codes.Nodup → (codes.map (weight w.rows)).sum ≤ 100)
    (wanted : Dict String AssetIn)
    (hwanted : (wanted.values.map fun target => target.targetPct.value).sum ≤ 100)
    (localeCompare : String → String → Int) (kraken : String → CatalogAnswer)
    (haccepts : ∀ asset ∈ wanted.keys, Accepts kraken settings.fiat asset)
    (hdeleted : ∀ asset, storedTarget w.rows asset ≠ none →
      deletedCode asset (kraken asset).assetNames = asset) (i : Nat) :
    Saved kraken i w wanted
      (saveOrder localeCompare (storedTargets (assetsIn (w.listing i))) wanted) := by
  have hputs := puts_nodup localeCompare (storedTargets (assetsIn (w.listing i))) wanted
  have hentries : ∀ put ∈ (saveOrder localeCompare (storedTargets (assetsIn (w.listing i))) wanted).puts,
      (put.asset, put.target) ∈ wanted.entries := fun put hput => (mem_puts.mp hput).1
  have hascending := puts_ascending localeCompare (storedTargets (assetsIn (w.listing i))) wanted
  have htotal := h.sum_gains (i := i) localeCompare wanted
  have hmem : ∀ asset, asset ∈ (saveOrder localeCompare (storedTargets (assetsIn (w.listing i)))
      wanted).deletes ↔ storedTarget w.rows asset ≠ none ∧ asset ∉ wanted.keys := by
    intro asset
    rw [saveOrder, List.mem_filter, decide_eq_true_iff, h.storedTarget_eq (i := i), Dict.mem_keys_iff,
      ← Option.isSome_iff_exists, Ne, Option.map_eq_none_iff, Option.isSome_iff_ne_none]
  have hdeletes : (saveOrder localeCompare (storedTargets (assetsIn (w.listing i)))
      wanted).deletes.Nodup := List.Nodup.filter _ (storedTargets (assetsIn (w.listing i))).nodup
  have hspared : ∀ put ∈ (saveOrder localeCompare (storedTargets (assetsIn (w.listing i))) wanted).puts,
      storedTarget w.rows put.asset ≠ some put.target.targetPct.value :=
    fun put hput => (h.needed_iff put).mp (mem_puts.mp hput).2
  have hneeded : ∀ put : Put, (put.asset, put.target) ∈ wanted.entries →
      storedTarget w.rows put.asset ≠ some put.target.targetPct.value →
      put ∈ (saveOrder localeCompare (storedTargets (assetsIn (w.listing i))) wanted).puts :=
    fun put hput hne => mem_puts.mpr ⟨hput, (h.needed_iff put).mpr hne⟩
  simp only [h.change_eq] at hascending
  generalize saveOrder localeCompare (storedTargets (assetsIn (w.listing i))) wanted = order
    at hputs hentries hascending htotal hmem hdeletes hspared hneeded ⊢
  have hkeys : ∀ put ∈ order.puts, put.asset ∈ wanted.keys :=
    fun put hput => List.mem_map_of_mem (hentries put hput)
  -- the deletes take away what is not wanted, and nothing else
  obtain ⟨w₁, hserve, hfiled, hgone, hkept⟩ := serve_sendDeletes (i := i) kraken h hdeletes
    (by
      intro asset hasset
      have hne := ((hmem asset).mp hasset).1
      cases hrow : w.rows (.asset asset) with
      | none => simp [storedTarget, hrow, assetAt] at hne
      | some v =>
        obtain ⟨row, rfl⟩ := h.typed asset v hrow
        exact ⟨row, rfl⟩)
    fun asset hasset => hdeleted asset ((hmem asset).mp hasset).1
  have hsame : ∀ code ∈ wanted.keys, w₁.rows (.asset code) = w.rows (.asset code) :=
    fun code hcode => hkept code fun hdel => ((hmem code).mp hdel).2 hcode
  have hamong : ∀ code, storedTarget w₁.rows code ≠ none → code ∈ wanted.keys := by
    intro code hne
    by_contra hcode
    by_cases hdel : code ∈ order.deletes
    · simp [storedTarget, hgone code hdel, assetAt] at hne
    · rw [storedTarget, hkept code hdel] at hne
      exact hdel ((hmem code).mpr ⟨hne, hcode⟩)
  have hweights : wanted.keys.map (weight w₁.rows) = wanted.keys.map (weight w.rows) := by
    apply List.map_congr_left
    intro code hcode
    rw [weight, weight, hsame code hcode]
  have hgains : ∀ l : List Put, (∀ put ∈ l, put ∈ order.puts) →
      l.map (gain w₁.rows) = l.map (gain w.rows) := by
    intro l hl
    apply List.map_congr_left
    intro put hput
    rw [gain, gain, weight, weight, hsame _ (hkeys put (hl put hput))]
  -- the changes come in ascending order, so no sum on the way is above both ends
  have hroom : ∀ pre post, order.puts = pre ++ post →
      (wanted.keys.map (weight w₁.rows)).sum + (pre.map (gain w₁.rows)).sum ≤ 100 := by
    intro pre post heq
    have hpre : ∀ put ∈ pre, put ∈ order.puts := fun put hput => by
      rw [heq]
      exact List.mem_append_left _ hput
    rw [hweights, hgains pre hpre]
    apply Ascending.sum_prefix_le _ (post.map (gain w.rows))
    · rw [← List.map_append, ← heq]
      exact List.pairwise_map.mpr hascending
    · exact hstored _ wanted.nodup
    · rw [← List.map_append, ← heq, htotal]
      exact hwanted
  have hsend : ∀ puts, serve i ((send kraken wanted ⟨order.deletes, puts⟩).exec ()) w =
      serve i ((sendPuts kraken wanted puts).exec ()) w₁ := fun puts => serve_bind hserve
  refine ⟨?_, ?_, hspared⟩
  · intro pre put post heq
    have hin : ∀ p ∈ pre, p ∈ order.puts := fun p hp => by
      rw [heq]
      exact List.mem_append_left _ hp
    have hput : put ∈ order.puts := by
      rw [heq]
      exact List.mem_append_right _ List.mem_cons_self
    rw [heq, List.map_append, List.map_cons] at hputs
    obtain ⟨hpre, -, hapart⟩ := List.nodup_append.mp hputs
    have hnotin : put.asset ∉ pre.map Put.asset := fun hmem => hapart _ hmem _ List.mem_cons_self rfl
    obtain ⟨w₂, hserve₂, hfiled₂, hsent, hamong₂⟩ := serve_sendPuts (i := i) kraken wanted
      wanted.keys wanted.nodup hfiled hpre (fun p hp => hkeys p (hin p hp)) hamong
      (fun p hp => haccepts _ (hkeys p (hin p hp)))
      fun pre' post' heq' => hroom pre' (post' ++ put :: post) (by rw [heq, heq', List.append_assoc])
    refine ⟨w₂, by rw [hsend, hserve₂], ?_⟩
    have hothers := hfiled₂.others_le (i := i) hamong₂ (hkeys put hput)
    have hafter := hroom (pre ++ [put]) post (by simp [heq])
    have hweight : weight w₂.rows put.asset = weight w₁.rows put.asset := by
      rw [weight, weight, hsent.unwritten _ hnotin]
    rw [List.map_append, List.sum_append, List.map_singleton, List.sum_singleton, gain] at hafter
    have hhundred : HUNDRED.value = 100 := by simp [HUNDRED, Decimal.value]
    rw [Decimal.value_add, hhundred]
    linarith [hsent.total]
  · obtain ⟨w₂, hserve₂, hfiled₂, hsent, hamong₂⟩ := serve_sendPuts (i := i) kraken wanted
      wanted.keys wanted.nodup hfiled hputs hkeys hamong (fun p hp => haccepts _ (hkeys p hp)) hroom
    refine ⟨w₂, by rw [hsend, hserve₂], fun code => ?_⟩
    cases hcode : wanted.get? code with
    | none =>
      rw [Option.map_none]
      by_contra hne
      obtain ⟨target, htarget⟩ := Dict.mem_keys_iff.mp (hamong₂ code hne)
      rw [hcode] at htarget
      cases htarget
    | some target =>
      rw [Option.map_some]
      have hentry := Dict.mem_of_get? hcode
      by_cases hne : storedTarget w.rows code = some target.targetPct.value
      · have hnotin : code ∉ order.puts.map Put.asset := by
          intro hmem
          obtain ⟨put, hput, rfl⟩ := List.mem_map.mp hmem
          have htarget := Dict.get?_of_mem (hentries put hput)
          rw [hcode] at htarget
          cases htarget
          exact hspared put hput hne
        rw [storedTarget, hsent.unwritten code hnotin, hsame code (List.mem_map_of_mem hentry)]
        exact hne
      · exact hsent.written ⟨code, target⟩ (hneeded ⟨code, target⟩ hentry hne)

/-! ## A form with a removed asset, a lowered one and a new one -/

def percent (n : Fin 101) : AssetIn where
  targetPct := ⟨n.val, 0⟩
  bounded := by
    have hn : (n.val : Rat) ≤ 100 := by exact_mod_cast Nat.lt_succ_iff.mp n.isLt
    refine ⟨by simp [Decimal.value], by simpa [Decimal.value] using hn, (n.val : Int) * 100, ?_⟩
    norm_num [Decimal.value]
    ring

/-- Sixty percent of bitcoin, and forty of an asset that Kraken no longer lists. -/
def heldRows : Rows AssetKey AssetRow
  | .settings => some (.settings euroSettings)
  | .asset code =>
      if code = "XBT" then some (.asset ⟨"XBT", "XXBTZEUR", ⟨60, 0⟩⟩)
      else if code = "DOT" then some (.asset ⟨"DOT", "DOTEUR", ⟨40, 0⟩⟩)
      else none

theorem heldKeys_nodup : [AssetKey.settings, .asset "XBT", .asset "DOT"].Nodup := by decide

def held : Store AssetKey AssetRow := Store.idle heldRows [.settings, .asset "XBT", .asset "DOT"]

theorem held_filed : Filed euroSettings held where
  quiet := rfl
  sound := by
    apply Store.idle_sound heldKeys_nodup
    rintro (_ | code) hk
    · exact List.mem_cons_self
    · rw [heldRows] at hk
      split_ifs at hk with hxbt hdot
      · simp [hxbt]
      · simp [hdot]
      · exact absurd rfl hk
  settings := rfl
  keyed := by
    rintro (_ | code) row hrow
    · cases hrow
    · change assetAt (heldRows (.asset code)) = some row at hrow
      rw [heldRows] at hrow
      split_ifs at hrow with hxbt hdot
      · cases hrow
        exact ⟨by rw [hxbt], by simp [Decimal.value]⟩
      · cases hrow
        exact ⟨by rw [hdot], by simp [Decimal.value]⟩
      · cases hrow
  typed := by
    intro code v hv
    change heldRows (.asset code) = some v at hv
    rw [heldRows] at hv
    split_ifs at hv
    · exact ⟨_, (Option.some.inj hv).symm⟩
    · exact ⟨_, (Option.some.inj hv).symm⟩

theorem held_within (codes : List String) (hcodes : codes.Nodup) :
    (codes.map (weight held.rows)).sum ≤ 100 := by
  have hsupport : ∀ code ∈ codes, weight held.rows code ≠ 0 → code ∈ ["XBT", "DOT"] := by
    intro code _ hne
    by_contra hcode
    apply hne
    rw [List.mem_cons, List.mem_singleton, not_or] at hcode
    simp [weight, held, Store.idle, heldRows, hcode.1, hcode.2, assetAt]
  calc (codes.map (weight held.rows)).sum ≤ (["XBT", "DOT"].map (weight held.rows)).sum :=
        sum_le_of_support (weight_nonneg held_filed.keyed) hcodes hsupport
    _ ≤ 100 := by decide +kernel

theorem wantedKeys_nodup :
    ([("XBT", percent 40), ("ETH", percent 55)].map Prod.fst).Nodup := by decide

def wantedTwo : Dict String AssetIn where
  entries := [("XBT", percent 40), ("ETH", percent 55)]
  nodup := wantedKeys_nodup

def euroCatalog (_ : String) : CatalogAnswer := ⟨some euroNames, some euroPairs⟩

/-- An order of the strings by their characters. -/
def byCharacters (a b : String) : Int := if a < b then -1 else if a = b then 0 else 1

theorem saving_of_held : Saved euroCatalog 0 held wantedTwo
    (saveOrder byCharacters (storedTargets (assetsIn (held.listing 0))) wantedTwo) := by
  apply saving_passes_checks euroSettings held held_filed held_within wantedTwo (by decide +kernel)
  · intro asset hasset
    have hcases : asset = "XBT" ∨ asset = "ETH" := by
      simpa [wantedTwo, Dict.keys] using hasset
    rcases hcases with rfl | rfl
    · exact ⟨euroPair "XXBTZEUR" "XXBT", by decide +kernel⟩
    · exact ⟨euroPair "XETHZEUR" "XETH", by decide +kernel⟩
  · intro asset hne
    have hcases : asset = "XBT" ∨ asset = "DOT" := by
      by_contra hcode
      rw [not_or] at hcode
      apply hne
      simp [storedTarget, held, Store.idle, heldRows, hcode.1, hcode.2, assetAt]
    rcases hcases with rfl | rfl
    · decide +kernel
    · decide +kernel

end Coinpilot.Records.Saving
