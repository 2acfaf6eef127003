import Coinpilot.Records.DailyPoints

/-!
# A pinned snapshot stays as it is

Every transaction on the snapshots, for any program that runs it: a draft of a pinned row is that
row, so a commit leaves the pinned rows as they are, and no row goes (`pinRules`). What a
`keep_snapshot` writes is a point that was shown, and what a pin writes is the row that it locked.
-/

set_option autoImplicit false

namespace Coinpilot.Records

open Coinpilot.Lib Coinpilot.Lib.Program Coinpilot.Lib.ReadCommitted Coinpilot.Core
  Coinpilot.Core.Snapshots

/-- From some rows to later ones: none goes, and the pinned ones stay as they are. -/
def Grows (rows rows' : SnapshotRows) : Prop :=
  ∀ id row, rows id = some row → ∃ row', rows' id = some row' ∧ (row.pinned = true → row' = row)

theorem Grows.refl (rows : SnapshotRows) : Grows rows rows :=
  fun _ row h => ⟨row, h, fun _ => rfl⟩

theorem Grows.trans {rows rows' rows'' : SnapshotRows} (h : Grows rows rows')
    (h' : Grows rows' rows'') : Grows rows rows'' := by
  intro id row hrow
  obtain ⟨row', hrow', hsame⟩ := h id row hrow
  obtain ⟨row'', hrow'', hsame'⟩ := h' id row' hrow'
  refine ⟨row'', hrow'', fun hpin => ?_⟩
  have heq := hsame hpin
  rw [← heq, hsame' (heq ▸ hpin)]

theorem Grows.pinned {rows rows' : SnapshotRows} (h : Grows rows rows') {id : SnapshotId}
    {row : PortfolioSnapshot} (hrow : rows id = some row) (hpin : row.pinned = true) :
    rows' id = some row := by
  obtain ⟨row', hrow', hsame⟩ := h id row hrow
  rw [hrow', hsame hpin]

/-- A draft is of a row, and that of a pinned row is the row itself. -/
def Protected (w : SnapshotStore) : Prop :=
  ∀ i id v, w.drafts i id = some v →
    v.isSome ∧ ∀ row, w.rows id = some row → row.pinned = true → v = some row

/-- What a statement may write. -/
def Writes (shown : PortfolioSnapshot → Prop) (s : Stmt SnapshotId PortfolioSnapshot)
    (w : SnapshotStore) : Prop :=
  match s with
  | .write id v => ∃ row', v = some row' ∧
      (∀ row, w.rows id = some row → row.pinned = true → row' = row) ∧
        (shown row' ∨ ∃ row, w.rows id = some row ∧ row' = pinned row)
  | .insert _ row => shown row
  | _ => True

theorem Writes.mono {shown shown' : PortfolioSnapshot → Prop} (h : ∀ row, shown row → shown' row)
    {s : Stmt SnapshotId PortfolioSnapshot} {w : SnapshotStore} (hw : Writes shown s w) :
    Writes shown' s w := by
  cases s with
  | write id v =>
    obtain ⟨row', hv, hsame, hor⟩ := hw
    exact ⟨row', hv, hsame, hor.imp_left (h row')⟩
  | insert id row => exact h row hw
  | _ => trivial

section Steps

variable {shown : PortfolioSnapshot → Prop} {i : Nat} {w w' : SnapshotStore}

theorem Protected.release (h : Protected w) (i : Nat) : Protected (w.release i) := by
  intro j id v hv
  simp only [Store.release] at hv
  split at hv
  · cases hv
  · exact h j id v hv

theorem Protected.draft (h : Protected w) {id : SnapshotId} {row' : PortfolioSnapshot}
    (hsame : ∀ row, w.rows id = some row → row.pinned = true → row' = row) :
    Protected (w.draft i id (some row')) := by
  intro j k v hv
  by_cases hjk : j = i ∧ k = id
  · obtain ⟨rfl, rfl⟩ := hjk
    simp only [Store.draft, Function.update_self, Option.some.injEq] at hv
    subst hv
    refine ⟨rfl, fun row hrow hpin => ?_⟩
    rw [hsame row hrow hpin]
  · apply h j k v
    by_cases hj : j = i
    · subst hj
      have hk : k ≠ id := fun hk => hjk ⟨rfl, hk⟩
      simpa [Store.draft, hk] using hv
    · simpa [Store.draft, hj] using hv

/-- A commit leaves the rows that others hold, and the pinned ones. -/
theorem Protected.commit (h : Protected w) (hsound : w.Sound) :
    Protected (w.commit i) ∧ Grows w.rows (w.commit i).rows := by
  constructor
  · intro j id v hv
    obtain ⟨hsome, hsame⟩ := h.release i j id v hv
    have hj : j ≠ i := by
      rintro rfl
      simp [Store.commit, Store.release] at hv
    refine ⟨hsome, fun row hrow hpin => hsame row ?_ hpin⟩
    have hheld : w.holder id = some j := by
      apply hsound.drafts j id
      rw [← (Store.commit_kept hsound hj).drafts, hv]
      simp
    rw [(Store.commit_kept hsound hj).rows id hheld] at hrow
    exact hrow
  · intro id row hrow
    change ∃ row', w.view i id = some row' ∧ _
    cases hd : w.drafts i id with
    | none => exact ⟨row, by simp [Store.view, hd, hrow], fun _ => rfl⟩
    | some v =>
      obtain ⟨hsome, hsame⟩ := h i id v hd
      obtain ⟨row', rfl⟩ := Option.isSome_iff_exists.mp hsome
      refine ⟨row', by simp [Store.view, hd], fun hpin => ?_⟩
      exact Option.some.inj (hsame row hrow hpin)

/-- What a statement leaves of the pinned rows. -/
theorem answered_protected {s : Stmt SnapshotId PortfolioSnapshot} {b : Reply s} (hsound : w.Sound)
    (h : Protected w) (hw : Writes shown s w) (hs : answered i s w b w') :
    Protected w' ∧ Grows w.rows w'.rows := by
  cases s with
  | snapshot =>
    obtain ⟨-, rfl⟩ := hs
    exact ⟨h, Grows.refl _⟩
  | scan =>
    obtain ⟨-, rfl⟩ := hs
    exact ⟨h, Grows.refl _⟩
  | lock id =>
    rcases hs with ⟨-, ⟨-, rfl⟩ | ⟨-, -, rfl⟩⟩
    · exact ⟨h, Grows.refl _⟩
    · exact ⟨h, Grows.refl _⟩
  | write id v =>
    obtain ⟨row', rfl, hsame, -⟩ := hw
    obtain ⟨-, rfl⟩ := hs
    exact ⟨h.draft hsame, Grows.refl _⟩
  | insert id row =>
    rcases hs with ⟨-, -, rfl⟩ | ⟨hnone, -, -, rfl⟩
    · exact ⟨h, Grows.refl _⟩
    · refine ⟨@Protected.draft _ _ h id row fun old hold _ => ?_, Grows.refl _⟩
      exfalso
      cases hd : w.drafts i id with
      | none =>
        rw [Store.view, hd, Option.getD_none, hold] at hnone
        cases hnone
      | some v =>
        have hsome := (h i id v hd).1
        rw [Store.view, hd, Option.getD_some] at hnone
        rw [hnone] at hsome
        cases hsome
  | commit =>
    cases hs
    exact h.commit hsound
  | rollback =>
    cases hs
    exact ⟨h.release i, Grows.refl _⟩

end Steps

/-- The rules of a transaction that writes what is `shown`, or pins. -/
def pinRules (C : Type) (shown : PortfolioSnapshot → Prop) :
    Contract (semantics SnapshotId PortfolioSnapshot C) where
  inv w := w.Sound ∧ Protected w
  rely i w w' := Kept i w w' ∧ Grows w.rows w'.rows
  guard _ _ s w := Writes shown s w
  rely_refl i w := ⟨Kept.refl i w, Grows.refl _⟩
  rely_trans h h' := ⟨h.1.trans h'.1, h.2.trans h'.2⟩
  env_ok := by
    rintro w w' hi rfl
    exact ⟨hi, fun i => ⟨Kept.refl i _, Grows.refl _⟩⟩
  died_ok := by
    rintro i w ⟨hs, hp⟩
    exact ⟨⟨Store.release_sound hs i, hp.release i⟩,
      fun j hj => ⟨Store.release_kept w hj, Grows.refl _⟩⟩
  step_ok := by
    rintro i c s w b w' ⟨hs, hp⟩ hg h
    obtain ⟨hs', hk⟩ := answered_kept hs h
    obtain ⟨hp', hgrows⟩ := answered_protected hs hp hg h
    exact ⟨⟨hs', hp'⟩, fun j hj => ⟨hk j hj, hgrows⟩⟩

/-! ## The two transactions -/

section Transactions

variable {C : Type} {shown : PortfolioSnapshot → Prop} {i : Nat} {c : C} {w : SnapshotStore}

theorem pinRules_keepsRows : KeepsRows (pinRules C shown) := ⟨fun h => h.1, fun h => h.1⟩

/-- A transaction that has ended holds nothing. -/
theorem locked_release (w : SnapshotStore) (i : Nat) : Locked i none (w.release i) := by
  refine ⟨fun k => by simp [Store.release], fun k => ?_, nofun⟩
  simp only [Store.release]
  split
  · simp
  · simpa using ‹_›

theorem locked_commit (w : SnapshotStore) (i : Nat) : Locked i none (w.commit i) :=
  ⟨(locked_release w i).clean, (locked_release w i).held, nofun⟩

/-- What a `keep_snapshot` leaves: a row under the id that it answers. -/
def Leaves (i : Nat) (r : Except Exn SnapshotId) (w : SnapshotStore) : Prop :=
  ∀ id, r = .ok id → ∃ row, w.drafts i id = some (some row)

theorem recordSnapshot_leaves {newId : SnapshotId} {p : Point}
    (hshown : ∀ row, p.row = .ok row → shown row) :
    (recordSnapshot newId p).Wp (pinRules C shown) i c (fun r _ w' => Leaves i r w') () w := by
  apply wp_bind
  apply wp_fromExcept
  cases hrow : p.row with
  | error e => rintro id ⟨⟩
  | ok row =>
    apply wp_bind
    apply wp_insertRow
    refine fun w₁ _ _ => ⟨hshown row hrow, fun _ _ => by rintro id ⟨⟩, fun _ _ _ => ?_⟩
    apply wp_pure
    rintro id ⟨⟩
    exact ⟨row, by simp [Store.create, Store.draft]⟩

theorem keepSnapshot_leaves {chosen : Chosen} {p : Point}
    (hshown : ∀ row, p.row = .ok row → shown row) (h : Locked i none w) :
    (keepSnapshot chosen p).Wp (pinRules C shown) i c (fun r _ w' => Leaves i r w') () w := by
  apply wp_bind
  refine Proc.wp_mono (latestSnapshot_wp pinRules_keepsRows (fun _ => trivial)
    (fun _ _ => trivial) chosen.newest h) ?_
  rintro (e | latest) ⟨⟩ w₁ hlocked
  · rintro id ⟨⟩
  have h₁ := hlocked latest rfl
  cases latest with
  | none => exact recordSnapshot_leaves hshown
  | some found =>
    obtain ⟨id, old⟩ := found
    dsimp only
    split
    · rename_i hover
      apply wp_bind
      apply wp_fromExcept
      cases hrow : p.row with
      | error e => rintro id ⟨⟩
      | ok row =>
        apply wp_bind
        apply wp_writeRow
        intro w₂ hr₂ _
        have h₂ := h₁.kept hr₂.1
        refine ⟨⟨row, rfl, fun row' hrow' hpin => ?_, .inl (hshown row hrow)⟩, fun _ => ?_⟩
        · rw [h₂.row id old rfl] at hrow'
          cases hrow'
          rw [hover.1] at hpin
          cases hpin
        · apply wp_pure
          rintro id ⟨⟩
          exact ⟨row, by simp [Store.draft]⟩
    · exact recordSnapshot_leaves hshown

/-- `keep_snapshot` and its commit: the row is there. -/
theorem keep_wp {chosen : Chosen} {p : Point} (hshown : ∀ row, p.row = .ok row → shown row)
    (h : Locked i none w) :
    (transaction (keepSnapshot chosen p)).Wp (pinRules C shown) i c
      (fun r _ w' => Locked i none w' ∧ ∀ id, r = .ok id → ∃ row, w'.rows id = some row) () w := by
  apply wp_transaction
  refine Proc.wp_mono (keepSnapshot_leaves hshown h) ?_
  rintro (e | id) ⟨⟩ w' hleaves
  · exact fun w₁ _ _ => ⟨trivial, fun _ => ⟨locked_release w₁ i, nofun⟩⟩
  · intro w₁ hr _
    refine ⟨trivial, fun _ => ⟨locked_commit w₁ i, ?_⟩⟩
    rintro _ ⟨⟩
    obtain ⟨row, hrow⟩ := hleaves id rfl
    refine ⟨row, ?_⟩
    change w₁.view i id = some row
    rw [Store.view, hr.1.drafts, hrow]
    rfl

/-- A row that is there is pinned by the time a pin has committed. -/
theorem pin_wp {id : SnapshotId} (h : Locked i none w) :
    (transaction (pinSnapshot id)).Wp (pinRules C shown) i c
      (fun r _ w' => Locked i none w' ∧ (r = .ok () → (∃ row, w.rows id = some row) →
        ∃ row, w'.rows id = some row ∧ row.pinned = true)) () w := by
  have hbody : (pinSnapshot id).Wp (pinRules C shown) i c (fun r _ w' => r = .ok () →
      (∃ row, w.rows id = some row) → ∀ w₁, Kept i w' w₁ → Grows w'.rows w₁.rows →
        ∃ row, w₁.view i id = some row ∧ row.pinned = true) () w := by
    apply wp_bind
    apply wp_select
    intro w₁ hr₁ _
    have h₁ := h.kept hr₁.1
    refine ⟨trivial, ?_⟩
    rw [h₁.clean.view]
    dsimp only
    split
    · rename_i hnone
      rintro - ⟨row, hrow⟩
      obtain ⟨row', hrow', -⟩ := hr₁.2 id row hrow
      rw [hnone] at hrow'
      cases hrow'
    · rename_i row hrow
      split
      · rename_i hpin
        rintro - - w₂ hk hgrows
        exact ⟨row, by rw [(hk.clean h₁.clean).view]; exact hgrows.pinned hrow hpin, hpin⟩
      · apply wp_bind
        apply wp_bind
        apply wp_lockRow
        intro w₂ hr₂ _
        have h₂ := h₁.kept hr₂.1
        refine ⟨trivial, fun _ => nofun, fun locked hlocked _ _ => ?_⟩
        rw [h₂.clean.view] at hlocked
        apply wp_bind
        apply wp_writeRow
        intro w₃ hr₃ _
        have hheld : w₃.rows id = some locked := by
          rw [hr₃.1.rows id (Function.update_self _ _ _)]
          exact hlocked
        refine ⟨⟨pinned locked, rfl, fun row' hrow' hpin => ?_, .inr ⟨locked, hheld, rfl⟩⟩, fun _ => ?_⟩
        · rw [hheld] at hrow'
          cases hrow'
          simp [Snapshots.pinned, ← hpin]
        · rintro - - w₄ hk _
          refine ⟨pinned locked, ?_, rfl⟩
          exact (hk.holds (w₃.draft_holds i id _)).view
  apply wp_transaction
  refine Proc.wp_mono hbody ?_
  rintro (e | a) ⟨⟩ w' hpinned w₁ hr _
  · exact ⟨trivial, fun _ => ⟨locked_release w₁ i, nofun⟩⟩
  · exact ⟨trivial, fun _ => ⟨locked_commit w₁ i, fun _ hrow => hpinned rfl hrow w₁ hr.1 hr.2⟩⟩

end Transactions

end Coinpilot.Records
