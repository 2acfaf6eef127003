import Coinpilot.Api.Portfolio
import Coinpilot.Core.Footprint
import Coinpilot.Lib.Handler
import Coinpilot.Records.Pins

/-!
# The account before the orders

A refresh and an evaluation both read the account and keep what they read as the day's point, over the
point of another one where the day has one. The two run side by side: an evaluation holds the user's lock
and a refresh does not, and the snapshots change statement by statement (`byStatements`).

An order is on record where its thread has pinned the snapshot that it kept, and the row is of a reading
that was over (`OnRecord`). `recordRules` says which statements and orders keep every order on record.
-/

set_option autoImplicit false

namespace Coinpilot.Records

open Coinpilot.Lib Coinpilot.Lib.Program Coinpilot.Lib.ReadCommitted Coinpilot.Core
  Coinpilot.Core.Snapshots

/-! ## The two worlds -/

/-- A call of the user, or a refresh of the portfolio. `chosen` is what the code does not choose about the
snapshot that it keeps. -/
inductive AccountCall where
  | request (r : Request) (chosen : Chosen)
  | refresh (chosen : Chosen)

abbrev AccountOp : Type := Op ⊕ Stmt SnapshotId PortfolioSnapshot

abbrev AccountAns : AccountOp → Type := Sum.elim Ans Reply

abbrev AccountWorld : Type := World × SnapshotStore

abbrev AccountHistory : Type := Recorded AccountOp AccountAns AccountCall AccountWorld

abbrev AccountEvent : Type := Event AccountOp AccountAns AccountCall AccountWorld

/-- Everything but the snapshots. -/
def besidesSnapshots (honest : Prop) : Semantics Op Ans AccountCall World where
  step i _ o := Core.answered honest i o
  env := Between honest
  died i w := { w with lock := if w.lock = some i then none else w.lock }

/-- The account, and the rows of its snapshots. -/
abbrev accounts (honest : Prop) : Semantics AccountOp AccountAns AccountCall AccountWorld :=
  (besidesSnapshots honest).beside (semantics SnapshotId PortfolioSnapshot AccountCall)

/-- A `with sessions()` block on the snapshots. -/
def snapshotUnit {α : Type} (m : SnapshotWork α) : Prog AccountOp AccountAns (Except Exn α) :=
  (((transaction m).exec ()).through (rightward Ans)).bind fun r => .ret r.1

/-- The two transactions on the snapshots statement by statement, and every other operation as it is. -/
def byStatements (chosen : Chosen) : Handler Ans AccountAns
  | .tx (.keepSnapshot asOf fiat totalValue cash holdings) =>
      snapshotUnit (keepSnapshot chosen ⟨asOf, fiat, totalValue, cash, holdings⟩)
  | .tx (.pinSnapshot id) => snapshotUnit (pinSnapshot id)
  | o => leftward Reply o

def accountWork : AccountCall → Proc AccountOp AccountAns Locals Exn Unit
  | .request r chosen => (do let _ ← handle r; pure ()).through (byStatements chosen)
  | .refresh chosen => (do let _ ← Api.refresh; pure ()).through (byStatements chosen)

def accountCode (c : AccountCall) : Prog AccountOp AccountAns (Except Exn Unit × Locals) :=
  (accountWork c).exec {}

/-! ## What is on record -/

/-- An order that may be traded. -/
def Orders (e : AccountEvent) : Prop := ∃ o, e.op = .inl o ∧ o.creates.isSome = true

/-- The row is the point of a reading of the account that is over. -/
def ReadIn (past : List AccountEvent) (row : PortfolioSnapshot) : Prop :=
  ∃ (j : Nat) (fiat : String) (targets : List Target) (view : PortfolioView) (l l' : Locals)
    (t : List (Answer Op Ans)) (asOf : Int) (point : PortfolioSnapshot),
    (readPortfolio fiat targets).Path l t (.ok view) l' ∧ t.map leftAnswer <:+: traceOf j past ∧
      Point.row ⟨asOf, fiat, view.managedValue, view.cash.value, view.snapshotJson⟩ = .ok point ∧
        (row = point ∨ row = pinned point)

/-- Thread `i` has kept its snapshot under this id. -/
def KeptBy (i : Nat) (past : List AccountEvent) (id : SnapshotId) : Prop :=
  ∃ x ∈ traceOf i past, ∃ row : PortfolioSnapshot, row.pinned = false ∧
    (x.1 = .inr (.insert id row) ∨ x.1 = .inr (.write id (some row)))

/-- The snapshot that thread `i` has kept is pinned, and is of a reading that is over. -/
structure OnRecord (i : Nat) (past : List AccountEvent) (rows : SnapshotRows) (id : SnapshotId)
    (row : PortfolioSnapshot) : Prop where
  there : rows id = some row
  pinned : row.pinned = true
  kept : KeptBy i past id
  read : ReadIn past row

section Histories

variable {past past' : List AccountEvent}

theorem traceOf_append {Op : Type} {Ans : Op → Type} {C W : Type} (i : Nat)
    (es past : List (Event Op Ans C W)) : traceOf i (es ++ past) = traceOf i past ++ traceOf i es := by
  simp [traceOf]

theorem ReadIn.mono {row : PortfolioSnapshot} (h : ReadIn past row) (hpast : past <:+ past') :
    ReadIn past' row := by
  obtain ⟨j, fiat, targets, view, l, l', t, asOf, point, hpath, htrace, hpoint, hrow⟩ := h
  obtain ⟨es, rfl⟩ := hpast
  refine ⟨j, fiat, targets, view, l, l', t, asOf, point, hpath, ?_, hpoint, hrow⟩
  rw [traceOf_append]
  exact htrace.trans (List.prefix_append _ _).isInfix

theorem ReadIn.pinned {row : PortfolioSnapshot} (h : ReadIn past row) :
    ReadIn past (Snapshots.pinned row) := by
  obtain ⟨j, fiat, targets, view, l, l', t, asOf, point, hpath, htrace, hpoint, hrow⟩ := h
  refine ⟨j, fiat, targets, view, l, l', t, asOf, point, hpath, htrace, hpoint, .inr ?_⟩
  rcases hrow with rfl | rfl
  · rfl
  · rfl

theorem KeptBy.mono {i : Nat} {id : SnapshotId} (h : KeptBy i past id) (hpast : past <:+ past') :
    KeptBy i past' id := by
  obtain ⟨x, hx, hrest⟩ := h
  obtain ⟨es, rfl⟩ := hpast
  refine ⟨x, ?_, hrest⟩
  rw [traceOf_append]
  exact List.mem_append_left _ hx

end Histories

/-- Every row and every draft is so. -/
structure Each (P : PortfolioSnapshot → Prop) (w : SnapshotStore) : Prop where
  rows : ∀ id row, w.rows id = some row → P row
  drafts : ∀ i id row, w.drafts i id = some (some row) → P row

section Each

variable {P : PortfolioSnapshot → Prop} {w : SnapshotStore} {i : Nat}

theorem Each.release (h : Each P w) (i : Nat) : Each P (w.release i) := by
  refine ⟨h.rows, fun j id row hrow => ?_⟩
  simp only [Store.release] at hrow
  split at hrow
  · cases hrow
  · exact h.drafts j id row hrow

theorem Each.view (h : Each P w) {id : SnapshotId} {row : PortfolioSnapshot}
    (hrow : w.view i id = some row) : P row := by
  cases hdraft : w.drafts i id with
  | none => exact h.rows id row (by simpa [Store.view, hdraft] using hrow)
  | some v =>
    have hv : v = some row := by simpa [Store.view, hdraft] using hrow
    rw [hv] at hdraft
    exact h.drafts i id row hdraft

theorem Each.draft (h : Each P w) {id : SnapshotId} {row : PortfolioSnapshot} (hrow : P row) :
    Each P (w.draft i id (some row)) := by
  refine ⟨h.rows, fun j k row' hdraft => ?_⟩
  by_cases hjk : j = i ∧ k = id
  · obtain ⟨rfl, rfl⟩ := hjk
    simp only [Store.draft, Function.update_self, Option.some.injEq] at hdraft
    exact hdraft ▸ hrow
  · apply h.drafts j k row'
    rw [← hdraft]
    by_cases hj : j = i
    · subst hj
      have hk : k ≠ id := fun hk => hjk ⟨rfl, hk⟩
      simp [Store.draft, hk]
    · simp [Store.draft, hj]

/-- What is written so leaves every row so, where pinning does. -/
theorem answered_each (hpin : ∀ row, P row → P (pinned row)) {w' : SnapshotStore}
    {s : Stmt SnapshotId PortfolioSnapshot} {b : Reply s} (h : Each P w) (hw : Writes P s w)
    (hs : ReadCommitted.answered i s w b w') : Each P w' := by
  cases s with
  | snapshot =>
    obtain ⟨-, rfl⟩ := hs
    exact h
  | scan =>
    obtain ⟨-, rfl⟩ := hs
    exact h
  | lock id =>
    rcases hs with ⟨-, ⟨-, rfl⟩ | ⟨-, -, rfl⟩⟩
    · exact h
    · exact ⟨h.rows, h.drafts⟩
  | write id v =>
    obtain ⟨row', rfl, -, hrow'⟩ := hw
    obtain ⟨-, rfl⟩ := hs
    rcases hrow' with hrow' | ⟨row, hrow, rfl⟩
    · exact h.draft hrow'
    · exact h.draft (hpin row (h.rows id row hrow))
  | insert id row =>
    rcases hs with ⟨-, -, rfl⟩ | ⟨-, -, -, rfl⟩
    · exact h
    · have hdraft : Each P (w.draft i id (some row)) := h.draft hw
      exact ⟨hdraft.rows, hdraft.drafts⟩
  | commit =>
    cases hs
    exact ⟨fun id row hrow => h.view hrow, (h.release i).drafts⟩
  | rollback =>
    cases hs
    exact h.release i

end Each

/-! ## The rules -/

/-- Rows that were read, and orders that are on record. -/
structure Filed (r : AccountHistory) : Prop where
  sound : r.now.2.Sound
  guarded : Protected r.now.2
  read : Each (ReadIn r.past) r.now.2
  orders : ∀ e older, e :: older <:+ r.past → Orders e →
    ∃ id row, OnRecord e.who older e.before.2.rows id row ∧ r.now.2.rows id = some row

/-- What the others leave a thread: its transaction, the pinned rows, and what was done. -/
structure Undisturbed (i : Nat) (r r' : AccountHistory) : Prop where
  kept : Kept i r.now.2 r'.now.2
  grows : Grows r.now.2.rows r'.now.2.rows
  trace : traceOf i r'.past = traceOf i r.past
  past : r.past <:+ r'.past

theorem Undisturbed.trans {i : Nat} {r₁ r₂ r₃ : AccountHistory} (h : Undisturbed i r₁ r₂)
    (h' : Undisturbed i r₂ r₃) : Undisturbed i r₁ r₃ :=
  ⟨h.kept.trans h'.kept, h.grows.trans h'.grows, h'.trace.trans h.trace, h.past.trans h'.past⟩

/-- What may be called: a change of the snapshots that was read, and an order that is on record. -/
def Files (i : Nat) (o : AccountOp) (r : AccountHistory) : Prop :=
  match o with
  | .inl o => o.creates.isSome = true → ∃ id row, OnRecord i r.past r.now.2.rows id row
  | .inr s => Writes (ReadIn r.past) s r.now.2

/-- One more event leaves what is filed, where the pinned rows stay. -/
theorem Filed.cons {r : AccountHistory} (h : Filed r) {e : AccountEvent} {now : AccountWorld}
    (hbefore : e.before = r.now) (hsound : now.2.Sound) (hguarded : Protected now.2)
    (hread : Each (ReadIn (e :: r.past)) now.2) (hgrows : Grows r.now.2.rows now.2.rows)
    (horder : Orders e → ∃ id row, OnRecord e.who r.past r.now.2.rows id row) :
    Filed ⟨now, e :: r.past⟩ := by
  refine ⟨hsound, hguarded, hread, fun e' older hsuffix ho => ?_⟩
  rcases List.suffix_cons_iff.mp hsuffix with heq | hsuffix
  · obtain ⟨rfl, rfl⟩ := List.cons.inj heq
    obtain ⟨id, row, hrecord⟩ := horder ho
    refine ⟨id, row, ?_, hgrows.pinned hrecord.there hrecord.pinned⟩
    rw [hbefore]
    exact hrecord
  · obtain ⟨id, row, hrecord, hrow⟩ := h.orders e' older hsuffix ho
    exact ⟨id, row, hrecord, hgrows.pinned hrow hrecord.pinned⟩

def recordRules (honest : Prop) : Contract (accounts honest).recorded where
  inv := Filed
  rely := Undisturbed
  guard i _ o r := Files i o r
  rely_refl i r := ⟨Kept.refl i _, Grows.refl _, rfl, List.suffix_rfl⟩
  rely_trans := Undisturbed.trans
  env_ok := by
    rintro r ⟨now, past⟩ hr ⟨he, rfl⟩
    have hstore : now.2 = r.now.2 := by
      rcases he with ⟨-, h⟩ | ⟨h, -⟩
      · exact h
      · exact h
    obtain ⟨w, store⟩ := now
    obtain rfl : store = r.now.2 := hstore
    exact ⟨⟨hr.sound, hr.guarded, hr.read, hr.orders⟩,
      fun i => ⟨Kept.refl i _, Grows.refl _, rfl, List.suffix_rfl⟩⟩
  died_ok := by
    rintro i r hr
    refine ⟨⟨Store.release_sound hr.sound i, hr.guarded.release i, hr.read.release i, hr.orders⟩,
      fun j hj => ⟨Store.release_kept _ hj, Grows.refl _, rfl, List.suffix_rfl⟩⟩
  step_ok := by
    rintro i c o r b ⟨now, past⟩ hr hg ⟨hs, hpast⟩
    dsimp only at hs hpast
    subst hpast
    have htrace : ∀ j, j ≠ i → traceOf j (⟨i, c, o, b, r.now, now⟩ :: r.past) = traceOf j r.past :=
      fun j hj => traceOf_cons_other (Ne.symm hj) r.past
    have hmono : ∀ row, ReadIn r.past row → ReadIn (⟨i, c, o, b, r.now, now⟩ :: r.past) row :=
      fun row hrow => hrow.mono (List.suffix_cons _ _)
    cases o with
    | inl o =>
      obtain ⟨-, hstore⟩ := hs
      obtain ⟨w, store⟩ := now
      obtain rfl : store = r.now.2 := hstore
      refine ⟨hr.cons rfl hr.sound hr.guarded ?_ (Grows.refl _) ?_,
        fun j hj => ⟨Kept.refl j _, Grows.refl _, htrace j hj, List.suffix_cons _ _⟩⟩
      · exact ⟨fun id row hrow => hmono row (hr.read.rows id row hrow),
          fun j id row hrow => hmono row (hr.read.drafts j id row hrow)⟩
      · rintro ⟨o', ho', hcreates⟩
        obtain rfl := Sum.inl.inj ho'
        exact hg hcreates
    | inr s =>
      obtain ⟨hs, -⟩ := hs
      obtain ⟨hsound, hkept⟩ := answered_kept hr.sound hs
      obtain ⟨hguarded, hgrows⟩ := answered_protected hr.sound hr.guarded hg hs
      have hread := answered_each (fun _ hrow => ReadIn.pinned hrow) hr.read hg hs
      refine ⟨hr.cons rfl hsound hguarded ?_ hgrows ?_,
        fun j hj => ⟨hkept j hj, hgrows, htrace j hj, List.suffix_cons _ _⟩⟩
      · exact ⟨fun id row hrow => hmono row (hread.rows id row hrow),
          fun j id row hrow => hmono row (hread.drafts j id row hrow)⟩
      · rintro ⟨o', ho', -⟩
        cases ho'

/-! ## What a thread knows -/

/-- The thread has no transaction under way on the snapshots. -/
def Quiet (i : Nat) (r : AccountHistory) : Prop := Locked i none r.now.2

/-- What was done stays done, and the pinned rows stay. -/
structure Onward (r r' : AccountHistory) : Prop where
  past : r.past <:+ r'.past
  grows : Grows r.now.2.rows r'.now.2.rows

/-- The thread has kept a snapshot, and its row is there. -/
structure HasKept (i : Nat) (id : SnapshotId) (r : AccountHistory) : Prop where
  kept : KeptBy i r.past id
  there : ∃ row, r.now.2.rows id = some row

/-- The thread has pinned the snapshot that it kept. -/
structure HasPinned (i : Nat) (id : SnapshotId) (r : AccountHistory) : Prop where
  kept : KeptBy i r.past id
  pinned : ∃ row, r.now.2.rows id = some row ∧ row.pinned = true

section Knowing

variable {i : Nat} {id : SnapshotId} {r r' r'' : AccountHistory}

theorem Onward.refl (r : AccountHistory) : Onward r r := ⟨List.suffix_rfl, Grows.refl _⟩

theorem Onward.trans (h : Onward r r') (h' : Onward r' r'') : Onward r r'' :=
  ⟨h.past.trans h'.past, h.grows.trans h'.grows⟩

theorem Undisturbed.onward (h : Undisturbed i r r') : Onward r r' := ⟨h.past, h.grows⟩

theorem Quiet.undisturbed (h : Quiet i r) (hr : Undisturbed i r r') : Quiet i r' := h.kept hr.kept

theorem HasKept.onward (h : HasKept i id r) (hr : Onward r r') : HasKept i id r' := by
  obtain ⟨hkept, row, hrow⟩ := h
  obtain ⟨row', hrow', -⟩ := hr.grows id row hrow
  exact ⟨hkept.mono hr.past, row', hrow'⟩

theorem HasPinned.onward (h : HasPinned i id r) (hr : Onward r r') : HasPinned i id r' := by
  obtain ⟨hkept, row, hrow, hpinned⟩ := h
  exact ⟨hkept.mono hr.past, row, hr.grows.pinned hrow hpinned, hpinned⟩

theorem HasPinned.keeps (h : HasPinned i id r) : HasKept i id r := by
  obtain ⟨hkept, row, hrow, -⟩ := h
  exact ⟨hkept, row, hrow⟩

/-- A pinned snapshot of an evaluation is on record. -/
theorem HasPinned.onRecord (h : HasPinned i id r) (hfiled : Filed r) :
    ∃ id row, OnRecord i r.past r.now.2.rows id row := by
  obtain ⟨hkept, row, hrow, hpinned⟩ := h
  exact ⟨id, row, hrow, hpinned, hkept, hfiled.read.rows id row hrow⟩

end Knowing

/-! ## The two transactions -/

section Units

variable {honest : Prop} {i : Nat} {c : AccountCall} {r : AccountHistory}

/-- A new row is not pinned. -/
theorem recordSnapshot_path {newId id : SnapshotId} {p : Point} {l l' : Unit}
    {t : List (Answer (Stmt SnapshotId PortfolioSnapshot) Reply)}
    (h : (recordSnapshot newId p).Path l t (.ok id) l') :
    ∃ x ∈ t, ∃ row : PortfolioSnapshot, row.pinned = false ∧ x.1 = .insert id row := by
  obtain ⟨row, l₁, t₁, t₂, hrow, h₂, rfl⟩ := path_bind_ok h
  obtain ⟨rfl, hpoint, rfl⟩ := path_fromExcept hrow
  obtain ⟨free, l₂, t₃, t₄, hinsert, h₄, rfl⟩ := path_bind_ok h₂
  obtain ⟨b, rfl, hb, rfl⟩ := path_perform hinsert
  cases free with
  | false =>
    obtain ⟨-, hid, -⟩ := path_throw h₄
    cases hid
  | true =>
    obtain ⟨-, hid, -⟩ := path_pure h₄
    obtain rfl := Except.ok.inj hid
    exact ⟨⟨.insert id row, b⟩, by simp, row, (Point.row_ok hpoint.symm).2, rfl⟩

/-- A snapshot that is kept is a row that was written under its id, unpinned. -/
theorem keepSnapshot_path {chosen : Chosen} {id : SnapshotId} {p : Point} {l l' : Unit}
    {t : List (Answer (Stmt SnapshotId PortfolioSnapshot) Reply)}
    (h : (keepSnapshot chosen p).Path l t (.ok id) l') :
    ∃ x ∈ t, ∃ row : PortfolioSnapshot, row.pinned = false ∧
      (x.1 = .insert id row ∨ x.1 = .write id (some row)) := by
  have hnew : ∀ {l₁ t₁}, (recordSnapshot chosen.newId p).Path l₁ t₁ (.ok id) l' → ∃ x ∈ t₁,
      ∃ row : PortfolioSnapshot, row.pinned = false ∧
        (x.1 = .insert id row ∨ x.1 = .write id (some row)) := by
    intro l₁ t₁ hrecord
    obtain ⟨x, hx, row, hpinned, hinsert⟩ := recordSnapshot_path hrecord
    exact ⟨x, hx, row, hpinned, .inl hinsert⟩
  have hafter : ∀ {t₁ t₂ : List (Answer (Stmt SnapshotId PortfolioSnapshot) Reply)}
      {Q : Answer (Stmt SnapshotId PortfolioSnapshot) Reply → Prop},
      (∃ x ∈ t₂, Q x) → ∃ x ∈ t₁ ++ t₂, Q x := by
    rintro t₁ t₂ Q ⟨x, hx, hq⟩
    exact ⟨x, List.mem_append_right _ hx, hq⟩
  obtain ⟨latest, l₁, t₁, t₂, -, h₂, rfl⟩ := path_bind_ok h
  apply hafter
  cases latest with
  | none => exact hnew h₂
  | some found =>
    obtain ⟨old, row⟩ := found
    dsimp only at h₂
    split at h₂
    · obtain ⟨row, l₂, t₃, t₄, hrow, h₄, rfl⟩ := path_bind_ok h₂
      obtain ⟨rfl, hpoint, rfl⟩ := path_fromExcept hrow
      obtain ⟨u, l₃, t₅, t₆, hwrite, h₆, rfl⟩ := path_bind_ok h₄
      obtain ⟨b, rfl, -, rfl⟩ := path_perform hwrite
      obtain ⟨-, hid, -⟩ := path_pure h₆
      obtain rfl := Except.ok.inj hid
      exact ⟨⟨.write id (some row), b⟩, by simp, row, (Point.row_ok hpoint.symm).2, .inr rfl⟩
    · exact hnew h₂

/-- A transaction on the snapshots, by its own rules. -/
theorem snapshotUnit_wp {α : Type} {m : SnapshotWork α} (shown : PortfolioSnapshot → Prop)
    (hshown : ∀ row, shown row → ReadIn r.past row) {Q : Except Exn α → SnapshotStore → Prop}
    (h : (transaction m).Wp (pinRules AccountCall shown) i c (fun res _ w => Q res w) () r.now.2) :
    (snapshotUnit m).Wp (recordRules honest) i c (fun res r' => Q res r'.now.2 ∧ Onward r r' ∧
      ∃ t l', (transaction m).Path () t res l' ∧
        traceOf i r'.past = traceOf i r.past ++ t.map rightAnswer) r := by
  refine prog_wp_bind ?_
  have hwp := @wp_right _ _ _ _ _ _ _ _ _ _ (recordRules honest) (pinRules AccountCall shown) i c
    (Onward r) (fun r' hr' => ⟨hr'.sound, hr'.guarded⟩) (fun r₁ r₂ hr => ⟨hr.kept, hr.grows⟩)
    (fun hr hr' _ => hr.trans hr'.onward) ?_ ?_ _ _ _ h (Onward.refl r)
  · refine Program.wp_mono (wp_traced (fun {r₁ r₂} (hr : Undisturbed i r₁ r₂) => hr.trace) hwp) ?_
    rintro ⟨res, l'⟩ r' ⟨⟨hq, honward⟩, t, hpath, htrace⟩
    obtain ⟨t₀, rfl, hpath₀⟩ := path_through_right hpath
    exact ⟨hq, honward, t₀, l', hpath₀, htrace⟩
  · exact fun s r' hr' _ hg => hg.mono fun row hrow => (hshown row hrow).mono hr'.past
  · rintro s r₁ b r₂ hr₁ hi hg ⟨⟨hs, -⟩, hpast⟩
    refine hr₁.trans ⟨?_, (answered_protected hi.sound hi.guarded hg hs).2⟩
    rw [hpast]
    exact List.suffix_cons _ _

theorem keepSnapshot_unit {chosen : Chosen} {p : Point} (hquiet : Quiet i r)
    (hread : ∀ row, p.row = .ok row → ReadIn r.past row) :
    (snapshotUnit (keepSnapshot chosen p)).Wp (recordRules honest) i c
      (fun res r' => Quiet i r' ∧ ∀ id, res = .ok id → HasKept i id r') r := by
  refine Program.wp_mono (snapshotUnit_wp _ (fun _ h => h) (Proc.wp_mono (keep_wp hread hquiet)
    fun res _ w h => h)) ?_
  rintro res r' ⟨⟨hquiet', hrow⟩, -, t, l', hpath, htrace⟩
  refine ⟨hquiet', fun id hid => ⟨?_, hrow id hid⟩⟩
  subst hid
  obtain ⟨t₁, last, hbody, rfl, -⟩ := path_transaction hpath
  obtain ⟨x, hx, row, hpinned, hop⟩ := keepSnapshot_path hbody
  refine ⟨rightAnswer x, ?_, row, hpinned, ?_⟩
  · rw [htrace]
    exact List.mem_append_right _ (List.mem_map_of_mem (List.mem_append_left _ hx))
  · exact hop.imp (congrArg Sum.inr) (congrArg Sum.inr)

theorem pinSnapshot_unit {id : SnapshotId} (hquiet : Quiet i r) :
    (snapshotUnit (pinSnapshot id)).Wp (recordRules honest) i c
      (fun res r' => Quiet i r' ∧ Onward r r' ∧ (res = .ok () → HasKept i id r → HasPinned i id r')) r := by
  refine Program.wp_mono (snapshotUnit_wp (fun _ => False) (fun _ h => h.elim)
    (Proc.wp_mono (pin_wp hquiet) fun res _ w h => h)) ?_
  rintro res r' ⟨⟨hquiet', hrow⟩, honward, -⟩
  exact ⟨hquiet', honward, fun hres hkeeps => ⟨hkeeps.kept.mono honward.past, hrow hres hkeeps.there⟩⟩

end Units

end Coinpilot.Records
