import Coinpilot.Core.Db.Snapshots
import Coinpilot.Lib.RowLocks

/-!
# One unpinned point a day

A `keep_snapshot` locks the latest row that it was answered, and that lock is all that holds another
one back: two that were answered the same latest row, or none, may both add a point. Where the row
that a transaction holds is later than every other unpinned point of its day (`LatestHeld`), each
UTC day has one unpinned point at most, and it is the latest of that day (`one_point_a_day`).
-/

set_option autoImplicit false

namespace Coinpilot.Records

open Coinpilot.Lib Coinpilot.Lib.Program Coinpilot.Lib.ReadCommitted Coinpilot.Core
  Coinpilot.Core.Snapshots

abbrev SnapshotRows : Type := Rows SnapshotId PortfolioSnapshot

abbrev SnapshotStore : Type := Store SnapshotId PortfolioSnapshot

/-- A transaction on the user's snapshots. -/
inductive SnapshotCall where
  | keep (chosen : Chosen) (p : Point)
  | pin (id : SnapshotId)

def snapshotWork : SnapshotCall → SnapshotWork Unit
  | .keep chosen p => do
      let _ ← keepSnapshot chosen p
      return ()
  | .pin id => pinSnapshot id

def snapshotCode (call : SnapshotCall) :
    Prog (Stmt SnapshotId PortfolioSnapshot) Reply (Except Exn Unit × Unit) :=
  (transaction (snapshotWork call)).exec ()

/-- At most one unpinned snapshot of each UTC day. -/
def OnePointADay (rows : SnapshotRows) : Prop :=
  ∀ id row id' row', rows id = some row → rows id' = some row' → row.pinned = false →
    row'.pinned = false → dayOf row.asOf = dayOf row'.asOf → id = id'

/-! ## The conditions on a commit -/

/-- The time of a point is not before that of any committed point. -/
def NotBack (p : Point) (w : SnapshotStore) : Prop :=
  ∀ id ∈ w.keys, ∀ row ∈ w.rows id, row.asOf ≤ p.asOf

/-- Every unpinned point of the day that transaction `i` does not hold is before a point that it
holds. -/
def LatestHeld (i : Nat) (p : Point) (w : SnapshotStore) : Prop :=
  ∀ id ∈ w.keys, ∀ row ∈ w.rows id, row.pinned = false → dayOf row.asOf = dayOf p.asOf →
    w.holder id ≠ some i →
      ∃ id' ∈ w.keys, w.holder id' = some i ∧ ∃ latest ∈ w.rows id', row.asOf < latest.asOf

instance (p : Point) (w : SnapshotStore) : Decidable (NotBack p w) :=
  inferInstanceAs (Decidable (∀ id ∈ w.keys, ∀ row ∈ w.rows id, row.asOf ≤ p.asOf))

instance (i : Nat) (p : Point) (w : SnapshotStore) : Decidable (LatestHeld i p w) := by
  unfold LatestHeld
  infer_instance

abbrev SnapshotHistory : Type :=
  Recorded (Stmt SnapshotId PortfolioSnapshot) Reply SnapshotCall SnapshotStore

/-- What is asked of the commit of a `keep_snapshot`. -/
def AtCommit (ok : Nat → Point → SnapshotStore → Prop) (i : Nat) (c : SnapshotCall)
    (s : Stmt SnapshotId PortfolioSnapshot) (r : SnapshotHistory) : Prop :=
  match c, s with
  | .keep _ p, .commit => ok i p r.now
  | _, _ => True

instance (ok : Nat → Point → SnapshotStore → Prop) [∀ i p w, Decidable (ok i p w)] (i : Nat)
    (c : SnapshotCall) (s : Stmt SnapshotId PortfolioSnapshot) (r : SnapshotHistory) :
    Decidable (AtCommit ok i c s r) := by
  unfold AtCommit
  split
  · infer_instance
  · infer_instance

/-- The runs in which `as_of` does not go back. -/
abbrev forward : Semantics (Stmt SnapshotId PortfolioSnapshot) Reply SnapshotCall SnapshotHistory :=
  (semantics SnapshotId PortfolioSnapshot SnapshotCall).recorded.given
    (AtCommit fun _ p w => NotBack p w)

/-- Those in which, besides, a `keep_snapshot` that commits holds the latest point of the day. -/
abbrev latestHeld : Semantics (Stmt SnapshotId PortfolioSnapshot) Reply SnapshotCall SnapshotHistory :=
  (semantics SnapshotId PortfolioSnapshot SnapshotCall).recorded.given
    (AtCommit fun i p w => NotBack p w ∧ LatestHeld i p w)

/-! ## The invariant -/

/-- Beside an unpinned point, the day has only pinned ones, and none is later. -/
def Points (rows : SnapshotRows) : Prop :=
  ∀ id row id' row', rows id = some row → rows id' = some row' → id' ≠ id → row.pinned = false →
    dayOf row'.asOf = dayOf row.asOf → row'.pinned = true ∧ row'.asOf ≤ row.asOf

theorem Points.onePointADay {rows : SnapshotRows} (h : Points rows) : OnePointADay rows := by
  intro id row id' row' hrow hrow' hfree hfree' hday
  by_contra hne
  obtain ⟨hpinned, -⟩ := h id row id' row' hrow hrow' (Ne.symm hne) hfree hday.symm
  rw [hfree'] at hpinned
  cases hpinned

theorem dayOf_mono {a b : Int} (h : a ≤ b) : dayOf a ≤ dayOf b := by
  unfold dayOf
  omega

/-- Pinning a point. -/
theorem Points.pin {rows : SnapshotRows} (h : Points rows) {id : SnapshotId} {row : PortfolioSnapshot}
    (hrow : rows id = some row) : Points (Function.update rows id (some (pinned row))) := by
  intro a ra b rb ha hb hne hfree hday
  have hane : a ≠ id := by
    rintro rfl
    rw [Function.update_self] at ha
    cases ha
    cases hfree
  rw [Function.update_of_ne hane] at ha
  by_cases hb' : b = id
  · subst hb'
    rw [Function.update_self] at hb
    cases hb
    exact ⟨rfl, (h a ra b row ha hrow hne hfree hday).2⟩
  · rw [Function.update_of_ne hb'] at hb
    exact h a ra b rb ha hb hne hfree hday

/-- A point that is the latest, on a day whose other points are pinned. -/
theorem Points.put {rows : SnapshotRows} (h : Points rows) {id : SnapshotId} {row : PortfolioSnapshot}
    (hlatest : ∀ id' row', rows id' = some row' → row'.asOf ≤ row.asOf)
    (hpinned : ∀ id' row', rows id' = some row' → id' ≠ id → dayOf row'.asOf = dayOf row.asOf →
      row'.pinned = true) : Points (Function.update rows id (some row)) := by
  intro a ra b rb ha hb hne hfree hday
  by_cases ha' : a = id
  · subst ha'
    rw [Function.update_self] at ha
    cases ha
    rw [Function.update_of_ne hne] at hb
    exact ⟨hpinned b rb hb hne hday, hlatest b rb hb⟩
  · rw [Function.update_of_ne ha'] at ha
    by_cases hb' : b = id
    · subst hb'
      rw [Function.update_self] at hb
      cases hb
      have hra := hpinned a ra ha ha' hday.symm
      rw [hfree] at hra
      cases hra
    · rw [Function.update_of_ne hb'] at hb
      exact h a ra b rb ha hb hne hfree hday

/-! ## The row that is locked -/

section Locks

variable {C : Type} {P : Contract (semantics SnapshotId PortfolioSnapshot C)} {i : Nat} {c : C}
  {w : SnapshotStore} {latest : Option (SnapshotId × PortfolioSnapshot)}

/-- The transaction has changed nothing, and holds the row that it locked and no other. -/
structure Locked (i : Nat) (latest : Option (SnapshotId × PortfolioSnapshot)) (w : SnapshotStore) :
    Prop where
  clean : w.Clean i
  held : ∀ id, w.holder id = some i ↔ ∃ row, latest = some (id, row)
  row : ∀ id row, latest = some (id, row) → w.rows id = some row

theorem Locked.kept {w' : SnapshotStore} (h : Locked i latest w) (hk : Kept i w w') :
    Locked i latest w' := by
  refine ⟨hk.clean h.clean, fun id => (hk.holder id).trans (h.held id), fun id row hrow => ?_⟩
  rw [hk.rows id ((h.held id).mpr ⟨row, hrow⟩)]
  exact h.row id row hrow

/-- The lock is of the row as it is answered. -/
theorem lockFirst_wp (hP : KeepsRows P) (hlock : ∀ id w, P.guard i c (.lock id) w)
    (rows : List (SnapshotId × PortfolioSnapshot)) (h : Locked i none w) :
    (lockFirst rows).Wp P i c (fun r _ w' => ∀ latest, r = .ok latest → Locked i latest w') () w := by
  induction rows generalizing w with
  | nil =>
    apply wp_pure
    rintro latest ⟨⟩
    exact h
  | cons x rest ih =>
    obtain ⟨id, listed⟩ := x
    apply wp_bind
    apply wp_lockRow
    intro w₁ hr _
    have h₁ := h.kept (hP.kept hr)
    refine ⟨hlock id w₁, fun _ => ih h₁, fun row hrow _ _ => ?_⟩
    apply wp_pure
    rintro latest ⟨⟩
    rw [h₁.clean.view] at hrow
    constructor
    · exact h₁.clean.take id
    · intro k
      by_cases hk : k = id
      · simp [Store.take, hk]
      · have hother : w₁.holder k ≠ some i := by simp [h₁.held k]
        simp [Store.take, hk, hother, Ne.symm hk]
    · rintro k row' heq
      cases heq
      exact hrow

theorem latestSnapshot_wp (hP : KeepsRows P) (hscan : ∀ w, P.guard i c .scan w)
    (hlock : ∀ id w, P.guard i c (.lock id) w) (newest : NewestFirst) (h : Locked i none w) :
    (latestSnapshot newest).Wp P i c
      (fun r _ w' => ∀ latest, r = .ok latest → Locked i latest w') () w := by
  apply wp_bind
  apply wp_selectAll
  intro w₁ hr _
  exact ⟨hscan w₁, lockFirst_wp hP hlock _ (h.kept (hP.kept hr))⟩

end Locks

/-! ## Every transaction keeps it -/

section Transactions

variable {i : Nat} {c : SnapshotCall} {w : SnapshotStore} {chosen : Chosen} {p : Point}
  {latest : Option (SnapshotId × PortfolioSnapshot)}

abbrev pointRules : Contract (semantics SnapshotId PortfolioSnapshot SnapshotCall) :=
  contract SnapshotCall Points

/-- What the transaction leaves may be committed where the condition allows it. -/
def MayKeep (i : Nat) (c : SnapshotCall) (w : SnapshotStore) : Prop :=
  ∀ r : SnapshotHistory, Kept i w r.now → pointRules.inv r.now →
    AtCommit (fun i p w => NotBack p w ∧ LatestHeld i p w) i c .commit r → Points (r.now.view i)

theorem mayKeep_clean (h : w.Clean i) : MayKeep i c w := by
  intro r hk hi _
  rw [(hk.clean h).view]
  exact hi.2

/-- A new point: what is left of the day is pinned, as every unpinned point of it would be before the
row that is held, and that row before the new one. -/
theorem recordSnapshot_wp (h : Locked i latest w)
    (hkeeps : ∀ id row, latest = some (id, row) → ¬Overwrites row p) :
    (recordSnapshot chosen.newId p).Wp pointRules i (.keep chosen p)
      (fun r _ w' => ∀ id, r = .ok id → MayKeep i (.keep chosen p) w') () w := by
  apply wp_bind
  apply wp_fromExcept
  cases hrow : p.row with
  | error e => rintro id ⟨⟩
  | ok row =>
    obtain ⟨hasOf, hfree⟩ := Point.row_ok hrow
    apply wp_bind
    apply wp_insertRow
    intro w₁ hr _
    have h₁ := h.kept hr
    refine ⟨contract_guard nofun, fun _ _ => by rintro id ⟨⟩, fun hnew _ _ => ?_⟩
    apply wp_pure
    rintro id - r hk ⟨hsound, hpoints⟩ ⟨hforward, hheld⟩
    rw [h₁.clean.view] at hnew
    have hdrafts : r.now.Drafts i chosen.newId (some row) :=
      hk.drafted (h₁.clean.draft chosen.newId (some row))
    have hholds : ∀ k, r.now.holder k = some i ↔ k = chosen.newId ∨ ∃ row, latest = some (k, row) := by
      intro k
      rw [hk.holder k]
      by_cases hkn : k = chosen.newId
      · simp [Store.create, Store.draft, hkn]
      · simp [Store.create, Store.draft, hkn, h₁.held k]
    have hkept : ∀ k, k = chosen.newId ∨ (∃ row, latest = some (k, row)) → r.now.rows k = w₁.rows k := by
      intro k hor
      rw [hk.rows k ((hk.holder k).mp ((hholds k).mpr hor))]
      rfl
    have hcommitted : ∀ k row, r.now.rows k = some row → k ∈ r.now.keys :=
      fun k row hrow => hsound.listed k (by simp [hrow])
    rw [hdrafts.view]
    apply hpoints.put
    · intro k other hother
      rw [hasOf]
      exact hforward k (hcommitted k other hother) other hother
    · intro k other hother _ hday
      rw [hasOf] at hday
      cases hpin : other.pinned with
      | true => rfl
      | false =>
        exfalso
        by_cases hi : r.now.holder k = some i
        · rcases (hholds k).mp hi with rfl | ⟨row', hlocked⟩
          · rw [hkept _ (.inl rfl), hnew] at hother
            cases hother
          · rw [hkept k (.inr ⟨row', hlocked⟩), h₁.row k row' hlocked] at hother
            cases hother
            exact hkeeps k _ hlocked ⟨hpin, hday⟩
        · obtain ⟨k', -, hk', top, htop, hlt⟩ :=
            hheld k (hcommitted k other hother) other hother hpin hday hi
          have hne : k' ≠ k := by
            rintro rfl
            exact hi hk'
          have hle := hforward k' (hcommitted k' top htop) top htop
          have hday' : dayOf top.asOf = dayOf other.asOf := by
            have h₁ := dayOf_mono (le_of_lt hlt)
            have h₂ := dayOf_mono hle
            omega
          have hback := (hpoints k other k' top hother htop hne hpin hday').2
          omega

/-- The point that is overwritten was the one unpinned point of its day. -/
theorem keepSnapshot_wp (h : Locked i none w) :
    (keepSnapshot chosen p).Wp pointRules i (.keep chosen p)
      (fun r _ w' => ∀ id, r = .ok id → MayKeep i (.keep chosen p) w') () w := by
  apply wp_bind
  refine Proc.wp_mono (latestSnapshot_wp (contract_keepsRows _ Points) (fun _ => contract_guard nofun)
    (fun _ _ => contract_guard nofun) chosen.newest h) ?_
  rintro (e | latest) ⟨⟩ w₁ hlocked
  · rintro id ⟨⟩
  have h₁ := hlocked latest rfl
  cases latest with
  | none => exact recordSnapshot_wp h₁ nofun
  | some found =>
    obtain ⟨id, old⟩ := found
    dsimp only
    split
    · rename_i hover
      apply wp_bind
      apply wp_fromExcept
      cases hrow : p.row with
      | error e => rintro id ⟨⟩
      | ok row =>
        obtain ⟨hasOf, -⟩ := Point.row_ok hrow
        apply wp_bind
        apply wp_writeRow
        intro w₂ hr₂ _
        have h₂ := h₁.kept hr₂
        refine ⟨contract_guard nofun, fun _ => ?_⟩
        apply wp_pure
        rintro _ - r hk ⟨hsound, hpoints⟩ ⟨hforward, -⟩
        have hdrafts : r.now.Drafts i id (some row) := hk.drafted (h₂.clean.draft id (some row))
        have hold : r.now.rows id = some old := by
          rw [hk.rows id (w₂.draft_holds i id (some row)).holder]
          exact h₂.row id old rfl
        rw [hdrafts.view]
        apply hpoints.put
        · intro k other hother
          rw [hasOf]
          exact hforward k (hsound.listed k (by simp [hother])) other hother
        · intro k other hother hne hday
          rw [hasOf, ← hover.2] at hday
          exact (hpoints id old k other hold hother hne hover.1 hday).1
    · rename_i hover
      apply recordSnapshot_wp h₁
      rintro _ _ ⟨⟩
      exact hover

theorem pinSnapshot_wp (id : SnapshotId) (h : Locked i none w) :
    (pinSnapshot id).Wp pointRules i (.pin id)
      (fun r _ w' => r = .ok () → MayKeep i (.pin id) w') () w := by
  apply wp_bind
  apply wp_select
  intro w₁ hr₁ _
  have h₁ := h.kept hr₁
  refine ⟨contract_guard nofun, ?_⟩
  dsimp only
  split
  · exact fun _ => mayKeep_clean h₁.clean
  · split
    · exact fun _ => mayKeep_clean h₁.clean
    · apply wp_bind
      apply wp_bind
      apply wp_lockRow
      intro w₂ hr₂ _
      have h₂ := h₁.kept hr₂
      refine ⟨contract_guard nofun, fun _ => nofun, fun row hrow _ _ => ?_⟩
      apply wp_bind
      apply wp_writeRow
      intro w₃ hr₃ _
      refine ⟨contract_guard nofun, fun _ => ?_⟩
      rintro - r hk hi _
      have hclean₃ := hr₃.clean (h₂.clean.take id)
      have hdrafts : r.now.Drafts i id (some (pinned row)) := hk.drafted (hclean₃.draft id _)
      have hheld₃ : w₃.Holds i id (some row) := hr₃.holds (hrow ▸ w₂.take_holds i id)
      have hrow₃ : r.now.rows id = some row := by
        rw [hk.rows id (w₃.draft_holds i id _).holder, ← hheld₃.view, hclean₃.view]
        rfl
      rw [hdrafts.view]
      exact hi.2.pin hrow₃

/-- The rules of the runs in which the latest point is held. -/
abbrev dailyRules : Contract latestHeld := pointRules.withHistory _

theorem snapshotCode_covers :
    dailyRules.Covers snapshotCode (fun i r => Locked i none r.now) fun _ _ _ _ => True where
  fresh_stable := fun i r r' h hr _ => h.kept hr.1
  post_stable := fun _ _ _ _ _ _ _ _ => trivial
  code_ok := by
    intro i c r _ h
    have hwork : (snapshotWork c).Wp pointRules i c (fun r _ w' => r = .ok () → MayKeep i c w') ()
        r.now := by
      cases c with
      | keep chosen p =>
        apply wp_bind
        refine Proc.wp_mono (keepSnapshot_wp h) ?_
        rintro (e | id) ⟨⟩ w' hcommit
        · exact nofun
        · exact fun _ => hcommit id rfl
      | pin id => exact pinSnapshot_wp id h
    apply wp_transaction_past
    refine Program.wp_mono (wp_withHistory hwork) ?_
    rintro ⟨e | a, ⟨⟩⟩ r' hcommit r₁ hr hi
    · exact contract_guard nofun
    · exact fun hallowed _ => hcommit rfl r₁ hr.1 hi hallowed

end Transactions

/-! ## Every run -/

/-- Rows of one instant in the order in which they were added. -/
def oldestOfInstantFirst : NewestFirst where
  order rows := rows.insertionSort fun a b => b.2.asOf ≤ a.2.asOf
  perm rows := List.perm_insertionSort _ rows
  sorted rows := by
    have htotal : Std.Total fun a b : SnapshotId × PortfolioSnapshot => b.2.asOf ≤ a.2.asOf :=
      ⟨fun a b => le_total b.2.asOf a.2.asOf⟩
    have htrans : IsTrans (SnapshotId × PortfolioSnapshot) fun a b => b.2.asOf ≤ a.2.asOf :=
      ⟨fun a b c h h' => le_trans h' h⟩
    exact List.pairwise_insertionSort _ rows

/-- A point of some instant, whose row gets an id. -/
def pointAt (newId : SnapshotId) (asOf : Int) : SnapshotCall :=
  .keep ⟨oldestOfInstantFirst, newId⟩ ⟨asOf, "EUR", 100, 100, ⟨100, 100, Dict.empty⟩⟩

def steps (i n : Nat) : List (Turn SnapshotCall Unit) := List.replicate n (.act i ())

/-- Two refreshes of a user with no snapshot start together: neither is answered a row, and each adds
one. -/
def twoTabs : List (Turn SnapshotCall Unit) :=
  [.spawn 0 (pointAt 1 1000), .spawn 1 (pointAt 2 2000)] ++ steps 0 1 ++ steps 1 1 ++ steps 0 2 ++
    steps 1 2

/-- A first read, then an evaluation and a refresh that both want the row, then the pin, and a last
read that adds a point. -/
def pinnedBetween : List (Turn SnapshotCall Unit) :=
  [.spawn 0 (pointAt 1 1000)] ++ steps 0 3 ++
    [.spawn 1 (pointAt 2 2000), .spawn 2 (pointAt 3 3000)] ++ steps 1 1 ++ steps 2 1 ++ steps 1 3 ++
      steps 2 3 ++ [.spawn 3 (.pin 1)] ++ steps 3 4 ++ [.spawn 4 (pointAt 4 4000)] ++ steps 4 4

end Coinpilot.Records
