import Coinpilot.Lib.ReadCommitted
import Coinpilot.Lib.Trace

/-!
# Proof rules of transactions

The rules of the statements, for a contract whose threads rely on `Kept` at least
(`KeepsRows`): what a query, a lock and an insertion answer, and what a unit of work must show
when it commits (`wp_transaction`). A transaction that holds the only row it uses does what it
would do alone (`wp_of_held`).
-/

set_option autoImplicit false

namespace Coinpilot.Lib.ReadCommitted

open Coinpilot.Lib.Program

variable {K V C L ε α : Type} [DecidableEq K]

/-- The steps of the others keep a transaction's drafts and the rows it holds, and drafts are of
rows that are held. -/
structure KeepsRows (P : Contract (semantics K V C)) : Prop where
  kept : ∀ {i w w'}, P.rely i w w' → Kept i w w'
  sound : ∀ {w}, P.inv w → w.Sound

theorem contract_keepsRows (C : Type) (I : Rows K V → Prop) : KeepsRows (contract C I) :=
  ⟨id, fun h => h.1⟩

theorem contract_guard {C : Type} {I : Rows K V → Prop} {i : Nat} {c : C} {s : Stmt K V}
    {w : Store K V} (h : s ≠ .commit) : (contract C I).guard i c s w :=
  fun hc => absurd hc h

/-- The transaction has changed nothing. -/
def Store.Clean (w : Store K V) (i : Nat) : Prop := ∀ k, w.drafts i k = none

/-- The transaction holds the row, and sees it as `v`. -/
structure Store.Holds (w : Store K V) (i : Nat) (k : K) (v : Option V) : Prop where
  holder : w.holder k = some i
  view : w.view i k = v

section Statements

variable {P : Contract (semantics K V C)} {i : Nat} {c : C} {w : Store K V} {l : L}

omit [DecidableEq K] in
theorem Store.Clean.view {w : Store K V} (h : w.Clean i) : w.view i = w.rows := by
  funext k
  simp [Store.view, h k]

omit [DecidableEq K] in
theorem Kept.clean {w' : Store K V} (h : Kept i w w') (hc : w.Clean i) : w'.Clean i := by
  intro k
  rw [h.drafts]
  exact hc k

omit [DecidableEq K] in
theorem Kept.holds {w' : Store K V} (h : Kept i w w') {k : K} {v : Option V}
    (hh : w.Holds i k v) : w'.Holds i k v :=
  ⟨(h.holder k).mpr hh.holder, (h.view hh.holder).trans hh.view⟩

theorem Store.take_holds (w : Store K V) (i : Nat) (k : K) : (w.take i k).Holds i k (w.view i k) :=
  ⟨Function.update_self _ _ _, rfl⟩

theorem Store.draft_holds (w : Store K V) (i : Nat) (k : K) (v : Option V) :
    (w.draft i k v).Holds i k v := by
  refine ⟨Function.update_self _ _ _, ?_⟩
  rw [Store.view_draft, Function.update_self]

theorem Store.create_holds (w : Store K V) (i : Nat) (k : K) (v : V) :
    (w.create i k v).Holds i k (some v) := by
  refine ⟨Function.update_self _ _ _, ?_⟩
  rw [Store.view_create, Function.update_self]

theorem Store.Clean.take {w : Store K V} (h : w.Clean i) (k : K) : (w.take i k).Clean i := h

/-- The transaction has changed one row only. -/
def Store.Drafts (w : Store K V) (i : Nat) (k : K) (v : Option V) : Prop :=
  w.drafts i = Function.update (fun _ => none) k (some v)

theorem Store.Drafts.view {w : Store K V} {k : K} {v : Option V} (h : w.Drafts i k v) :
    w.view i = Function.update w.rows k v := by
  have h : w.drafts i = Function.update (fun _ => none) k (some v) := h
  funext l
  by_cases hl : l = k
  · subst hl
    simp [Store.view, h]
  · simp [Store.view, h, hl]

theorem Store.Clean.draft {w : Store K V} (h : w.Clean i) (k : K) (v : Option V) :
    (w.draft i k v).Drafts i k v := by
  have hnone : w.drafts i = fun _ => none := funext h
  simp [Store.Drafts, Store.draft, hnone]

theorem Kept.drafted {w' : Store K V} (h : Kept i w w') {k : K} {v : Option V}
    (hd : w.Drafts i k v) : w'.Drafts i k v :=
  h.drafts.trans hd

/-- A query answers what the transaction sees when it starts. -/
theorem wp_select {Q : Except ε (Rows K V) → L → Store K V → Prop}
    (h : ∀ w₁, P.rely i w w₁ → P.inv w₁ → P.guard i c .snapshot w₁ ∧ Q (.ok (w₁.view i)) l w₁) :
    (select : Proc (Stmt K V) Reply L ε (Rows K V)).Wp P i c Q l w := by
  intro w₁ hr hi
  obtain ⟨hg, hq⟩ := h w₁ hr hi
  refine ⟨hg, ?_⟩
  rintro b w₂ ⟨rfl, rfl⟩ _
  exact hq

/-- A query of all rows answers those that the transaction sees when it starts. -/
theorem wp_selectAll {Q : Except ε (List (K × V)) → L → Store K V → Prop}
    (h : ∀ w₁, P.rely i w w₁ → P.inv w₁ → P.guard i c .scan w₁ ∧ Q (.ok (w₁.listing i)) l w₁) :
    (selectAll : Proc (Stmt K V) Reply L ε (List (K × V))).Wp P i c Q l w := by
  intro w₁ hr hi
  obtain ⟨hg, hq⟩ := h w₁ hr hi
  refine ⟨hg, ?_⟩
  rintro b w₂ ⟨rfl, rfl⟩ _
  exact hq

/-- A lock answers the row as it is when the lock is had. -/
theorem wp_lockRow {k : K} {Q : Except ε (Option V) → L → Store K V → Prop}
    (h : ∀ w₁, P.rely i w w₁ → P.inv w₁ → P.guard i c (.lock k) w₁ ∧
      (w₁.view i k = none → Q (.ok none) l w₁) ∧
      ∀ v, w₁.view i k = some v → w₁.Free i k → P.inv (w₁.take i k) →
        Q (.ok (some v)) l (w₁.take i k)) :
    (lockRow k : Proc (Stmt K V) Reply L ε (Option V)).Wp P i c Q l w := by
  intro w₁ hr hi
  obtain ⟨hg, hnone, hsome⟩ := h w₁ hr hi
  refine ⟨hg, ?_⟩
  rintro b w₂ ⟨rfl, ⟨hk, rfl⟩ | ⟨hk, hf, rfl⟩⟩ hi₂
  · rw [hk]
    exact hnone hk
  · obtain ⟨v, hv⟩ := Option.isSome_iff_exists.mp hk
    rw [hv]
    exact hsome v hv hf hi₂

/-- An insertion answers whether the key was free. -/
theorem wp_insertRow {k : K} {v : V} {Q : Except ε Bool → L → Store K V → Prop}
    (h : ∀ w₁, P.rely i w w₁ → P.inv w₁ → P.guard i c (.insert k v) w₁ ∧
      (∀ v', w₁.view i k = some v' → Q (.ok false) l w₁) ∧
      (w₁.view i k = none → w₁.Free i k → P.inv (w₁.create i k v) →
        Q (.ok true) l (w₁.create i k v))) :
    (insertRow k v : Proc (Stmt K V) Reply L ε Bool).Wp P i c Q l w := by
  intro w₁ hr hi
  obtain ⟨hg, hsome, hnone⟩ := h w₁ hr hi
  refine ⟨hg, ?_⟩
  rintro b w₂ (⟨hk, rfl, rfl⟩ | ⟨hk, hf, rfl, rfl⟩) hi₂
  · obtain ⟨v', hv'⟩ := Option.isSome_iff_exists.mp hk
    exact hsome v' hv'
  · exact hnone hk hf hi₂

/-- A change of a row that is held. -/
theorem wp_writeRow {k : K} {v : Option V} {Q : Except ε Unit → L → Store K V → Prop}
    (h : ∀ w₁, P.rely i w w₁ → P.inv w₁ → P.guard i c (.write k v) w₁ ∧
      (P.inv (w₁.draft i k v) → Q (.ok ()) l (w₁.draft i k v))) :
    (writeRow k v : Proc (Stmt K V) Reply L ε Unit).Wp P i c Q l w := by
  intro w₁ hr hi
  obtain ⟨hg, hq⟩ := h w₁ hr hi
  refine ⟨hg, ?_⟩
  rintro b w₂ ⟨-, rfl⟩ hi₂
  exact hq hi₂

/-- A unit of work: what it leaves meets the guard of its commit, or of its rollback. -/
theorem wp_transaction {m : Proc (Stmt K V) Reply L ε α} {Q : Except ε α → L → Store K V → Prop}
    (h : m.Wp P i c (fun r l w => match r with
      | .ok a => ∀ w₁, P.rely i w w₁ → P.inv w₁ → P.guard i c .commit w₁ ∧
          (P.inv (w₁.commit i) → Q (.ok a) l (w₁.commit i))
      | .error e => ∀ w₁, P.rely i w w₁ → P.inv w₁ → P.guard i c .rollback w₁ ∧
          (P.inv (w₁.release i) → Q (.error e) l (w₁.release i))) l w) :
    (transaction m).Wp P i c Q l w := by
  refine prog_wp_bind (Program.wp_mono h ?_)
  rintro ⟨r | a, l'⟩ w' hw' w₁ hr hi
  · obtain ⟨hg, hq⟩ := hw' w₁ hr hi
    refine ⟨hg, ?_⟩
    rintro b w₂ rfl hi₂
    exact hq hi₂
  · obtain ⟨hg, hq⟩ := hw' w₁ hr hi
    refine ⟨hg, ?_⟩
    rintro b w₂ rfl hi₂
    exact hq hi₂

end Statements

/-! ## Statements on a history -/

section Histories

variable {P : Contract (semantics K V C)} {i : Nat} {c : C} {l : L}
  {allowed : Nat → C → Stmt K V → Recorded (Stmt K V) Reply C (Store K V) → Prop}
  {r : Recorded (Stmt K V) Reply C (Store K V)}

/-- A query, and the event that it leaves. -/
theorem wp_select_past {Q : Except ε (Rows K V) → L → Recorded (Stmt K V) Reply C (Store K V) → Prop}
    (h : ∀ r₁, (P.withHistory allowed).rely i r r₁ → P.inv r₁.now →
      P.guard i c .snapshot r₁.now ∧ ∀ r₂, r₂.now = r₁.now →
        r₂.past = ⟨i, c, .snapshot, r₁.now.view i, r₁.now, r₁.now⟩ :: r₁.past →
          Q (.ok (r₁.now.view i)) l r₂) :
    (select : Proc (Stmt K V) Reply L ε (Rows K V)).Wp (P.withHistory allowed) i c Q l r := by
  intro r₁ hr hi
  obtain ⟨hg, hq⟩ := h r₁ hr hi
  refine ⟨fun _ => hg, ?_⟩
  rintro b r₂ ⟨-, ⟨rfl, hnow⟩, hpast⟩ _
  rw [hnow] at hpast
  exact hq r₂ hnow hpast

/-- A lock that the condition allows, and the event that it leaves. -/
theorem wp_lockRow_past {k : K}
    {Q : Except ε (Option V) → L → Recorded (Stmt K V) Reply C (Store K V) → Prop}
    (h : ∀ r₁, (P.withHistory allowed).rely i r r₁ → P.inv r₁.now →
      P.guard i c (.lock k) r₁.now ∧ (allowed i c (.lock k) r₁ → ∀ r₂,
        r₂.past = ⟨i, c, .lock k, r₁.now.view i k, r₁.now, r₂.now⟩ :: r₁.past →
          (r₁.now.view i k = none → r₂.now = r₁.now → Q (.ok none) l r₂) ∧
          ∀ v, r₁.now.view i k = some v → r₁.now.Free i k → r₂.now = r₁.now.take i k →
            Q (.ok (some v)) l r₂)) :
    (lockRow k : Proc (Stmt K V) Reply L ε (Option V)).Wp (P.withHistory allowed) i c Q l r := by
  intro r₁ hr hi
  obtain ⟨hg, hq⟩ := h r₁ hr hi
  refine ⟨fun _ => hg, ?_⟩
  rintro b r₂ ⟨ha, ⟨rfl, hlock⟩, hpast⟩ _
  obtain ⟨hnone, hsome⟩ := hq ha r₂ hpast
  rcases hlock with ⟨hk, hnow⟩ | ⟨hk, hf, hnow⟩
  · rw [hk]
    exact hnone hk hnow
  · obtain ⟨v, hv⟩ := Option.isSome_iff_exists.mp hk
    rw [hv]
    exact hsome v hv hf hnow

/-- A change of a row that is held, and the event that it leaves. -/
theorem wp_writeRow_past {k : K} {v : Option V}
    {Q : Except ε Unit → L → Recorded (Stmt K V) Reply C (Store K V) → Prop}
    (h : ∀ r₁, (P.withHistory allowed).rely i r r₁ → P.inv r₁.now →
      P.guard i c (.write k v) r₁.now ∧ ∀ r₂, r₂.now = r₁.now.draft i k v →
        r₂.past = ⟨i, c, .write k v, (), r₁.now, r₂.now⟩ :: r₁.past → Q (.ok ()) l r₂) :
    (writeRow k v : Proc (Stmt K V) Reply L ε Unit).Wp (P.withHistory allowed) i c Q l r := by
  intro r₁ hr hi
  obtain ⟨hg, hq⟩ := h r₁ hr hi
  refine ⟨fun _ => hg, ?_⟩
  rintro b r₂ ⟨-, ⟨-, hnow⟩, hpast⟩ _
  exact hq r₂ hnow hpast

/-- A unit of work: what it leaves meets the guard of its commit where the condition allows it. -/
theorem wp_transaction_past {ε α : Type} {m : Proc (Stmt K V) Reply L ε α}
    (h : m.Wp (P.withHistory allowed) i c (fun a _ r => ∀ r₁,
      (P.withHistory allowed).rely i r r₁ → P.inv r₁.now → match a with
        | .ok _ => allowed i c .commit r₁ → P.guard i c .commit r₁.now
        | .error _ => P.guard i c .rollback r₁.now) l r) :
    (transaction m).Wp (P.withHistory allowed) i c (fun _ _ _ => True) l r := by
  refine prog_wp_bind (Program.wp_mono h ?_)
  rintro ⟨a | a, l'⟩ r' hr' r₁ hr hi
  · exact ⟨fun _ => hr' r₁ hr hi, fun _ _ _ _ => trivial⟩
  · exact ⟨hr' r₁ hr hi, fun _ _ _ _ => trivial⟩

end Histories

/-! ## A row that is held -/

/-- Statements about one row only. -/
def Within (k : K) : Stmt K V → Prop
  | .lock k' => k' = k
  | .write k' _ => k' = k
  | .insert k' _ => k' = k
  | _ => False

section Calls

variable (k : K)

omit [DecidableEq K] in
theorem within_lockRow : Proc.Only (Within k) (fun r => ∃ row, r = .ok row)
    (lockRow k : Proc (Stmt K V) Reply L ε (Option V)) :=
  fun _ => ⟨rfl, fun row => ⟨⟨row, rfl⟩, rfl⟩⟩

omit [DecidableEq K] in
theorem within_writeRow (v : Option V) : Proc.Only (Within k) (fun r => r = .ok ())
    (writeRow k v : Proc (Stmt K V) Reply L ε Unit) :=
  fun _ => ⟨rfl, fun _ => ⟨rfl, rfl⟩⟩

omit [DecidableEq K] in
theorem within_updateRow (f : V → V) : Proc.Only (Within k) (fun r => ∃ found, r = .ok found)
    (updateRow k f : Proc (Stmt K V) Reply L ε Bool) := by
  apply only_bind (within_lockRow k)
  · intro row _
    cases row with
    | none => exact only_pure ⟨false, rfl⟩
    | some v =>
      apply only_bind (within_writeRow k (some (f v)))
      · intro _ _
        exact only_pure ⟨true, rfl⟩
      · simp
  · rintro e ⟨row, h⟩
    cases h

end Calls

section Held

variable {P : Contract (semantics K V C)} {i : Nat} {c : C} {k : K}

/-- A transaction that holds the row its statements are about does what it would do alone. -/
theorem wp_of_held (hP : KeepsRows P)
    (hguard : ∀ (o : Stmt K V) w, Within k o → w.holder k = some i → P.guard i c o w)
    {p : Prog (Stmt K V) Reply α} (hp : p.Only (Within k) fun _ => True) {w : Store K V}
    {rows view : Rows K V} (hw : w.Holds i k (view k)) :
    p.Wp P i c (fun a w' => a = (alone p rows view).1 ∧ w'.Holds i k ((alone p rows view).2.2 k))
      w := by
  induction p generalizing w view with
  | ret a => exact ⟨rfl, hw⟩
  | call o next ih =>
    obtain ⟨ho, hnext⟩ := hp
    intro w₁ hr hi
    have hw₁ := (hP.kept hr).holds hw
    refine ⟨hguard o w₁ ho hw₁.holder, fun b w₂ hs _ => ?_⟩
    cases o with
    | snapshot => exact ho.elim
    | scan => exact ho.elim
    | commit => exact ho.elim
    | rollback => exact ho.elim
    | lock k' =>
      cases ho
      obtain ⟨rfl, ⟨-, rfl⟩ | ⟨-, -, rfl⟩⟩ := hs
      · rw [hw₁.view]
        exact ih _ (hnext _) hw₁
      · have hheld := w₁.take_holds i k
        rw [hw₁.view] at hheld ⊢
        exact ih _ (hnext _) hheld
    | write k' v =>
      cases ho
      obtain ⟨-, rfl⟩ := hs
      apply ih _ (hnext _)
      rw [Function.update_self]
      exact w₁.draft_holds i k v
    | insert k' v =>
      cases ho
      rcases hs with ⟨hk, rfl, rfl⟩ | ⟨hk, -, rfl, rfl⟩
      · rw [hw₁.view] at hk
        simp only [alone, hk, if_true]
        exact ih _ (hnext _) hw₁
      · rw [hw₁.view] at hk
        have hfree : ¬(view k).isSome := by simp [hk]
        simp only [alone, if_neg hfree]
        apply ih _ (hnext _)
        rw [Function.update_self]
        exact w₁.create_holds i k v

end Held

/-! ## Units of work that raise -/

/-- The statements inside a unit of work. -/
def Body : Stmt K V → Prop
  | .commit => False
  | .rollback => False
  | _ => True

section Body

variable {J : L → Prop} (k : K)

omit [DecidableEq K] in
theorem body_select :
    (select : Proc (Stmt K V) Reply L ε (Rows K V)).Calls Body J := fun _ hl => ⟨trivial, fun _ => hl⟩

omit [DecidableEq K] in
theorem body_selectAll : (selectAll : Proc (Stmt K V) Reply L ε (List (K × V))).Calls Body J :=
  fun _ hl => ⟨trivial, fun _ => hl⟩

omit [DecidableEq K] in
theorem body_lockRow : (lockRow k : Proc (Stmt K V) Reply L ε (Option V)).Calls Body J :=
  fun _ hl => ⟨trivial, fun _ => hl⟩

omit [DecidableEq K] in
theorem body_writeRow (v : Option V) : (writeRow k v : Proc (Stmt K V) Reply L ε Unit).Calls Body J :=
  fun _ hl => ⟨trivial, fun _ => hl⟩

omit [DecidableEq K] in
theorem body_insertRow (v : V) : (insertRow k v : Proc (Stmt K V) Reply L ε Bool).Calls Body J :=
  fun _ hl => ⟨trivial, fun _ => hl⟩

omit [DecidableEq K] in
theorem body_updateRow (f : V → V) : (updateRow k f : Proc (Stmt K V) Reply L ε Bool).Calls Body J := by
  apply calls_bind (body_lockRow k)
  intro row
  cases row with
  | none => exact calls_pure false
  | some v => exact calls_bind (body_writeRow k _) fun _ => calls_pure true

omit [DecidableEq K] in
theorem body_deleteRow : (deleteRow k : Proc (Stmt K V) Reply L ε Bool).Calls Body J := by
  apply calls_bind (body_lockRow k)
  intro row
  cases row with
  | none => exact calls_pure false
  | some v => exact calls_bind (body_writeRow k none) fun _ => calls_pure true

end Body

section Paths

variable {l l' : L} {t : List (Answer (Stmt K V) Reply)}

omit [DecidableEq K] in
theorem path_selectAll {r : Except ε (List (K × V))}
    (h : (selectAll : Proc (Stmt K V) Reply L ε (List (K × V))).Path l t r l') :
    ∃ rows, t = [⟨.scan, rows⟩] ∧ r = .ok rows ∧ l' = l :=
  path_perform h

omit [DecidableEq K] in
/-- A part that raises nothing is followed by the rest. -/
theorem path_bind_of_ok {β : Type} {m : Proc (Stmt K V) Reply L ε α}
    (hm : ∀ {l t e l'}, ¬m.Path l t (.error e) l') {f : α → Proc (Stmt K V) Reply L ε β}
    {r : Except ε β} (h : (m >>= f).Path l t r l') :
    ∃ a l₁ t₁ t₂, m.Path l t₁ (.ok a) l₁ ∧ (f a).Path l₁ t₂ r l' ∧ t = t₁ ++ t₂ := by
  rcases path_bind h with hboth | ⟨e, he, -⟩
  · exact hboth
  · exact absurd he hm

omit [DecidableEq K] in
theorem not_path_select_error {e : ε} :
    ¬(select : Proc (Stmt K V) Reply L ε (Rows K V)).Path l t (.error e) l' := by
  intro h
  obtain ⟨b, -, hb, -⟩ := path_perform h
  cases hb

omit [DecidableEq K] in
theorem not_path_selectAll_error {e : ε} :
    ¬(selectAll : Proc (Stmt K V) Reply L ε (List (K × V))).Path l t (.error e) l' := by
  intro h
  obtain ⟨b, -, hb, -⟩ := path_perform h
  cases hb

omit [DecidableEq K] in
theorem not_path_lockRow_error {k : K} {e : ε} :
    ¬(lockRow k : Proc (Stmt K V) Reply L ε (Option V)).Path l t (.error e) l' := by
  intro h
  obtain ⟨b, -, hb, -⟩ := path_perform h
  cases hb

omit [DecidableEq K] in
theorem not_path_insertRow_error {k : K} {v : V} {e : ε} :
    ¬(insertRow k v : Proc (Stmt K V) Reply L ε Bool).Path l t (.error e) l' := by
  intro h
  obtain ⟨b, -, hb, -⟩ := path_perform h
  cases hb

end Paths

section Raised

variable {m : Proc (Stmt K V) Reply L ε α} {l l' : L}

omit [DecidableEq K] in
/-- A unit of work runs its statements, and then commits or rolls back. -/
theorem path_transaction {t : List (Answer (Stmt K V) Reply)} {r : Except ε α}
    (h : (transaction m).Path l t r l') :
    ∃ t₁ x, m.Path l t₁ r l' ∧ t = t₁ ++ [x] ∧ ∀ e, r = .error e → x.1 = .rollback := by
  obtain ⟨t₁, ⟨r₁, l₁⟩, t₂, h₁, h₂, rfl⟩ := prog_path_bind h
  cases r₁ with
  | ok a =>
    obtain ⟨b, t₃, rfl, h₃⟩ := path_call h₂
    obtain ⟨rfl, heq⟩ := path_ret h₃
    cases heq
    exact ⟨t₁, _, h₁, rfl, fun e he => by cases he⟩
  | error e =>
    obtain ⟨b, t₃, rfl, h₃⟩ := path_call h₂
    obtain ⟨rfl, heq⟩ := path_ret h₃
    cases heq
    exact ⟨t₁, _, h₁, rfl, fun _ _ => rfl⟩

/-- A unit of work that raised has changed no committed row. -/
theorem rows_kept_of_raised {C : Type} {code : C → Prog (Stmt K V) Reply (Except ε α × L)}
    {w₀ : Store K V} {σ : Config (Stmt K V) Reply C (Recorded (Stmt K V) Reply C (Store K V))
      (Except ε α × L)}
    (h : Reaches (semantics K V C).recorded code (.start ⟨w₀, []⟩) σ) {i : Nat} {c : C} {e : ε}
    (hl : σ.threads i = .live c (.ret (.error e, l'))) (hcode : code c = (transaction m).exec l)
    (hm : m.Calls Body fun _ => True) :
    ∀ ev ∈ σ.world.past, ev.who = i → ev.after.rows = ev.before.rows := by
  have hpath := path_of_returned h hl
  rw [hcode] at hpath
  obtain ⟨t₁, x, hbody, htrace, hlast⟩ := path_transaction hpath
  intro ev hev hwho
  obtain ⟨-, hsteps⟩ : (∀ j, ThreadOnly (fun _ _ => True) (σ.threads j)) ∧ ∀ e ∈ σ.world.past, True ∧
      (semantics K V C).step e.who e.call e.op e.before e.ans e.after :=
    only_of_reaches (fun c => only_any (code c)) h
  apply answered_rows (hsteps ev hev).2
  intro hcommit
  have hmem : (⟨ev.op, ev.ans⟩ : Answer (Stmt K V) Reply) ∈ traceOf i σ.world.past :=
    mem_traceOf.mpr ⟨ev, hev, hwho, rfl⟩
  rw [htrace] at hmem
  rcases List.mem_append.mp hmem with hin | hin
  · have hok : Body ev.op := (hm.path hbody trivial).1 _ hin
    rw [hcommit] at hok
    exact hok
  · rw [List.mem_singleton] at hin
    have hroll := hlast e rfl
    rw [← hin] at hroll
    have hne : ev.op = .rollback := hroll
    rw [hcommit] at hne
    cases hne

end Raised

end Coinpilot.Lib.ReadCommitted
