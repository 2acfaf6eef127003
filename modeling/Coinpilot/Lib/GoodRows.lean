import Coinpilot.Lib.RowLocks

/-!
# Rows that are good one by one

An invariant that speaks of each row alone needs no lock: where every transaction sees good rows only and
writes good rows only (`Keeps`), every committed row is good after any run (`good_of_reaches`).
-/

set_option autoImplicit false

namespace Coinpilot.Lib.ReadCommitted

open Coinpilot.Lib.Program

variable {K V C L ε α β : Type}

/-- The rows of a transaction's own changes are good. -/
def Store.GoodDrafts (good : K → Option V → Prop) (w : Store K V) (i : Nat) : Prop :=
  ∀ k v, w.drafts i k = some v → good k v

section Drafts

variable {good : K → Option V → Prop} {w : Store K V} {i : Nat}

theorem Store.Clean.goodDrafts (h : w.Clean i) : w.GoodDrafts good i := by
  intro k v hv
  rw [h k] at hv
  cases hv

/-- What a transaction sees is what it wrote, or what is committed. -/
theorem Store.GoodDrafts.view (h : w.GoodDrafts good i) (hrows : ∀ k, good k (w.rows k)) (k : K) :
    good k (w.view i k) := by
  rw [Store.view]
  cases hdraft : w.drafts i k with
  | none => exact hrows k
  | some v => exact h k v hdraft

theorem Kept.goodDrafts {w' : Store K V} (hk : Kept i w w') (h : w.GoodDrafts good i) :
    w'.GoodDrafts good i := by
  intro k v hv
  rw [hk.drafts] at hv
  exact h k v hv

theorem Store.GoodDrafts.draft [DecidableEq K] (h : w.GoodDrafts good i) {k : K} {v : Option V}
    (hv : good k v) : (w.draft i k v).GoodDrafts good i := by
  intro k' v' hdraft
  simp only [Store.draft, Function.update_self] at hdraft
  by_cases hk : k' = k
  · subst hk
    rw [Function.update_self] at hdraft
    exact Option.some.inj hdraft ▸ hv
  · rw [Function.update_of_ne hk] at hdraft
    exact h k' v' hdraft

end Drafts

variable [DecidableEq K]

/-- Every committed row is good. -/
def goodRows (C : Type) (good : K → Option V → Prop) : Contract (semantics K V C) :=
  contract C fun rows => ∀ k, good k (rows k)

/-- From good rows, a procedure writes good rows only, and ends as `R` says. -/
def Keeps (C : Type) (good : K → Option V → Prop) (R : Except ε α → Prop)
    (m : Proc (Stmt K V) Reply L ε α) : Prop :=
  ∀ (i : Nat) (c : C) (l : L) (w : Store K V), w.GoodDrafts good i →
    m.Wp (goodRows C good) i c (fun r _ w' => R r ∧ w'.GoodDrafts good i) l w

section Rules

variable {good : K → Option V → Prop} {R : Except ε α → Prop}

theorem keeps_pure {a : α} (h : R (.ok a)) : Keeps C good R (pure a : Proc (Stmt K V) Reply L ε α) :=
  fun _ _ _ _ hd => wp_pure ⟨h, hd⟩

theorem keeps_throw {e : ε} (h : R (.error e)) : Keeps C good R (throw e : Proc (Stmt K V) Reply L ε α) :=
  fun _ _ _ _ hd => wp_throw ⟨h, hd⟩

theorem keeps_fromExcept {x : Except ε α} (h : R x) :
    Keeps C good R (fromExcept x : Proc (Stmt K V) Reply L ε α) :=
  fun _ _ _ _ hd => wp_fromExcept ⟨h, hd⟩

theorem keeps_bind {m : Proc (Stmt K V) Reply L ε α} {f : α → Proc (Stmt K V) Reply L ε β}
    {R' : Except ε β → Prop} (hm : Keeps C good R m) (hf : ∀ a, R (.ok a) → Keeps C good R' (f a))
    (he : ∀ e, R (.error e) → R' (.error e)) : Keeps C good R' (m >>= f) := by
  intro i c l w hd
  apply wp_bind
  refine Proc.wp_mono (hm i c l w hd) ?_
  rintro (e | a) l' w' ⟨hr, hd'⟩
  · exact ⟨he e hr, hd'⟩
  · exact hf a hr i c l' w' hd'

theorem keeps_mono {m : Proc (Stmt K V) Reply L ε α} {R' : Except ε α → Prop} (hm : Keeps C good R m)
    (h : ∀ r, R r → R' r) : Keeps C good R' m :=
  fun i c l w hd => Proc.wp_mono (hm i c l w hd) fun r _ _ hr => ⟨h r hr.1, hr.2⟩

/-- A query sees good rows. -/
theorem keeps_select : Keeps C good (fun r => ∃ rows, r = .ok rows ∧ ∀ k, good k (rows k))
    (select : Proc (Stmt K V) Reply L ε (Rows K V)) := by
  intro i c l w hd
  apply wp_select
  intro w₁ hr hi
  have hd₁ := Kept.goodDrafts hr hd
  exact ⟨contract_guard (by rintro ⟨⟩), ⟨_, rfl, hd₁.view hi.2⟩, hd₁⟩

theorem keeps_selectAll : Keeps C good (fun r => ∃ listed, r = .ok listed)
    (selectAll : Proc (Stmt K V) Reply L ε (List (K × V))) := by
  intro i c l w hd
  apply wp_selectAll
  intro w₁ hr hi
  exact ⟨contract_guard (by rintro ⟨⟩), ⟨_, rfl⟩, Kept.goodDrafts hr hd⟩

theorem keeps_lockRow (k : K) : Keeps C good (fun r => ∃ v, r = .ok v ∧ ∀ v', v = some v' → good k v)
    (lockRow k : Proc (Stmt K V) Reply L ε (Option V)) := by
  intro i c l w hd
  apply wp_lockRow
  intro w₁ hr hi
  have hd₁ := Kept.goodDrafts hr hd
  refine ⟨contract_guard (by rintro ⟨⟩), fun _ => ⟨⟨none, rfl, ?_⟩, hd₁⟩,
    fun v hv _ _ => ⟨⟨some v, rfl, ?_⟩, hd₁⟩⟩
  · rintro v' ⟨⟩
  · intro _ _
    rw [← hv]
    exact hd₁.view hi.2 k

theorem keeps_writeRow {k : K} {v : Option V} (hv : good k v) : Keeps C good (fun r => r = .ok ())
    (writeRow k v : Proc (Stmt K V) Reply L ε Unit) := by
  intro i c l w hd
  apply wp_writeRow
  intro w₁ hr _
  exact ⟨contract_guard (by rintro ⟨⟩), fun _ => ⟨rfl, (Kept.goodDrafts hr hd).draft hv⟩⟩

theorem keeps_insertRow {k : K} {v : V} (hv : good k (some v)) : Keeps C good (fun r => ∃ free, r = .ok free)
    (insertRow k v : Proc (Stmt K V) Reply L ε Bool) := by
  intro i c l w hd
  apply wp_insertRow
  intro w₁ hr _
  have hd₁ := Kept.goodDrafts hr hd
  exact ⟨contract_guard (by rintro ⟨⟩), fun _ _ => ⟨⟨false, rfl⟩, hd₁⟩,
    fun _ _ _ => ⟨⟨true, rfl⟩, hd₁.draft hv⟩⟩

theorem keeps_updateRow {k : K} {f : V → V} (hf : ∀ v, good k (some v) → good k (some (f v))) :
    Keeps C good (fun r => ∃ found, r = .ok found) (updateRow k f : Proc (Stmt K V) Reply L ε Bool) := by
  apply keeps_bind (keeps_lockRow k)
  · rintro row ⟨v, hv, hgood⟩
    cases hv
    cases row with
    | none => exact keeps_pure ⟨false, rfl⟩
    | some v =>
      apply keeps_bind (keeps_writeRow (hf v (hgood v rfl)))
      · exact fun _ _ => keeps_pure ⟨true, rfl⟩
      · rintro e ⟨⟩
  · rintro e ⟨v, hv, -⟩
    cases hv

theorem keeps_deleteRow {k : K} (hnone : good k none) :
    Keeps C good (fun r => ∃ found, r = .ok found) (deleteRow k : Proc (Stmt K V) Reply L ε Bool) := by
  apply keeps_bind (keeps_lockRow k)
  · rintro row ⟨v, hv, -⟩
    cases hv
    cases row with
    | none => exact keeps_pure ⟨false, rfl⟩
    | some v =>
      apply keeps_bind (keeps_writeRow hnone)
      · exact fun _ _ => keeps_pure ⟨true, rfl⟩
      · rintro e ⟨⟩
  · rintro e ⟨v, hv, -⟩
    cases hv

/-- Whatever units of work run beside each other, every committed row is good. -/
theorem good_of_reaches {work : C → Proc (Stmt K V) Reply L ε α}
    (hwork : ∀ c, ∃ R, Keeps C good R (work c)) {w₀ : Store K V} (hsound : w₀.Sound)
    (hgood : ∀ k, good k (w₀.rows k)) (hclean : ∀ i, w₀.Clean i) {l : L}
    {σ : Config (Stmt K V) Reply C (Store K V) (Except ε α × L)}
    (h : Reaches (semantics K V C) (fun c => (transaction (work c)).exec l) (.start w₀) σ) (k : K) :
    good k (σ.world.rows k) := by
  have hcovers : (goodRows C good).Covers (fun c => (transaction (work c)).exec l) (fun i w => w.Clean i)
      fun _ _ _ _ => True := {
    fresh_stable := fun i w w' hclean hr _ => Kept.clean hr hclean
    post_stable := fun _ _ _ _ _ _ _ _ => trivial
    code_ok := by
      intro i c w _ hclean
      obtain ⟨R, hkeeps⟩ := hwork c
      change (transaction (work c)).Wp (goodRows C good) i c (fun _ _ _ => True) l w
      apply wp_transaction
      refine Proc.wp_mono (hkeeps i c l w hclean.goodDrafts) ?_
      rintro (e | a) l' w' ⟨-, hd⟩ w₁ hr hi
      · exact ⟨contract_guard (by rintro ⟨⟩), fun _ => trivial⟩
      · exact ⟨fun _ => (Kept.goodDrafts hr hd).view hi.2, fun _ => trivial⟩ }
  exact (Contract.sound hcovers ⟨hsound, hgood⟩ hclean h).1.2 k

end Rules

end Coinpilot.Lib.ReadCommitted
