import Coinpilot.Lib.Replay
import Mathlib.Data.List.Nodup

/-!
# Transactions under READ COMMITTED

A table is a function from keys to rows. A transaction calls statements (`Stmt`): a query, of one
row or of all of them, sees what is committed when it starts, and the transaction's own changes; a
row lock waits for the transaction that holds the row, and answers the row as it is then; a change
is of a row that is locked; a key is inserted once. Changes are drafts until the commit, which
releases the locks. Other transactions take their statements in between, in any order
(`semantics`).

An `UPDATE` or a `DELETE` of one row is a lock and a change. A statement that finds its row by a
condition is a query, a lock of what it found, and a change, so others may commit in between, as
they may while the statement waits.

What the steps of the others leave a transaction is `Kept`, and `Sound` says that only the holder
of a row has a draft of it. `contract` is the proof rule for an invariant of the committed rows: a
commit must leave rows that meet it.
-/

set_option autoImplicit false

namespace Coinpilot.Lib.ReadCommitted

open Coinpilot.Lib.Program

/-! ## Statements -/

/-- The rows of a table by their keys. -/
abbrev Rows (K V : Type) := K → Option V

inductive Stmt (K V : Type) where
  | snapshot
  | scan
  | lock (k : K)
  | write (k : K) (v : Option V)
  | insert (k : K) (v : V)
  | commit
  | rollback

/-- A query that locks nothing. -/
def Stmt.isSnapshot {K V : Type} : Stmt K V → Bool
  | .snapshot => true
  | _ => false

/-- What each statement answers. An insertion answers whether the key was free. -/
def Reply {K V : Type} : Stmt K V → Type
  | .snapshot => Rows K V
  | .scan => List (K × V)
  | .lock _ => Option V
  | .write _ _ => Unit
  | .insert _ _ => Bool
  | .commit => Unit
  | .rollback => Unit

/-- The committed rows, who holds each row, what each transaction has changed, and the keys that
there are or were rows of. -/
structure Store (K V : Type) where
  rows : Rows K V
  holder : K → Option Nat
  drafts : Nat → K → Option (Option V)
  keys : List K

section Stores

variable {K V : Type}

/-- Nothing is in progress. -/
def Store.idle (rows : Rows K V) (keys : List K) : Store K V :=
  ⟨rows, fun _ => none, fun _ _ => none, keys⟩

/-- What transaction `i` sees: its own changes over what is committed. -/
def Store.view (w : Store K V) (i : Nat) : Rows K V := fun k => (w.drafts i k).getD (w.rows k)

/-- The rows that transaction `i` sees. -/
def Store.listing (w : Store K V) (i : Nat) : List (K × V) :=
  w.keys.filterMap fun k => (w.view i k).map fun v => (k, v)

/-- The locks and the drafts of a transaction that has ended are gone. -/
def Store.release (w : Store K V) (i : Nat) : Store K V where
  rows := w.rows
  holder := fun k => if w.holder k = some i then none else w.holder k
  drafts := fun j => if j = i then fun _ => none else w.drafts j
  keys := w.keys

/-- The changes of a transaction become the committed rows. -/
def Store.commit (w : Store K V) (i : Nat) : Store K V := { w.release i with rows := w.view i }

variable [DecidableEq K]

/-- Transaction `i` holds the row. -/
def Store.take (w : Store K V) (i : Nat) (k : K) : Store K V :=
  { w with holder := Function.update w.holder k (some i) }

/-- Transaction `i` holds the row and has changed it. -/
def Store.draft (w : Store K V) (i : Nat) (k : K) (v : Option V) : Store K V where
  rows := w.rows
  holder := Function.update w.holder k (some i)
  drafts := Function.update w.drafts i (Function.update (w.drafts i) k (some v))
  keys := w.keys

/-- Transaction `i` holds a new row. -/
def Store.create (w : Store K V) (i : Nat) (k : K) (v : V) : Store K V :=
  { w.draft i k (some v) with keys := w.keys.insert k }

/-- No other transaction holds the row. -/
def Store.Free (w : Store K V) (i : Nat) (k : K) : Prop :=
  w.holder k = none ∨ w.holder k = some i

instance (w : Store K V) (i : Nat) (k : K) : Decidable (w.Free i k) :=
  inferInstanceAs (Decidable (_ ∨ _))

/-- How the store answers transaction `i`. A lock of a row that is not there waits for nobody, and
an insertion waits for one of the same key that is not committed yet. -/
def answered (i : Nat) : (s : Stmt K V) → Store K V → Reply s → Store K V → Prop
  | .snapshot, w, b, w' => b = w.view i ∧ w' = w
  | .scan, w, b, w' => b = w.listing i ∧ w' = w
  | .lock k, w, b, w' =>
      b = w.view i k ∧ ((w.view i k = none ∧ w' = w) ∨
        ((w.view i k).isSome ∧ w.Free i k ∧ w' = w.take i k))
  | .write k v, w, _, w' => w.holder k = some i ∧ w' = w.draft i k v
  | .insert k v, w, b, w' =>
      ((w.view i k).isSome ∧ b = false ∧ w' = w) ∨
        (w.view i k = none ∧ w.Free i k ∧ b = true ∧ w' = w.create i k v)
  | .commit, w, _, w' => w' = w.commit i
  | .rollback, w, _, w' => w' = w.release i

/-- Transactions against one store. The death of one is its rollback. -/
def semantics (K V C : Type) [DecidableEq K] : Semantics (Stmt K V) Reply C (Store K V) where
  step i _ s := answered i s
  env w w' := w' = w
  died i w := w.release i

/-! ## What a step changes -/

/-- Only the holder of a row has a draft of it, and the keys of the rows are known, once each. -/
structure Store.Sound (w : Store K V) : Prop where
  drafts : ∀ i k, w.drafts i k ≠ none → w.holder k = some i
  held : ∀ k, w.holder k ≠ none → k ∈ w.keys
  listed : ∀ k, w.rows k ≠ none → k ∈ w.keys
  nodup : w.keys.Nodup

omit [DecidableEq K] in
theorem Store.idle_sound {rows : Rows K V} {keys : List K} (hnodup : keys.Nodup)
    (h : ∀ k, rows k ≠ none → k ∈ keys) : (Store.idle rows keys).Sound :=
  ⟨fun _ _ hd => absurd rfl hd, fun _ hk => absurd rfl hk, h, hnodup⟩

omit [DecidableEq K] in
/-- A row that a transaction sees has a known key. -/
theorem Store.Sound.mem_keys {w : Store K V} (hs : w.Sound) {i : Nat} {k : K}
    (h : w.view i k ≠ none) : k ∈ w.keys := by
  cases hd : w.drafts i k with
  | none => exact hs.listed k (by simpa [Store.view, hd] using h)
  | some v =>
    apply hs.held
    rw [hs.drafts i k (by simp [hd])]
    simp

omit [DecidableEq K] in
/-- A query of all rows answers each row once. -/
theorem Store.Sound.mem_listing {w : Store K V} (hs : w.Sound) {i : Nat} {k : K} {v : V} :
    (k, v) ∈ w.listing i ↔ w.view i k = some v := by
  simp only [Store.listing, List.mem_filterMap, Option.map_eq_some_iff, Prod.mk.injEq]
  constructor
  · rintro ⟨k', -, v', hv', rfl, rfl⟩
    exact hv'
  · intro hv
    exact ⟨k, hs.mem_keys (i := i) (by simp [hv]), v, hv, rfl, rfl⟩

omit [DecidableEq K] in
theorem Store.Sound.listing_nodup {w : Store K V} (hs : w.Sound) (i : Nat) :
    ((w.listing i).map Prod.fst).Nodup := by
  refine List.Nodup.sublist ?_ hs.nodup
  unfold Store.listing
  generalize w.keys = keys
  induction keys with
  | nil => exact List.Sublist.refl _
  | cons k keys ih =>
    cases hv : w.view i k with
    | none =>
      simp only [List.filterMap_cons, hv, Option.map_none]
      exact ih.cons k
    | some v =>
      simp only [List.filterMap_cons, hv, Option.map_some, List.map_cons]
      exact ih.cons_cons k

/-- What the steps of the others leave transaction `i`: its drafts, and the rows it holds. -/
structure Kept (i : Nat) (w w' : Store K V) : Prop where
  drafts : w'.drafts i = w.drafts i
  holder : ∀ k, w'.holder k = some i ↔ w.holder k = some i
  rows : ∀ k, w.holder k = some i → w'.rows k = w.rows k

omit [DecidableEq K] in
theorem Kept.refl (i : Nat) (w : Store K V) : Kept i w w :=
  ⟨rfl, fun _ => Iff.rfl, fun _ _ => rfl⟩

omit [DecidableEq K] in
theorem Kept.trans {i : Nat} {w₁ w₂ w₃ : Store K V} (h : Kept i w₁ w₂) (h' : Kept i w₂ w₃) :
    Kept i w₁ w₃ :=
  ⟨h'.drafts.trans h.drafts, fun k => (h'.holder k).trans (h.holder k),
    fun k hk => (h'.rows k ((h.holder k).mpr hk)).trans (h.rows k hk)⟩

omit [DecidableEq K] in
theorem Store.view_of_not_held {w : Store K V} (hs : w.Sound) {i : Nat} {k : K}
    (h : w.holder k ≠ some i) : w.view i k = w.rows k := by
  have hnone : w.drafts i k = none := by
    by_contra hd
    exact h (hs.drafts i k hd)
  simp [Store.view, hnone]

omit [DecidableEq K] in
/-- A row that a transaction holds looks to it as it did. -/
theorem Kept.view {i : Nat} {w w' : Store K V} (h : Kept i w w') {k : K}
    (hk : w.holder k = some i) : w'.view i k = w.view i k := by
  simp only [Store.view, h.drafts, h.rows k hk]

omit [DecidableEq K] in
theorem Store.release_sound {w : Store K V} (hs : w.Sound) (i : Nat) : (w.release i).Sound := by
  constructor
  · intro j k hd
    simp only [Store.release] at *
    by_cases hj : j = i
    · simp [hj] at hd
    · rw [if_neg hj] at hd
      rw [hs.drafts j k hd, if_neg (by simpa using hj)]
  · intro k hk
    apply hs.held
    intro hnone
    simp [Store.release, hnone] at hk
  · exact hs.listed
  · exact hs.nodup

omit [DecidableEq K] in
theorem Store.commit_sound {w : Store K V} (hs : w.Sound) (i : Nat) : (w.commit i).Sound := by
  obtain ⟨hdrafts, hheld, -, hnodup⟩ := Store.release_sound hs i
  exact ⟨hdrafts, hheld, fun k hk => hs.mem_keys hk, hnodup⟩

omit [DecidableEq K] in
theorem Store.release_holder (w : Store K V) {i j : Nat} (hj : j ≠ i) (k : K) :
    (w.release i).holder k = some j ↔ w.holder k = some j := by
  simp only [Store.release]
  split
  · rename_i hk
    simp [hk, Ne.symm hj]
  · rfl

omit [DecidableEq K] in
theorem Store.release_kept (w : Store K V) {i j : Nat} (hj : j ≠ i) : Kept j w (w.release i) := by
  constructor
  · simp [Store.release, hj]
  · exact w.release_holder hj
  · intro k hk
    rfl

omit [DecidableEq K] in
theorem Store.commit_kept {w : Store K V} (hs : w.Sound) {i j : Nat} (hj : j ≠ i) :
    Kept j w (w.commit i) := by
  constructor
  · simp [Store.commit, Store.release, hj]
  · exact w.release_holder hj
  · intro k hk
    exact Store.view_of_not_held hs (by simp [hk, hj])

theorem Store.take_sound {w : Store K V} (hs : w.Sound) {i : Nat} {k : K} (hf : w.Free i k)
    (hk : k ∈ w.keys) : (w.take i k).Sound := by
  constructor
  · intro j l hd
    have hl := hs.drafts j l hd
    by_cases hlk : l = k
    · subst hlk
      rcases hf with hf | hf
      · simp [hf] at hl
      · rw [hf] at hl
        simpa [Store.take] using hl
    · simpa [Store.take, hlk] using hl
  · intro l hl
    by_cases hlk : l = k
    · rw [hlk]
      exact hk
    · exact hs.held l (by simpa [Store.take, hlk] using hl)
  · exact hs.listed
  · exact hs.nodup

theorem Store.take_kept {w : Store K V} {i j : Nat} (hj : j ≠ i) {k : K} (hf : w.Free i k) :
    Kept j w (w.take i k) := by
  constructor
  · rfl
  · intro l
    by_cases hl : l = k
    · subst hl
      have hother : w.holder l ≠ some j := by
        rcases hf with hf | hf
        · simp [hf]
        · simpa [hf] using Ne.symm hj
      simpa [Store.take, hother] using Ne.symm hj
    · simp [Store.take, hl]
  · intro l hl
    rfl

theorem Store.draft_sound {w : Store K V} (hs : w.Sound) {i : Nat} {k : K} (hf : w.Free i k)
    (hk : k ∈ w.keys) (v : Option V) : (w.draft i k v).Sound := by
  obtain ⟨hdrafts, hheld, hlisted, hnodup⟩ := Store.take_sound hs hf hk
  refine ⟨fun j l hd => ?_, hheld, hlisted, hnodup⟩
  by_cases hj : j = i
  · subst hj
    by_cases hl : l = k
    · simp [Store.draft, hl]
    · apply hdrafts j l
      simpa [Store.draft, Store.take, hl] using hd
  · apply hdrafts j l
    simpa [Store.draft, Store.take, hj] using hd

theorem Store.create_sound {w : Store K V} (hs : w.Sound) {i : Nat} {k : K} (hf : w.Free i k)
    (v : V) : (w.create i k v).Sound := by
  have hgrown : Store.Sound { w with keys := w.keys.insert k } :=
    ⟨hs.drafts, fun l hl => List.mem_insert_of_mem (hs.held l hl),
      fun l hl => List.mem_insert_of_mem (hs.listed l hl), List.Nodup.insert hs.nodup⟩
  exact Store.draft_sound hgrown hf List.mem_insert_self (some v)

theorem Store.draft_kept {w : Store K V} {i j : Nat} (hj : j ≠ i) {k : K} (hf : w.Free i k)
    (v : Option V) : Kept j w (w.draft i k v) := by
  have ht := Store.take_kept (w := w) hj hf
  constructor
  · simp [Store.draft, hj]
  · exact ht.holder
  · intro l hl
    rfl

/-- A statement keeps the drafts with their holders, and leaves the others their rows. -/
theorem answered_kept {i : Nat} {s : Stmt K V} {w w' : Store K V} {b : Reply s} (hs : w.Sound)
    (h : answered i s w b w') : w'.Sound ∧ ∀ j, j ≠ i → Kept j w w' := by
  cases s with
  | snapshot =>
    obtain ⟨-, rfl⟩ := h
    exact ⟨hs, fun j _ => Kept.refl j _⟩
  | scan =>
    obtain ⟨-, rfl⟩ := h
    exact ⟨hs, fun j _ => Kept.refl j _⟩
  | lock k =>
    rcases h with ⟨-, ⟨-, rfl⟩ | ⟨hv, hf, rfl⟩⟩
    · exact ⟨hs, fun j _ => Kept.refl j _⟩
    · have hk := hs.mem_keys (Option.isSome_iff_ne_none.mp hv)
      exact ⟨Store.take_sound hs hf hk, fun j hj => Store.take_kept hj hf⟩
  | write k v =>
    obtain ⟨hh, rfl⟩ := h
    have hk := hs.held k (by simp [hh])
    exact ⟨Store.draft_sound hs (.inr hh) hk v, fun j hj => Store.draft_kept hj (.inr hh) v⟩
  | insert k v =>
    rcases h with ⟨-, -, rfl⟩ | ⟨-, hf, -, rfl⟩
    · exact ⟨hs, fun j _ => Kept.refl j _⟩
    · refine ⟨Store.create_sound hs hf v, fun j hj => ?_⟩
      have hkept := Store.draft_kept hj hf (some v)
      exact ⟨hkept.drafts, hkept.holder, hkept.rows⟩
  | commit =>
    cases h
    exact ⟨Store.commit_sound hs i, fun j hj => Store.commit_kept hs hj⟩
  | rollback =>
    cases h
    exact ⟨Store.release_sound hs i, fun j hj => Store.release_kept w hj⟩

/-- Only a commit changes what is committed. -/
theorem answered_rows {i : Nat} {s : Stmt K V} {w w' : Store K V} {b : Reply s}
    (h : answered i s w b w') (hc : s ≠ .commit) : w'.rows = w.rows := by
  cases s with
  | snapshot => rw [h.2]
  | scan => rw [h.2]
  | lock k =>
    rcases h with ⟨-, ⟨-, rfl⟩ | ⟨-, -, rfl⟩⟩
    · rfl
    · rfl
  | write k v => rw [h.2]; rfl
  | insert k v =>
    rcases h with ⟨-, -, rfl⟩ | ⟨-, -, -, rfl⟩
    · rfl
    · rfl
  | commit => exact absurd rfl hc
  | rollback =>
    cases h
    rfl

/-! ## Transactions -/

section Transactions

variable {C L ε α β : Type}

/-- A query. -/
def select : Proc (Stmt K V) Reply L ε (Rows K V) :=
  (perform Stmt.snapshot : Proc (Stmt K V) Reply L ε (Reply Stmt.snapshot))

/-- A query of all rows. -/
def selectAll : Proc (Stmt K V) Reply L ε (List (K × V)) :=
  (perform Stmt.scan : Proc (Stmt K V) Reply L ε (Reply Stmt.scan))

/-- `SELECT … FOR UPDATE` by key. -/
def lockRow (k : K) : Proc (Stmt K V) Reply L ε (Option V) :=
  (perform (Stmt.lock k) : Proc (Stmt K V) Reply L ε (Reply (Stmt.lock k)))

/-- The change of a row that is locked. -/
def writeRow (k : K) (v : Option V) : Proc (Stmt K V) Reply L ε Unit :=
  (perform (Stmt.write k v) : Proc (Stmt K V) Reply L ε (Reply (Stmt.write k v)))

/-- `INSERT`: whether the key was free. -/
def insertRow (k : K) (v : V) : Proc (Stmt K V) Reply L ε Bool :=
  (perform (Stmt.insert k v) : Proc (Stmt K V) Reply L ε (Reply (Stmt.insert k v)))

/-- `UPDATE` by key: whether there was a row. -/
def updateRow (k : K) (f : V → V) : Proc (Stmt K V) Reply L ε Bool := do
  match ← lockRow k with
  | none => pure false
  | some v =>
    writeRow k (some (f v))
    pure true

/-- `DELETE` by key: whether there was a row. -/
def deleteRow (k : K) : Proc (Stmt K V) Reply L ε Bool := do
  match ← lockRow k with
  | none => pure false
  | some _ =>
    writeRow k none
    pure true

/-- The rows that were found: each is locked, and changed if it still meets the condition. -/
def changeEach (meets : V → Prop) [DecidablePred meets] (change : V → Option V) :
    List (K × V) → Proc (Stmt K V) Reply L ε Nat
  | [] => return 0
  | (k, _) :: found => do
      match ← lockRow k with
      | none => changeEach meets change found
      | some v =>
          if meets v then do
            writeRow k (change v)
            let n ← changeEach meets change found
            return n + 1
          else changeEach meets change found

/-- `UPDATE … WHERE`, or `DELETE … WHERE` where the change is to no row: how many rows it changed. -/
def changeWhere (meets : V → Prop) [DecidablePred meets] (change : V → Option V) :
    Proc (Stmt K V) Reply L ε Nat := do
  let listed ← selectAll
  changeEach meets change (listed.filter fun e => meets e.2)

/-- One unit of work: it commits, or rolls back on an exception. -/
def transaction (m : Proc (Stmt K V) Reply L ε α) : Proc (Stmt K V) Reply L ε α := fun l =>
  (m.exec l).bind fun r =>
    match r.1 with
    | .ok a => .call .commit fun _ => .ret (.ok a, r.2)
    | .error e => .call .rollback fun _ => .ret (.error e, r.2)

/-- A program that nothing else runs beside: its result, what is then committed, and what it sees
of it. It is for programs that do not query all rows. -/
def alone : Prog (Stmt K V) Reply α → Rows K V → Rows K V → α × Rows K V × Rows K V
  | .ret a, rows, view => (a, rows, view)
  | .call .snapshot next, rows, view => alone (next view) rows view
  | .call .scan next, rows, view => alone (next []) rows view
  | .call (.lock k) next, rows, view => alone (next (view k)) rows view
  | .call (.write k v) next, rows, view => alone (next ()) rows (Function.update view k v)
  | .call (.insert k v) next, rows, view =>
      if (view k).isSome then alone (next false) rows view
      else alone (next true) rows (Function.update view k (some v))
  | .call .commit next, _, view => alone (next ()) view view
  | .call .rollback next, rows, _ => alone (next ()) rows rows

theorem Store.view_take (w : Store K V) (i : Nat) (k : K) : (w.take i k).view i = w.view i := rfl

theorem Store.view_draft (w : Store K V) (i : Nat) (k : K) (v : Option V) :
    (w.draft i k v).view i = Function.update (w.view i) k v := by
  funext l
  by_cases h : l = k
  · subst h
    simp [Store.view, Store.draft]
  · simp [Store.view, Store.draft, h]

theorem Store.view_create (w : Store K V) (i : Nat) (k : K) (v : V) :
    (w.create i k v).view i = Function.update (w.view i) k (some v) :=
  Store.view_draft w i k (some v)

omit [DecidableEq K] in
theorem Store.view_release (w : Store K V) (i : Nat) : (w.release i).view i = w.rows := by
  funext k
  simp [Store.view, Store.release]

omit [DecidableEq K] in
theorem Store.view_commit (w : Store K V) (i : Nat) : (w.commit i).view i = w.view i := by
  funext k
  simp [Store.view, Store.commit, Store.release]

/-- A run with nothing beside it is what `alone` computes. -/
theorem alone_of_runsAlone {i : Nat} {c : C} {p : Prog (Stmt K V) Reply α} {w w' : Store K V}
    {a : α} (h : RunsAlone (semantics K V C) i c p w a w')
    (hp : p.Only (fun s => s ≠ .scan) fun _ => True) :
    alone p w.rows (w.view i) = (a, w'.rows, w'.view i) := by
  induction h with
  | ret a w => rfl
  | env he _ ih =>
    cases he
    exact ih hp
  | @call o k b w w₁ w₂ a hs _ ih =>
    have ih := ih (hp.2 b)
    cases o with
    | snapshot =>
      obtain ⟨rfl, rfl⟩ := hs
      exact ih
    | scan => exact absurd rfl hp.1
    | lock key =>
      obtain ⟨rfl, ⟨-, rfl⟩ | ⟨-, -, rfl⟩⟩ := hs
      · exact ih
      · exact ih
    | write key v =>
      obtain ⟨-, rfl⟩ := hs
      rw [Store.view_draft] at ih
      exact ih
    | insert key v =>
      rcases hs with ⟨hk, rfl, rfl⟩ | ⟨hk, -, rfl, rfl⟩
      · simpa only [alone, hk, if_true] using ih
      · rw [Store.view_create] at ih
        have hk' : ¬(w.view i key).isSome := by simp [hk]
        rw [alone, if_neg hk']
        exact ih
    | commit =>
      cases hs
      rw [Store.view_commit] at ih
      exact ih
    | rollback =>
      cases hs
      rw [Store.view_release] at ih
      exact ih

theorem alone_prog_bind (p : Prog (Stmt K V) Reply α) (f : α → Prog (Stmt K V) Reply β)
    (rows view : Rows K V) :
    alone (p.bind f) rows view =
      alone (f (alone p rows view).1) (alone p rows view).2.1 (alone p rows view).2.2 := by
  induction p generalizing rows view with
  | ret a => rfl
  | call o next ih =>
    cases o with
    | snapshot => exact ih _ _ _
    | scan => exact ih _ _ _
    | lock k => exact ih _ _ _
    | write k v => exact ih _ _ _
    | insert k v =>
      simp only [Prog.bind, alone]
      split
      · exact ih _ _ _
      · exact ih _ _ _
    | commit => exact ih _ _ _
    | rollback => exact ih _ _ _

/-- Sequencing: what the first part leaves is what the second starts from. -/
theorem alone_bind (m : Proc (Stmt K V) Reply L ε α) (f : α → Proc (Stmt K V) Reply L ε β) (l : L)
    (rows view : Rows K V) :
    alone (Proc.exec (m >>= f) l) rows view =
      match alone (m.exec l) rows view with
      | ((.ok a, l'), rows', view') => alone ((f a).exec l') rows' view'
      | ((.error e, l'), rows', view') => ((.error e, l'), rows', view') := by
  rw [exec_bind, alone_prog_bind]
  rcases alone (m.exec l) rows view with ⟨⟨r | a, l'⟩, rows', view'⟩
  · rfl
  · rfl

section Evaluation

variable (l : L) (rows view : Rows K V)

@[simp] theorem alone_pure (a : α) :
    alone ((pure a : Proc (Stmt K V) Reply L ε α).exec l) rows view = ((.ok a, l), rows, view) :=
  rfl

@[simp] theorem alone_throw (e : ε) :
    alone ((throw e : Proc (Stmt K V) Reply L ε α).exec l) rows view =
      ((.error e, l), rows, view) :=
  rfl

@[simp] theorem alone_select :
    alone ((select : Proc (Stmt K V) Reply L ε (Rows K V)).exec l) rows view =
      ((.ok view, l), rows, view) :=
  rfl

@[simp] theorem alone_lockRow (k : K) :
    alone ((lockRow k : Proc (Stmt K V) Reply L ε (Option V)).exec l) rows view =
      ((.ok (view k), l), rows, view) :=
  rfl

@[simp] theorem alone_insertRow (k : K) (v : V) :
    alone ((insertRow k v : Proc (Stmt K V) Reply L ε Bool).exec l) rows view =
      if (view k).isSome then ((.ok false, l), rows, view)
      else ((.ok true, l), rows, Function.update view k (some v)) := by
  simp only [insertRow, perform, Proc.exec, alone]
  rfl

@[simp] theorem alone_updateRow (k : K) (f : V → V) :
    alone ((updateRow k f : Proc (Stmt K V) Reply L ε Bool).exec l) rows view =
      match view k with
      | none => ((.ok false, l), rows, view)
      | some v => ((.ok true, l), rows, Function.update view k (some (f v))) := by
  rw [updateRow, alone_bind, alone_lockRow]
  cases view k with
  | none => rfl
  | some v => rfl

@[simp] theorem alone_transaction (m : Proc (Stmt K V) Reply L ε α) :
    alone ((transaction m).exec l) rows view =
      match alone (m.exec l) rows view with
      | ((.ok a, l'), _, view') => ((.ok a, l'), view', view')
      | ((.error e, l'), rows', _) => ((.error e, l'), rows', rows') := by
  change alone (Prog.bind _ _) _ _ = _
  rw [alone_prog_bind]
  rcases alone (m.exec l) rows view with ⟨⟨r | a, l'⟩, rows', view'⟩
  · rfl
  · rfl

end Evaluation

/-- A store that answers by a function. -/
def respond (i : Nat) : (s : Stmt K V) → Store K V → Option (Reply s × Store K V)
  | .snapshot, w => some (w.view i, w)
  | .scan, w => some (w.listing i, w)
  | .lock k, w =>
      if (w.view i k).isSome then
        if w.Free i k then some (w.view i k, w.take i k) else none
      else some (w.view i k, w)
  | .write k v, w => if w.holder k = some i then some ((), w.draft i k v) else none
  | .insert k v, w =>
      if (w.view i k).isSome then some (false, w)
      else if w.Free i k then some (true, w.create i k v) else none
  | .commit, w => some ((), w.commit i)
  | .rollback, w => some ((), w.release i)

theorem respond_answers {i : Nat} {s : Stmt K V} {w w' : Store K V} {b : Reply s}
    (h : respond i s w = some (b, w')) : answered i s w b w' := by
  cases s with
  | snapshot =>
    cases h
    exact ⟨rfl, rfl⟩
  | scan =>
    cases h
    exact ⟨rfl, rfl⟩
  | lock k =>
    simp only [respond] at h
    split at h
    · rename_i hk
      split at h
      · rename_i hf
        cases h
        exact ⟨rfl, .inr ⟨hk, hf, rfl⟩⟩
      · cases h
    · rename_i hk
      cases h
      exact ⟨rfl, .inl ⟨by simpa using hk, rfl⟩⟩
  | write k v =>
    simp only [respond] at h
    split at h
    · rename_i hk
      cases h
      exact ⟨hk, rfl⟩
    · cases h
  | insert k v =>
    simp only [respond] at h
    split at h
    · rename_i hk
      cases h
      exact .inl ⟨hk, rfl, rfl⟩
    · rename_i hk
      split at h
      · rename_i hf
        cases h
        exact .inr ⟨by simpa using hk, hf, rfl, rfl⟩
      · cases h
  | commit =>
    cases h
    rfl
  | rollback =>
    cases h
    rfl

/-- A schedule of transactions is replayed with no choice of answers. -/
def responder : Responder (semantics K V C) Unit where
  respond _ i _ o w := respond i o w
  responds h := respond_answers h

end Transactions

/-! ## Invariants of the committed rows -/

/-- The rows meet `I` after every commit, if every commit is of rows that meet it. -/
def contract (C : Type) (I : Rows K V → Prop) : Contract (semantics K V C) where
  inv w := w.Sound ∧ I w.rows
  rely := Kept
  guard i _ s w := s = .commit → I (w.view i)
  rely_refl := Kept.refl
  rely_trans := Kept.trans
  env_ok := by
    rintro w w' hi rfl
    exact ⟨hi, fun i => Kept.refl i _⟩
  died_ok := by
    rintro i w ⟨hs, hi⟩
    exact ⟨⟨Store.release_sound hs i, hi⟩, fun j hj => Store.release_kept w hj⟩
  step_ok := by
    rintro i c o w b w' ⟨hs, hi⟩ hg h
    change answered i o w b w' at h
    obtain ⟨hs', hk⟩ := answered_kept hs h
    refine ⟨⟨hs', ?_⟩, hk⟩
    by_cases ho : o = .commit
    · subst ho
      cases h
      exact hg rfl
    · rw [answered_rows h ho]
      exact hi

end Stores

end Coinpilot.Lib.ReadCommitted
