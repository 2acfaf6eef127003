import Coinpilot.Lib.RowLocks

/-!
# What commits may do

A law of commits says what holds of the committed rows and of the commits so far, and how these may go on
(`CommitLaw`). Its contract asks each commit to respect the law,
where a condition on the runs allows the commit (`CommitLaw.rules`). A transaction relies on the law, and on
the others: while it holds a row, none of them has a change of it (`Meanwhile`). A statement that finds its rows
by a condition deals with each that it found (`CommitLaw.wp_changeWhere`).
-/

set_option autoImplicit false

namespace Coinpilot.Lib.ReadCommitted

open Coinpilot.Lib.Program

variable {K V C L ε α : Type}

/-- One answered statement. -/
abbrev Answered (K V C : Type) : Type := Event (Stmt K V) Reply C (Store K V)

/-- The store and every statement that was answered. -/
abbrev StoreHistory (K V C : Type) : Type := Recorded (Stmt K V) Reply C (Store K V)

def Stmt.isCommit : Stmt K V → Bool
  | .commit => true
  | _ => false

/-- The commits, newest first. -/
def commits (past : List (Answered K V C)) : List (Answered K V C) := past.filter fun e => e.op.isCommit

theorem mem_commits {past : List (Answered K V C)} {e : Answered K V C} :
    e ∈ commits past ↔ e ∈ past ∧ e.op = .commit := by
  rw [commits, List.mem_filter]
  refine and_congr_right fun _ => ?_
  cases e.op <;> simp [Stmt.isCommit]

theorem commits_cons_other {past : List (Answered K V C)} {e : Answered K V C} (h : e.op ≠ .commit) :
    commits (e :: past) = commits past := by
  rw [commits, List.filter_cons_of_neg]
  · rfl
  · cases hop : e.op <;> simp_all [Stmt.isCommit]

/-- The committed rows, and the commits so far. -/
structure Committed (K V C : Type) where
  rows : Rows K V
  commits : List (Answered K V C)

def committed (r : StoreHistory K V C) : Committed K V C := ⟨r.now.rows, commits r.past⟩

/-- The event of a commit. -/
def commitOf (i : Nat) (c : C) (w : Store K V) : Answered K V C := ⟨i, c, .commit, (), w, w.commit i⟩

/-- What is committed after a commit of transaction `i`. -/
def committing (i : Nat) (c : C) (r : StoreHistory K V C) : Committed K V C :=
  ⟨r.now.view i, commitOf i c r.now :: commits r.past⟩

@[simp] theorem committed_rows (r : StoreHistory K V C) : (committed r).rows = r.now.rows := rfl

@[simp] theorem committed_commits (r : StoreHistory K V C) : (committed r).commits = commits r.past := rfl

@[simp] theorem committing_rows (i : Nat) (c : C) (r : StoreHistory K V C) :
    (committing i c r).rows = r.now.view i := rfl

@[simp] theorem committing_commits (i : Nat) (c : C) (r : StoreHistory K V C) :
    (committing i c r).commits = commitOf i c r.now :: commits r.past := rfl

theorem commits_commitOf (i : Nat) (c : C) (w : Store K V) (past : List (Answered K V C)) :
    commits (commitOf i c w :: past) = commitOf i c w :: commits past := rfl

/-- What the others leave transaction `i`: its drafts and the rows that it holds, of which none of them had
a change. -/
structure Meanwhile (i : Nat) (r r' : StoreHistory K V C) : Prop where
  kept : Kept i r.now r'.now
  past : ∃ es, r'.past = es ++ r.past ∧ ∀ e ∈ es, e.who ≠ i ∧
    ∀ k, r.now.holder k = some i → e.before.drafts e.who k = none

theorem Meanwhile.refl (i : Nat) (r : StoreHistory K V C) : Meanwhile i r r :=
  ⟨Kept.refl i r.now, [], rfl, by simp⟩

theorem Meanwhile.trans {i : Nat} {r₁ r₂ r₃ : StoreHistory K V C} (h : Meanwhile i r₁ r₂)
    (h' : Meanwhile i r₂ r₃) : Meanwhile i r₁ r₃ := by
  obtain ⟨hkept, es, hpast, hes⟩ := h
  obtain ⟨hkept', es', hpast', hes'⟩ := h'
  refine ⟨hkept.trans hkept', es' ++ es, by rw [hpast', hpast, List.append_assoc], fun e he => ?_⟩
  rcases List.mem_append.mp he with he | he
  · obtain ⟨hwho, hnone⟩ := hes' e he
    exact ⟨hwho, fun k hk => hnone k ((hkept.holder k).mpr hk)⟩
  · exact hes e he

theorem Meanwhile.suffix {i : Nat} {r r' : StoreHistory K V C} (h : Meanwhile i r r') : r.past <:+ r'.past := by
  obtain ⟨-, es, hpast, -⟩ := h
  exact ⟨es, hpast.symm⟩

/-- What was done stays done. -/
theorem Meanwhile.mem_past {i : Nat} {r r' : StoreHistory K V C} (h : Meanwhile i r r') {e : Answered K V C}
    (he : e ∈ r.past) : e ∈ r'.past :=
  h.suffix.mem he

/-- A later event is of another transaction, without a change of the rows that are held. -/
theorem Meanwhile.of_mem {i : Nat} {r r' : StoreHistory K V C} (h : Meanwhile i r r') {e : Answered K V C}
    (he : e ∈ r'.past) : e ∈ r.past ∨
      e.who ≠ i ∧ ∀ k, r.now.holder k = some i → e.before.drafts e.who k = none := by
  obtain ⟨-, es, hpast, hes⟩ := h
  rw [hpast] at he
  rcases List.mem_append.mp he with he | he
  · exact .inr (hes e he)
  · exact .inl he

/-! ## Rows that were seen -/

/-- The row of a key before a commit of transaction `i`, and what it makes of it. -/
def Store.shown (w : Store K V) (i : Nat) (k : K) : List V := (w.rows k).toList ++ (w.drafts i k).join.toList

/-- The commit finds or leaves a row of which `p` holds. -/
def Shows (p : K → V → Prop) (e : Answered K V C) : Prop :=
  ∃ k ∈ e.before.keys, ∃ v ∈ e.before.shown e.who k, p k v

instance (p : K → V → Prop) [∀ k v, Decidable (p k v)] (e : Answered K V C) : Decidable (Shows p e) :=
  inferInstanceAs (Decidable (∃ k ∈ e.before.keys, ∃ v ∈ e.before.shown e.who k, p k v))

/-- A row of which `p` holds is committed, or was at one of the commits. -/
def Seen (p : K → V → Prop) (a : Committed K V C) : Prop :=
  (∃ k v, a.rows k = some v ∧ p k v) ∨ ∃ e ∈ a.commits, Shows p e

section Seen

variable {p : K → V → Prop} {e : Answered K V C} {i : Nat} {c : C} {r : StoreHistory K V C} {k : K} {v : V}

theorem shows_of_row (hs : e.before.Sound) (hrow : e.before.rows k = some v) (hp : p k v) : Shows p e := by
  refine ⟨k, hs.listed k (by simp [hrow]), v, ?_, hp⟩
  simp [Store.shown, hrow]

theorem shows_of_draft (hs : e.before.Sound) (hdraft : e.before.drafts e.who k = some (some v)) (hp : p k v) :
    Shows p e := by
  have hheld := hs.drafts e.who k (by simp [hdraft])
  refine ⟨k, hs.held k (by simp [hheld]), v, ?_, hp⟩
  simp [Store.shown, hdraft]

/-- What was seen before a commit was seen after it. -/
theorem Seen.committing (h : Seen p (committed r)) (hs : r.now.Sound) : Seen p (committing i c r) := by
  rcases h with ⟨k, v, hrow, hp⟩ | ⟨e, he, hshows⟩
  · exact .inr ⟨commitOf i c r.now, List.mem_cons_self, shows_of_row hs hrow hp⟩
  · exact .inr ⟨e, List.mem_cons_of_mem _ he, hshows⟩

end Seen

/-! ## Laws -/

/-- What holds of the committed rows and the commits, and how they may go on. -/
structure CommitLaw (K V C : Type) where
  ok : Rows K V → List (Answered K V C) → Prop
  onward : Committed K V C → Committed K V C → Prop
  refl : ∀ a, onward a a
  trans : ∀ {a b c}, onward a b → onward b c → onward a c

variable [DecidableEq K]

section Laws

variable (law : CommitLaw K V C) (allowed : Nat → C → Stmt K V → StoreHistory K V C → Prop)

/-- A commit respects the law: it goes on from the committed rows, and what it leaves is as it must be. -/
def CommitLaw.Respects (i : Nat) (c : C) (r : StoreHistory K V C) : Prop :=
  law.onward (committed r) (committing i c r) ∧ law.ok (r.now.view i) (commitOf i c r.now :: commits r.past)

/-- Each commit that the condition allows respects the law. -/
def CommitLaw.rules : Contract ((semantics K V C).recorded.given allowed) where
  inv r := r.now.Sound ∧ law.ok r.now.rows (commits r.past)
  rely i r r' := Meanwhile i r r' ∧ law.onward (committed r) (committed r')
  guard i c s r := s = .commit → allowed i c s r → law.Respects i c r
  rely_refl i r := ⟨Meanwhile.refl i r, law.refl _⟩
  rely_trans h h' := ⟨h.1.trans h'.1, law.trans h.2 h'.2⟩
  env_ok := by
    rintro r r' hi ⟨he, hp⟩
    have hnow : r'.now = r.now := he
    refine ⟨by rw [hnow, hp]; exact hi, fun i => ⟨⟨?_, [], by simp [hp], by simp⟩, ?_⟩⟩
    · rw [hnow]
      exact Kept.refl i r.now
    · rw [committed, committed, hnow, hp]
      exact law.refl _
  died_ok := by
    rintro i r ⟨hs, hok⟩
    refine ⟨⟨Store.release_sound hs i, hok⟩, fun j hj => ⟨⟨?_, [], rfl, by simp⟩, law.refl _⟩⟩
    exact Store.release_kept r.now hj
  step_ok := by
    rintro i c s r b r' ⟨hs, hok⟩ hg ⟨ha, hstep, hpast⟩
    have hanswered : answered i s r.now b r'.now := hstep
    obtain ⟨hs', hkept⟩ := answered_kept hs hanswered
    have hmeanwhile : ∀ j, j ≠ i → Meanwhile j r r' := by
      refine fun j hj => ⟨hkept j hj, [_], hpast, fun e he => ?_⟩
      obtain rfl := List.mem_singleton.mp he
      refine ⟨Ne.symm hj, fun k hk => ?_⟩
      by_contra hdraft
      have hholder := hs.drafts i k hdraft
      rw [hk] at hholder
      exact hj (Option.some.inj hholder)
    by_cases hcommit : s = .commit
    · subst hcommit
      obtain ⟨honward, hok'⟩ := hg rfl ha
      have hnow : r'.now = r.now.commit i := hanswered
      have hrows : r'.now.rows = r.now.view i := by
        rw [hnow]
        rfl
      have hcommitted : committed r' = committing i c r := by
        rw [committed, hpast, hrows, hnow]
        rfl
      rw [hpast, hrows]
      refine ⟨⟨hs', ?_⟩, fun j hj => ⟨hmeanwhile j hj, hcommitted ▸ honward⟩⟩
      rw [hnow]
      exact hok'
    · have hrows := answered_rows hanswered hcommit
      refine ⟨⟨hs', ?_⟩, fun j hj => ⟨hmeanwhile j hj, ?_⟩⟩
      · rw [hpast, hrows, commits_cons_other hcommit]
        exact hok
      · rw [committed, committed, hpast, hrows, commits_cons_other hcommit]
        exact law.refl _

variable {law allowed}

theorem CommitLaw.guard_of_ne {i : Nat} {c : C} {s : Stmt K V} {r : StoreHistory K V C} (h : s ≠ .commit) :
    (law.rules allowed).guard i c s r := fun hc => absurd hc h

end Laws

/-! ## Statements -/

section Statements

variable {law : CommitLaw K V C} {allowed : Nat → C → Stmt K V → StoreHistory K V C → Prop} {i : Nat} {c : C}
  {l : L} {r : StoreHistory K V C}

/-- Where a thread that relies on a law may be left: the others have gone on from `r` to `r₁`. -/
abbrev CommitLaw.Left (law : CommitLaw K V C) (allowed : Nat → C → Stmt K V → StoreHistory K V C → Prop) (i : Nat)
    (r r₁ : StoreHistory K V C) : Prop :=
  (law.rules allowed).rely i r r₁ ∧ (law.rules allowed).inv r₁

theorem CommitLaw.wp_select {Q : Except ε (Rows K V) → L → StoreHistory K V C → Prop}
    (h : ∀ r₁, law.Left allowed i r r₁ → ∀ r₂ : StoreHistory K V C, r₂.now = r₁.now →
      r₂.past = ⟨i, c, .snapshot, r₁.now.view i, r₁.now, r₁.now⟩ :: r₁.past →
        Q (.ok (r₁.now.view i)) l r₂) :
    (select : Proc (Stmt K V) Reply L ε (Rows K V)).Wp (law.rules allowed) i c Q l r := by
  intro r₁ hr hi
  refine ⟨CommitLaw.guard_of_ne (by rintro ⟨⟩), ?_⟩
  rintro b r₂ ⟨-, ⟨rfl, hnow⟩, hpast⟩ _
  rw [hnow] at hpast
  exact h r₁ ⟨hr, hi⟩ r₂ hnow hpast

theorem CommitLaw.wp_selectAll {Q : Except ε (List (K × V)) → L → StoreHistory K V C → Prop}
    (h : ∀ r₁, law.Left allowed i r r₁ → ∀ r₂ : StoreHistory K V C, r₂.now = r₁.now →
      r₂.past = ⟨i, c, .scan, r₁.now.listing i, r₁.now, r₁.now⟩ :: r₁.past →
        Q (.ok (r₁.now.listing i)) l r₂) :
    (selectAll : Proc (Stmt K V) Reply L ε (List (K × V))).Wp (law.rules allowed) i c Q l r := by
  intro r₁ hr hi
  refine ⟨CommitLaw.guard_of_ne (by rintro ⟨⟩), ?_⟩
  rintro b r₂ ⟨-, ⟨rfl, hnow⟩, hpast⟩ _
  rw [hnow] at hpast
  exact h r₁ ⟨hr, hi⟩ r₂ hnow hpast

theorem CommitLaw.wp_lockRow {k : K} {Q : Except ε (Option V) → L → StoreHistory K V C → Prop}
    (h : ∀ r₁, law.Left allowed i r r₁ → allowed i c (.lock k) r₁ → ∀ r₂ : StoreHistory K V C,
      r₂.past = ⟨i, c, .lock k, r₁.now.view i k, r₁.now, r₂.now⟩ :: r₁.past →
        (r₁.now.view i k = none → r₂.now = r₁.now → Q (.ok none) l r₂) ∧
        ∀ v, r₁.now.view i k = some v → r₂.now = r₁.now.take i k → Q (.ok (some v)) l r₂) :
    (lockRow k : Proc (Stmt K V) Reply L ε (Option V)).Wp (law.rules allowed) i c Q l r := by
  intro r₁ hr hi
  refine ⟨CommitLaw.guard_of_ne (by rintro ⟨⟩), ?_⟩
  rintro b r₂ ⟨ha, ⟨rfl, hlock⟩, hpast⟩ _
  obtain ⟨hnone, hsome⟩ := h r₁ ⟨hr, hi⟩ ha r₂ hpast
  rcases hlock with ⟨hk, hnow⟩ | ⟨hk, -, hnow⟩
  · rw [hk]
    exact hnone hk hnow
  · obtain ⟨v, hv⟩ := Option.isSome_iff_exists.mp hk
    rw [hv]
    exact hsome v hv hnow

theorem CommitLaw.wp_writeRow {k : K} {v : Option V} {Q : Except ε Unit → L → StoreHistory K V C → Prop}
    (h : ∀ r₁, law.Left allowed i r r₁ → allowed i c (.write k v) r₁ → ∀ r₂ : StoreHistory K V C,
      r₂.now = r₁.now.draft i k v → r₂.past = ⟨i, c, .write k v, (), r₁.now, r₂.now⟩ :: r₁.past →
        Q (.ok ()) l r₂) :
    (writeRow k v : Proc (Stmt K V) Reply L ε Unit).Wp (law.rules allowed) i c Q l r := by
  intro r₁ hr hi
  refine ⟨CommitLaw.guard_of_ne (by rintro ⟨⟩), ?_⟩
  rintro b r₂ ⟨ha, ⟨-, hnow⟩, hpast⟩ _
  exact h r₁ ⟨hr, hi⟩ ha r₂ hnow hpast

theorem CommitLaw.wp_insertRow {k : K} {v : V} {Q : Except ε Bool → L → StoreHistory K V C → Prop}
    (h : ∀ r₁, law.Left allowed i r r₁ → ∀ r₂ : StoreHistory K V C,
      (r₂.now = r₁.now → Q (.ok false) l r₂) ∧
        (r₁.now.view i k = none → r₂.now = r₁.now.create i k v → r₂.past =
          ⟨i, c, .insert k v, true, r₁.now, r₂.now⟩ :: r₁.past → Q (.ok true) l r₂)) :
    (insertRow k v : Proc (Stmt K V) Reply L ε Bool).Wp (law.rules allowed) i c Q l r := by
  intro r₁ hr hi
  refine ⟨CommitLaw.guard_of_ne (by rintro ⟨⟩), ?_⟩
  rintro b r₂ ⟨-, hinsert, hpast⟩ _
  obtain ⟨hfalse, htrue⟩ := h r₁ ⟨hr, hi⟩ r₂
  rcases hinsert with ⟨-, rfl, hnow⟩ | ⟨hk, -, rfl, hnow⟩
  · exact hfalse hnow
  · exact htrue hk hnow hpast

/-- A unit of work: where it commits, it respects the law. -/
theorem CommitLaw.wp_transaction {m : Proc (Stmt K V) Reply L ε α}
    {Q : Except ε α → L → StoreHistory K V C → Prop}
    (h : m.Wp (law.rules allowed) i c (fun a l r => ∀ r₁, law.Left allowed i r r₁ → match a with
      | .ok a => allowed i c .commit r₁ → law.Respects i c r₁ ∧
          ∀ r₂ : StoreHistory K V C, r₂.now = r₁.now.commit i → r₂.past = commitOf i c r₁.now :: r₁.past →
            Q (.ok a) l r₂
      | .error e => ∀ r₂ : StoreHistory K V C, r₂.now = r₁.now.release i → Q (.error e) l r₂) l r) :
    (transaction m).Wp (law.rules allowed) i c Q l r := by
  refine prog_wp_bind (Program.wp_mono h ?_)
  rintro ⟨e | a, l'⟩ r' hr' r₁ hr hi
  · refine ⟨CommitLaw.guard_of_ne (by rintro ⟨⟩), ?_⟩
    rintro b r₂ ⟨-, hnow, -⟩ _
    exact hr' r₁ ⟨hr, hi⟩ r₂ hnow
  · refine ⟨fun _ ha => (hr' r₁ ⟨hr, hi⟩ ha).1, ?_⟩
    rintro b r₂ ⟨ha, hnow, hpast⟩ _
    have hnow' : r₂.now = r₁.now.commit i := hnow
    rw [hnow'] at hpast
    exact (hr' r₁ ⟨hr, hi⟩ ha).2 r₂ hnow' hpast

/-- What was answered before a program runs stays answered. -/
theorem CommitLaw.wp_past {p : Prog (Stmt K V) Reply α} {Q : α → StoreHistory K V C → Prop}
    (h : p.Wp (law.rules allowed) i c Q r) :
    p.Wp (law.rules allowed) i c (fun a r' => Q a r' ∧ r.past <:+ r'.past) r := by
  induction p generalizing r with
  | ret a => exact ⟨h, List.suffix_refl _⟩
  | call o k ih =>
    intro r₁ hr hi
    obtain ⟨hg, hk⟩ := h r₁ hr hi
    refine ⟨hg, fun b r₂ hs hi₂ => Program.wp_mono (ih b (hk b r₂ hs hi₂)) ?_⟩
    rintro a r₃ ⟨hQ, hpast⟩
    refine ⟨hQ, hr.1.suffix.trans (List.IsSuffix.trans ?_ hpast)⟩
    rw [show r₂.past = _ from hs.2.2]
    exact List.suffix_cons _ _

/-- What is committed goes on while a program runs. -/
theorem CommitLaw.wp_onward {p : Prog (Stmt K V) Reply α} {Q : α → StoreHistory K V C → Prop}
    (h : p.Wp (law.rules allowed) i c Q r) :
    p.Wp (law.rules allowed) i c (fun a r' => Q a r' ∧ law.onward (committed r) (committed r')) r := by
  induction p generalizing r with
  | ret a => exact ⟨h, law.refl _⟩
  | call o k ih =>
    intro r₁ hr hi
    obtain ⟨hg, hk⟩ := h r₁ hr hi
    refine ⟨hg, fun b r₂ hs hi₂ => Program.wp_mono (ih b (hk b r₂ hs hi₂)) ?_⟩
    rintro a r₃ ⟨hQ, honward⟩
    refine ⟨hQ, law.trans hr.2 (law.trans ?_ honward)⟩
    have hanswered : answered i o r₁.now b r₂.now := hs.2.1
    have hpast : r₂.past = ⟨i, c, o, b, r₁.now, r₂.now⟩ :: r₁.past := hs.2.2
    by_cases hcommit : o = .commit
    · subst hcommit
      have hnow : r₂.now = r₁.now.commit i := hanswered
      have hcommitted : committed r₂ = committing i c r₁ := by
        rw [committed, hpast, hnow]
        rfl
      rw [hcommitted]
      exact (hg rfl hs.1).1
    · rw [committed, committed, hpast, commits_cons_other hcommit, answered_rows hanswered hcommit]
      exact law.refl _

end Statements

/-! ## Statements with a condition -/

/-- A statement of transaction `i` that changes nothing, and locks a row at most. -/
structure Looks (i : Nat) (r r' : StoreHistory K V C) : Prop where
  drafts : r'.now.drafts = r.now.drafts
  rows : r'.now.rows = r.now.rows
  holder : ∀ k, r.now.holder k = some i → r'.now.holder k = some i
  past : ∃ e, r'.past = e :: r.past ∧ e.op ≠ .commit ∧ e.before = r.now

/-- Transaction `i` changes a row that it holds, or adds one. -/
structure Changes (i : Nat) (k : K) (v : Option V) (r r' : StoreHistory K V C) : Prop where
  drafts : r'.now.drafts i = Function.update (r.now.drafts i) k (some v)
  rows : r'.now.rows = r.now.rows
  holder : ∀ l, r'.now.holder l = some i ↔ l = k ∨ r.now.holder l = some i
  past : ∃ e, r'.past = e :: r.past ∧ e.op ≠ .commit ∧ e.before = r.now

section Steps

variable {i : Nat} {k : K} {v : Option V} {r r' : StoreHistory K V C} {e : Answered K V C}

omit [DecidableEq K] in
theorem Looks.same (hnow : r'.now = r.now) (hpast : r'.past = e :: r.past) (hop : e.op ≠ .commit)
    (hbefore : e.before = r.now) : Looks i r r' :=
  ⟨by rw [hnow], by rw [hnow], fun _ h => by rwa [hnow], e, hpast, hop, hbefore⟩

theorem Looks.take (hnow : r'.now = r.now.take i k) (hpast : r'.past = e :: r.past) (hop : e.op ≠ .commit)
    (hbefore : e.before = r.now) : Looks i r r' := by
  refine ⟨by rw [hnow]; rfl, by rw [hnow]; rfl, fun l hl => ?_, e, hpast, hop, hbefore⟩
  rw [hnow]
  by_cases h : l = k
  · subst h
    exact Function.update_self l (some i) r.now.holder
  · exact (Function.update_of_ne h (some i) r.now.holder).trans hl

theorem Changes.of_draft (hnow : r'.now = r.now.draft i k v) (hpast : r'.past = e :: r.past)
    (hop : e.op ≠ .commit) (hbefore : e.before = r.now) : Changes i k v r r' := by
  refine ⟨?_, by rw [hnow]; rfl, fun l => ?_, e, hpast, hop, hbefore⟩
  · rw [hnow]
    exact Function.update_self i _ r.now.drafts
  · rw [hnow]
    by_cases h : l = k
    · simp [Store.draft, h]
    · simp [Store.draft, h]

theorem Changes.of_create {new : V} (hnow : r'.now = r.now.create i k new) (hpast : r'.past = e :: r.past)
    (hop : e.op ≠ .commit) (hbefore : e.before = r.now) : Changes i k (some new) r r' := by
  refine ⟨?_, by rw [hnow]; rfl, fun l => ?_, e, hpast, hop, hbefore⟩
  · rw [hnow]
    exact Function.update_self i _ r.now.drafts
  · rw [hnow]
    by_cases h : l = k
    · simp [Store.create, Store.draft, h]
    · simp [Store.create, Store.draft, h]

omit [DecidableEq K] in
theorem Looks.view (h : Looks i r r') : r'.now.view i = r.now.view i := by
  funext k
  rw [Store.view, Store.view, h.drafts, h.rows]

theorem Changes.view (h : Changes i k v r r') : r'.now.view i = Function.update (r.now.view i) k v := by
  funext l
  rw [Store.view, h.drafts, h.rows]
  by_cases hl : l = k
  · subst hl
    simp
  · simp [hl, Store.view]

omit [DecidableEq K] in
theorem Looks.holds {l : K} {u : Option V} (h : Looks i r r') (hh : r.now.Holds i l u) :
    r'.now.Holds i l u :=
  ⟨h.holder l hh.holder, (congrFun h.view l).trans hh.view⟩

theorem Changes.holds_self (h : Changes i k v r r') : r'.now.Holds i k v :=
  ⟨(h.holder k).mpr (.inl rfl), by rw [h.view, Function.update_self]⟩

theorem Changes.holds_other {l : K} {u : Option V} (h : Changes i k v r r') (hl : l ≠ k)
    (hh : r.now.Holds i l u) : r'.now.Holds i l u :=
  ⟨(h.holder l).mpr (.inr hh.holder), by rw [h.view, Function.update_of_ne hl, hh.view]⟩

omit [DecidableEq K] in
/-- What is committed stays as it is while there is no commit. -/
theorem committed_of_past (hrows : r'.now.rows = r.now.rows)
    (hpast : ∃ e, r'.past = e :: r.past ∧ e.op ≠ .commit ∧ e.before = r.now) : committed r' = committed r := by
  obtain ⟨e, hpast, hop, -⟩ := hpast
  rw [committed, committed, hrows, hpast, commits_cons_other hop]

omit [DecidableEq K] in
theorem Looks.committed (h : Looks i r r') : committed r' = committed r := committed_of_past h.rows h.past

theorem Changes.committed (h : Changes i k v r r') : committed r' = committed r :=
  committed_of_past h.rows h.past

end Steps

section Conditions

variable {law : CommitLaw K V C} {allowed : Nat → C → Stmt K V → StoreHistory K V C → Prop} {i : Nat} {c : C}
  {l : L} {meets : V → Prop} [DecidablePred meets] {change : V → Option V}

/-- What a transaction may keep true of itself while a statement with a condition changes rows. -/
structure CommitLaw.Keeping (law : CommitLaw K V C)
    (allowed : Nat → C → Stmt K V → StoreHistory K V C → Prop) (i : Nat) (c : C) (meets : V → Prop)
    (change : V → Option V) (J : StoreHistory K V C → Prop) : Prop where
  left : ∀ {r r'}, J r → law.Left allowed i r r' → J r'
  looks : ∀ {r r'}, J r → Looks i r r' → J r'
  changes : ∀ {r r' k v}, J r → (law.rules allowed).inv r → allowed i c (.write k (change v)) r →
    r.now.Holds i k (some v) → meets v → Changes i k (change v) r r' → J r'

/-- What has become of a row that met the condition: it is held, and does not meet the condition any more or
is changed, or it was gone. -/
def CommitLaw.Dealt (law : CommitLaw K V C) (i : Nat) (meets : V → Prop) (change : V → Option V)
    (J : StoreHistory K V C → Prop) (k : K) (r r' : StoreHistory K V C) : Prop :=
  (∃ v, r'.now.Holds i k (some v) ∧ ¬meets v) ∨ (∃ v, r'.now.Holds i k (change v) ∧ meets v) ∨
    ∃ r₁, J r₁ ∧ law.onward (committed r) (committed r₁) ∧ r₁.now.view i k = none ∧
      law.onward (committed r₁) (committed r')

variable {J : StoreHistory K V C → Prop} {k : K} {r r₁ r₂ r' : StoreHistory K V C}

omit [DecidablePred meets] in
theorem CommitLaw.Dealt.left (h : law.Dealt i meets change J k r r₁) (hleft : law.Left allowed i r₁ r₂) :
    law.Dealt i meets change J k r r₂ := by
  rcases h with ⟨v, hholds, hmeets⟩ | ⟨v, hholds, hmeets⟩ | ⟨r₀, hJ, h₀, hgone, h₁⟩
  · exact .inl ⟨v, hleft.1.1.kept.holds hholds, hmeets⟩
  · exact .inr (.inl ⟨v, hleft.1.1.kept.holds hholds, hmeets⟩)
  · exact .inr (.inr ⟨r₀, hJ, h₀, hgone, law.trans h₁ hleft.1.2⟩)

omit [DecidablePred meets] [DecidableEq K] in
theorem CommitLaw.Dealt.looks (h : law.Dealt i meets change J k r r₁) (hlooks : Looks i r₁ r₂) :
    law.Dealt i meets change J k r r₂ := by
  rcases h with ⟨v, hholds, hmeets⟩ | ⟨v, hholds, hmeets⟩ | ⟨r₀, hJ, h₀, hgone, h₁⟩
  · exact .inl ⟨v, hlooks.holds hholds, hmeets⟩
  · exact .inr (.inl ⟨v, hlooks.holds hholds, hmeets⟩)
  · exact .inr (.inr ⟨r₀, hJ, h₀, hgone, hlooks.committed ▸ h₁⟩)

omit [DecidablePred meets] in
theorem CommitLaw.Dealt.changes {other : K} {v : Option V} (h : law.Dealt i meets change J k r r₁)
    (hchanges : Changes i other v r₁ r₂) (hother : k ≠ other) : law.Dealt i meets change J k r r₂ := by
  rcases h with ⟨v, hholds, hmeets⟩ | ⟨v, hholds, hmeets⟩ | ⟨r₀, hJ, h₀, hgone, h₁⟩
  · exact .inl ⟨v, hchanges.holds_other hother hholds, hmeets⟩
  · exact .inr (.inl ⟨v, hchanges.holds_other hother hholds, hmeets⟩)
  · exact .inr (.inr ⟨r₀, hJ, h₀, hgone, hchanges.committed ▸ h₁⟩)

/-- Each row that was found is dealt with. -/
theorem CommitLaw.wp_changeEach (hkeeps : law.Keeping allowed i c meets change J) {found : List (K × V)}
    {done : List K} (hnodup : (done ++ found.map Prod.fst).Nodup) (hJ : J r₁)
    (honward : law.onward (committed r) (committed r₁))
    (hdone : ∀ k ∈ done, law.Dealt i meets change J k r r₁) :
    (changeEach meets change found : Proc (Stmt K V) Reply L ε Nat).Wp (law.rules allowed) i c
      (fun res _ r' => (∃ n, res = .ok n) ∧ J r' ∧ law.onward (committed r) (committed r') ∧
        ∀ k ∈ done ++ found.map Prod.fst, law.Dealt i meets change J k r r') l r₁ := by
  induction found generalizing done r₁ l with
  | nil => exact wp_pure ⟨⟨0, rfl⟩, hJ, honward, by simpa using hdone⟩
  | cons e found ih =>
    obtain ⟨k, v₀⟩ := e
    have hsame : (done ++ [k]) ++ found.map Prod.fst = done ++ ((k, v₀) :: found).map Prod.fst := by simp
    have hnotin : ∀ l ∈ done, l ≠ k := by
      rintro l hl rfl
      exact List.disjoint_of_nodup_append hnodup hl (by simp)
    rw [← hsame] at hnodup ⊢
    -- the rest of the rows, where this one is dealt with
    have hrest : ∀ {l : L} {r₃ : StoreHistory K V C}, J r₃ → law.onward (committed r) (committed r₃) →
        (∀ l ∈ done, law.Dealt i meets change J l r r₃) → law.Dealt i meets change J k r r₃ →
        (changeEach meets change found : Proc (Stmt K V) Reply L ε Nat).Wp (law.rules allowed) i c
          (fun res _ r' => (∃ n, res = .ok n) ∧ J r' ∧ law.onward (committed r) (committed r') ∧
            ∀ l ∈ (done ++ [k]) ++ found.map Prod.fst, law.Dealt i meets change J l r r') l r₃ := by
      intro l r₃ hJ₃ honward₃ hdone₃ hk
      refine ih hnodup hJ₃ honward₃ fun l hl => ?_
      rcases List.mem_append.mp hl with hl | hl
      · exact hdone₃ l hl
      · rw [List.mem_singleton.mp hl]
        exact hk
    refine wp_bind (CommitLaw.wp_lockRow fun r₂ hleft _ r₃ hpast => ⟨fun hnone hnow => ?_, fun v hv hnow => ?_⟩)
    · have hlooks : Looks i r₂ r₃ := .same hnow hpast (by rintro ⟨⟩) rfl
      have hJ₂ := hkeeps.left hJ hleft
      have honward₂ := law.trans honward hleft.1.2
      have honward₃ := hlooks.committed ▸ honward₂
      refine hrest (hkeeps.looks hJ₂ hlooks) honward₃ (fun l hl => ((hdone l hl).left hleft).looks hlooks) ?_
      exact .inr (.inr ⟨r₂, hJ₂, honward₂, hnone, hlooks.committed ▸ law.refl _⟩)
    · have hlooks : Looks i r₂ r₃ := .take hnow hpast (by rintro ⟨⟩) rfl
      have hJ₃ := hkeeps.looks (hkeeps.left hJ hleft) hlooks
      have honward₃ := hlooks.committed ▸ law.trans honward hleft.1.2
      have hdone₃ : ∀ l ∈ done, law.Dealt i meets change J l r r₃ := fun l hl => ((hdone l hl).left hleft).looks hlooks
      have hholds : r₃.now.Holds i k (some v) := by
        rw [hnow, ← hv]
        exact r₂.now.take_holds i k
      dsimp only
      split
      · rename_i hmeets
        refine wp_bind (CommitLaw.wp_writeRow fun r₄ hleft₄ hallowed r₅ hnow₅ hpast₅ => ?_)
        have hchanges : Changes i k (change v) r₄ r₅ := .of_draft hnow₅ hpast₅ (by rintro ⟨⟩) rfl
        have hJ₅ := hkeeps.changes (hkeeps.left hJ₃ hleft₄) hleft₄.2 hallowed (hleft₄.1.1.kept.holds hholds) hmeets
          hchanges
        refine wp_bind (Proc.wp_mono (hrest hJ₅ (hchanges.committed ▸ law.trans honward₃ hleft₄.1.2)
          (fun l hl => ((hdone₃ l hl).left hleft₄).changes hchanges (hnotin l hl))
          (.inr (.inl ⟨v, hchanges.holds_self, hmeets⟩))) ?_)
        rintro res l' r' ⟨⟨n, rfl⟩, hend⟩
        exact wp_pure ⟨⟨n + 1, rfl⟩, hend⟩
      · rename_i hmeets
        exact hrest hJ₃ honward₃ hdone₃ (.inl ⟨v, hholds, hmeets⟩)

/-- A statement with a condition: each row that met it when the statement started is dealt with. -/
theorem CommitLaw.wp_changeWhere {Q : Except ε Nat → L → StoreHistory K V C → Prop}
    (h : ∀ r₁ r₂, law.Left allowed i r r₁ → r₂.now = r₁.now →
      r₂.past = ⟨i, c, .scan, r₁.now.listing i, r₁.now, r₁.now⟩ :: r₁.past →
        ∃ J, law.Keeping allowed i c meets change J ∧ J r₂ ∧ ∀ n l' r', J r' →
          law.onward (committed r₂) (committed r') →
          (∀ k v, r₂.now.view i k = some v → meets v → law.Dealt i meets change J k r₂ r') → Q (.ok n) l' r') :
    (changeWhere meets change : Proc (Stmt K V) Reply L ε Nat).Wp (law.rules allowed) i c Q l r := by
  refine wp_bind (CommitLaw.wp_selectAll fun r₁ hleft r₂ hnow hpast => ?_)
  obtain ⟨J, hkeeps, hJ, hQ⟩ := h r₁ r₂ hleft hnow hpast
  have hnodup : (([] : List K) ++ ((r₁.now.listing i).filter fun e => meets e.2).map Prod.fst).Nodup :=
    (hleft.2.1.listing_nodup i).sublist (List.filter_sublist.map _)
  refine Proc.wp_mono (CommitLaw.wp_changeEach hkeeps hnodup hJ (law.refl _) (by simp)) ?_
  rintro res l' r' ⟨⟨n, rfl⟩, hJ', honward, hdealt⟩
  -- the statement keeps no locals
  refine hQ n l' r' hJ' honward fun k v hk hmeets => hdealt k ?_
  rw [hnow] at hk
  refine List.mem_append_right _ (List.mem_map.mpr ⟨(k, v), ?_, rfl⟩)
  exact List.mem_filter.mpr ⟨hleft.2.1.mem_listing.mpr hk, decide_eq_true hmeets⟩

end Conditions

omit [DecidableEq K] in
theorem Store.clean_commit (w : Store K V) (i : Nat) : (w.commit i).Clean i := by
  intro k
  simp [Store.commit, Store.release]

omit [DecidableEq K] in
theorem Store.clean_release (w : Store K V) (i : Nat) : (w.release i).Clean i := by
  intro k
  simp [Store.release]

end Coinpilot.Lib.ReadCommitted
