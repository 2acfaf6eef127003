import Coinpilot.Lib.Program
import Mathlib.Data.List.Basic

/-!
# Traces of programs

What a program does when it runs to its end: the operations it called with the answers it got, and its
result (`Prog.Path`). The answers are arbitrary, so a property of every path is a property of
every pattern of answers. One answer decides what a program does next: two paths with the same
answers are one path (`Prog.Path.unique`), and of two paths neither is the start of the other.

`Proc.Path` is the same for a procedure, with one inversion lemma for each way of building one.
-/

set_option autoImplicit false

namespace Coinpilot.Lib.Program

variable {Op : Type} {Ans : Op → Type} {α β L ε : Type}

/-- An operation and its answer. -/
abbrev Answer (Op : Type) (Ans : Op → Type) : Type := (o : Op) × Ans o

/-- A run of a program to its end, first operation first. -/
inductive Prog.Path : Prog Op Ans α → List (Answer Op Ans) → α → Prop where
  | ret (a : α) : Path (.ret a) [] a
  | call {o : Op} {k : Ans o → Prog Op Ans α} {b : Ans o} {t : List (Answer Op Ans)} {a : α} :
      Path (k b) t a → Path (.call o k) (⟨o, b⟩ :: t) a

theorem path_ret {a b : α} {t : List (Answer Op Ans)} (h : (Prog.ret a : Prog Op Ans α).Path t b) :
    t = [] ∧ b = a := by
  cases h
  exact ⟨rfl, rfl⟩

theorem path_call {o : Op} {k : Ans o → Prog Op Ans α} {t : List (Answer Op Ans)} {a : α}
    (h : (Prog.call o k).Path t a) : ∃ b t', t = ⟨o, b⟩ :: t' ∧ (k b).Path t' a := by
  cases h with
  | call h => exact ⟨_, _, rfl, h⟩

/-- A run of two programs in sequence is a run of the first and then a run of the second. -/
theorem prog_path_bind {p : Prog Op Ans α} {f : α → Prog Op Ans β} {t : List (Answer Op Ans)} {b : β}
    (h : (p.bind f).Path t b) : ∃ t₁ a t₂, p.Path t₁ a ∧ (f a).Path t₂ b ∧ t = t₁ ++ t₂ := by
  induction p generalizing t with
  | ret a => exact ⟨[], a, t, .ret a, h, rfl⟩
  | call o k ih =>
    obtain ⟨x, t', rfl, h'⟩ := path_call h
    obtain ⟨t₁, a, t₂, h₁, h₂, rfl⟩ := ih x h'
    exact ⟨_, a, t₂, .call h₁, h₂, rfl⟩

/-- The answers decide the result, and no run is the start of a longer one. -/
theorem Prog.Path.unique {p : Prog Op Ans α} {t t' u u' : List (Answer Op Ans)} {a a' : α}
    (h : p.Path t a) (h' : p.Path t' a') (heq : t ++ u = t' ++ u') : t = t' ∧ a = a' := by
  induction h generalizing t' with
  | ret a =>
    obtain ⟨rfl, rfl⟩ := path_ret h'
    exact ⟨rfl, rfl⟩
  | call h ih =>
    obtain ⟨b', s', rfl, hs'⟩ := path_call h'
    obtain ⟨hhead, htail⟩ := List.cons.inj heq
    cases hhead
    obtain ⟨rfl, rfl⟩ := ih hs' htail
    exact ⟨rfl, rfl⟩

/-- What a program may do whatever the answers, it does on each path. -/
theorem Prog.Path.only {ok : Op → Prop} {R : α → Prop} {p : Prog Op Ans α} (hp : p.Only ok R)
    {t : List (Answer Op Ans)} {a : α} (h : p.Path t a) : (∀ x ∈ t, ok x.1) ∧ R a := by
  induction h with
  | ret a => exact ⟨by simp, hp⟩
  | call h ih =>
    obtain ⟨ho, hk⟩ := hp
    obtain ⟨hrest, ha⟩ := ih (hk _)
    refine ⟨?_, ha⟩
    intro x hx
    rcases List.mem_cons.mp hx with rfl | hx
    · exact ho
    · exact hrest x hx

/-! ## Procedures -/

/-- A run of a procedure from locals `l` to its end in `r` and `l'`. -/
def Proc.Path (m : Proc Op Ans L ε α) (l : L) (t : List (Answer Op Ans)) (r : Except ε α) (l' : L) :
    Prop :=
  (m.exec l).Path t (r, l')

variable {l l' : L} {t : List (Answer Op Ans)}

theorem path_pure {a : α} {r : Except ε α}
    (h : (pure a : Proc Op Ans L ε α).Path l t r l') : t = [] ∧ r = .ok a ∧ l' = l := by
  obtain ⟨rfl, heq⟩ := path_ret h
  cases heq
  exact ⟨rfl, rfl, rfl⟩

theorem path_throw {e : ε} {r : Except ε α}
    (h : (throw e : Proc Op Ans L ε α).Path l t r l') : t = [] ∧ r = .error e ∧ l' = l := by
  obtain ⟨rfl, heq⟩ := path_ret h
  cases heq
  exact ⟨rfl, rfl, rfl⟩

theorem path_fromExcept {x r : Except ε α}
    (h : (fromExcept x : Proc Op Ans L ε α).Path l t r l') : t = [] ∧ r = x ∧ l' = l := by
  cases x with
  | ok a => exact path_pure h
  | error e => exact path_throw h

theorem path_getLocals {r : Except ε L}
    (h : (getLocals : Proc Op Ans L ε L).Path l t r l') : t = [] ∧ r = .ok l ∧ l' = l := by
  obtain ⟨rfl, heq⟩ := path_ret h
  cases heq
  exact ⟨rfl, rfl, rfl⟩

theorem path_modifyLocals {f : L → L} {r : Except ε Unit}
    (h : (modifyLocals f : Proc Op Ans L ε Unit).Path l t r l') : t = [] ∧ r = .ok () ∧ l' = f l := by
  obtain ⟨rfl, heq⟩ := path_ret h
  cases heq
  exact ⟨rfl, rfl, rfl⟩

theorem path_perform {o : Op} {r : Except ε (Ans o)}
    (h : (perform o : Proc Op Ans L ε (Ans o)).Path l t r l') :
    ∃ b, t = [⟨o, b⟩] ∧ r = .ok b ∧ l' = l := by
  obtain ⟨b, t', rfl, h'⟩ := path_call h
  obtain ⟨rfl, heq⟩ := path_ret h'
  cases heq
  exact ⟨b, rfl, rfl, rfl⟩

/-- Sequencing: both parts run, or the first raises. -/
theorem path_bind {m : Proc Op Ans L ε α} {f : α → Proc Op Ans L ε β} {r : Except ε β}
    (h : (m >>= f).Path l t r l') :
    (∃ a l₁ t₁ t₂, m.Path l t₁ (.ok a) l₁ ∧ (f a).Path l₁ t₂ r l' ∧ t = t₁ ++ t₂) ∨
      ∃ e, m.Path l t (.error e) l' ∧ r = .error e := by
  unfold Proc.Path at h
  rw [exec_bind] at h
  obtain ⟨t₁, ⟨r₁, l₁⟩, t₂, h₁, h₂, rfl⟩ := prog_path_bind h
  cases r₁ with
  | ok a => exact Or.inl ⟨a, l₁, t₁, t₂, h₁, h₂, rfl⟩
  | error e =>
    obtain ⟨rfl, heq⟩ := path_ret h₂
    cases heq
    rw [List.append_nil]
    exact Or.inr ⟨e, h₁, rfl⟩

/-- Sequencing that does not raise: both parts run. -/
theorem path_bind_ok {m : Proc Op Ans L ε α} {f : α → Proc Op Ans L ε β} {b : β}
    (h : (m >>= f).Path l t (.ok b) l') :
    ∃ a l₁ t₁ t₂, m.Path l t₁ (.ok a) l₁ ∧ (f a).Path l₁ t₂ (.ok b) l' ∧ t = t₁ ++ t₂ := by
  rcases path_bind h with hboth | ⟨e, -, he⟩
  · exact hboth
  · cases he

theorem path_attempt {o : Op} {e : Ans o → Except ε α} {r : Except ε α}
    (h : (attempt o e : Proc Op Ans L ε α).Path l t r l') : ∃ b, t = [⟨o, b⟩] ∧ r = e b ∧ l' = l := by
  rcases path_bind h with ⟨a, l₁, t₁, t₂, h₁, h₂, rfl⟩ | ⟨x, h₁, -⟩
  · obtain ⟨b, rfl, ha, rfl⟩ := path_perform h₁
    obtain rfl := Except.ok.inj ha
    obtain ⟨rfl, rfl, rfl⟩ := path_fromExcept h₂
    exact ⟨a, rfl, rfl, rfl⟩
  · obtain ⟨b, -, hb, -⟩ := path_perform h₁
    cases hb

/-- The last part always runs, and an exception of its own wins. -/
theorem path_tryFinally {m : Proc Op Ans L ε α} {fin : Proc Op Ans L ε Unit} {r : Except ε α}
    (h : (tryFinally m fin).Path l t r l') :
    ∃ r₁ l₁ t₁ s t₂, m.Path l t₁ r₁ l₁ ∧ fin.Path l₁ t₂ s l' ∧ t = t₁ ++ t₂ ∧
      ((s = .ok () ∧ r = r₁) ∨ ∃ e, s = .error e ∧ r = .error e) := by
  obtain ⟨t₁, ⟨r₁, l₁⟩, t₂, h₁, h₂, rfl⟩ := prog_path_bind h
  obtain ⟨t₂, ⟨s, l₂⟩, t₃, hfin, h₃, rfl⟩ := prog_path_bind h₂
  obtain ⟨rfl, heq⟩ := path_ret h₃
  rw [List.append_nil]
  cases s with
  | ok u =>
    cases heq
    exact ⟨r₁, l₁, t₁, .ok (), t₂, h₁, hfin, rfl, Or.inl ⟨rfl, rfl⟩⟩
  | error e =>
    cases heq
    exact ⟨r₁, l₁, t₁, .error e, t₂, h₁, hfin, rfl, Or.inr ⟨e, rfl, rfl⟩⟩

/-- The handler runs on an exception. -/
theorem path_tryCatch {m : Proc Op Ans L ε α} {handler : ε → Proc Op Ans L ε α} {r : Except ε α}
    (h : (tryCatch' m handler).Path l t r l') :
    (∃ a, m.Path l t (.ok a) l' ∧ r = .ok a) ∨
      ∃ e l₁ t₁ t₂, m.Path l t₁ (.error e) l₁ ∧ (handler e).Path l₁ t₂ r l' ∧ t = t₁ ++ t₂ := by
  obtain ⟨t₁, ⟨r₁, l₁⟩, t₂, h₁, h₂, rfl⟩ := prog_path_bind h
  cases r₁ with
  | ok a =>
    obtain ⟨rfl, heq⟩ := path_ret h₂
    cases heq
    rw [List.append_nil]
    exact Or.inl ⟨a, h₁, rfl⟩
  | error e => exact Or.inr ⟨e, l₁, t₁, t₂, h₁, h₂, rfl⟩

theorem Proc.Only.path {ok : Op → Prop} {R : Except ε α → Prop} {m : Proc Op Ans L ε α}
    (hm : m.Only ok R) {r : Except ε α} (h : m.Path l t r l') :
    (∀ x ∈ t, ok x.1) ∧ R r ∧ l' = l :=
  Prog.Path.only (hm l) h

theorem Proc.Calls.path {ok : Op → Prop} {J : L → Prop} {m : Proc Op Ans L ε α} (hm : m.Calls ok J)
    {r : Except ε α} (h : m.Path l t r l') (hl : J l) : (∀ x ∈ t, ok x.1) ∧ J l' :=
  Prog.Path.only (hm l hl) h

/-! ## Picking operations out of a trace -/

section Picked

variable {γ : Type} (pick : Op → Option γ)

/-- What `pick` takes of each operation, in order. -/
def picked (t : List (Answer Op Ans)) : List γ := t.filterMap fun x => pick x.1

variable {pick}

@[simp] theorem picked_nil : picked pick ([] : List (Answer Op Ans)) = [] := rfl

@[simp] theorem picked_append (t₁ t₂ : List (Answer Op Ans)) :
    picked pick (t₁ ++ t₂) = picked pick t₁ ++ picked pick t₂ := List.filterMap_append

theorem picked_of_quiet {t : List (Answer Op Ans)} (h : ∀ x ∈ t, pick x.1 = none) : picked pick t = [] :=
  List.filterMap_eq_nil_iff.mpr h

/-- A first part that is not picked and leaves the locals alone. -/
theorem picked_bind_quiet {ok : Op → Prop} {R : Except ε α → Prop} {m : Proc Op Ans L ε α}
    (hm : m.Only ok R) (hok : ∀ o, ok o → pick o = none) {f : α → Proc Op Ans L ε β} {r : Except ε β}
    (h : (m >>= f).Path l t r l') :
    (∃ a t₁ t₂, t = t₁ ++ t₂ ∧ picked pick t₁ = [] ∧ R (.ok a) ∧ (f a).Path l t₂ r l') ∨
      ∃ e, r = .error e ∧ l' = l ∧ picked pick t = [] := by
  rcases path_bind h with ⟨a, l₁, t₁, t₂, h₁, h₂, rfl⟩ | ⟨e, h₁, rfl⟩
  · obtain ⟨hquiet, hR, rfl⟩ := hm.path h₁
    exact Or.inl ⟨a, t₁, t₂, rfl, picked_of_quiet fun x hx => hok _ (hquiet x hx), hR, h₂⟩
  · obtain ⟨hquiet, -, rfl⟩ := hm.path h₁
    exact Or.inr ⟨e, rfl, rfl, picked_of_quiet fun x hx => hok _ (hquiet x hx)⟩

end Picked

/-! ## Exceptions -/

section Raises

variable {good : Answer Op Ans → Prop} {E : ε → Prop}

/-- Along good answers, the procedure raises only `E`. -/
def Proc.Raises (good : Answer Op Ans → Prop) (E : ε → Prop) (m : Proc Op Ans L ε α) : Prop :=
  ∀ l t e l', m.Path l t (.error e) l' → (∀ x ∈ t, good x) → E e

theorem raises_pure (a : α) : (pure a : Proc Op Ans L ε α).Raises good E := by
  intro l t e l' h _
  obtain ⟨-, he, -⟩ := path_pure h
  cases he

theorem raises_throw {e : ε} (h : E e) : (throw e : Proc Op Ans L ε α).Raises good E := by
  intro l t e' l' hpath _
  obtain ⟨-, he, -⟩ := path_throw hpath
  exact Except.error.inj he ▸ h

theorem raises_getLocals : (getLocals : Proc Op Ans L ε L).Raises good E := by
  intro l t e l' h _
  obtain ⟨-, he, -⟩ := path_getLocals h
  cases he

theorem raises_modifyLocals (f : L → L) : (modifyLocals f : Proc Op Ans L ε Unit).Raises good E := by
  intro l t e l' h _
  obtain ⟨-, he, -⟩ := path_modifyLocals h
  cases he

theorem raises_perform (o : Op) : (perform o : Proc Op Ans L ε (Ans o)).Raises good E := by
  intro l t e l' h _
  obtain ⟨b, -, he, -⟩ := path_perform h
  cases he

theorem raises_attempt {o : Op} {e : Ans o → Except ε α}
    (h : ∀ b x, good ⟨o, b⟩ → e b = .error x → E x) : (attempt o e : Proc Op Ans L ε α).Raises good E := by
  intro l t x l' hpath hgood
  obtain ⟨b, rfl, hb, -⟩ := path_attempt hpath
  exact h b x (hgood _ List.mem_cons_self) hb.symm

theorem raises_bind {m : Proc Op Ans L ε α} {f : α → Proc Op Ans L ε β} (h : m.Raises good E)
    (hf : ∀ a, (f a).Raises good E) : (m >>= f).Raises good E := by
  intro l t e l' hpath hgood
  rcases path_bind hpath with ⟨a, l₁, t₁, t₂, -, h₂, rfl⟩ | ⟨e', h₁, he⟩
  · exact hf a l₁ t₂ e l' h₂ fun x hx => hgood x (List.mem_append_right _ hx)
  · obtain rfl := Except.error.inj he
    exact h l t e l' h₁ hgood

end Raises

/-! ## Traces of threads -/

section Threads

variable {C W ρ : Type} {S : Semantics Op Ans C W} {code : C → Prog Op Ans ρ}

/-- What thread `i` did, first operation first. -/
def traceOf (i : Nat) (past : List (Event Op Ans C W)) : List (Answer Op Ans) :=
  (past.filterMap fun e => if e.who = i then some ⟨e.op, e.ans⟩ else none).reverse

theorem traceOf_cons_self {i : Nat} {c : C} {o : Op} {b : Ans o} {w w' : W}
    (past : List (Event Op Ans C W)) :
    traceOf i (⟨i, c, o, b, w, w'⟩ :: past) = traceOf i past ++ [⟨o, b⟩] := by
  simp [traceOf]

theorem traceOf_cons_other {i : Nat} {e : Event Op Ans C W} (h : e.who ≠ i)
    (past : List (Event Op Ans C W)) : traceOf i (e :: past) = traceOf i past := by
  simp [traceOf, h]

theorem mem_traceOf {i : Nat} {past : List (Event Op Ans C W)} {x : Answer Op Ans} :
    x ∈ traceOf i past ↔ ∃ e ∈ past, e.who = i ∧ x = ⟨e.op, e.ans⟩ := by
  simp only [traceOf, List.mem_reverse, List.mem_filterMap]
  constructor
  · rintro ⟨e, he, hx⟩
    split at hx
    · exact ⟨e, he, ‹_›, (Option.some.inj hx).symm⟩
    · cases hx
  · rintro ⟨e, he, hwho, rfl⟩
    exact ⟨e, he, if_pos hwho⟩

/-- What a thread has done and a run of the rest of its program are a run of its code. -/
def Traced (code : C → Prog Op Ans ρ) (i : Nat) (past : List (Event Op Ans C W)) :
    Thread Op Ans C ρ → Prop
  | .unborn => traceOf i past = []
  | .live c p => ∀ t a, p.Path t a → (code c).Path (traceOf i past ++ t) a
  | .gone _ => True

theorem traced_cons_other {i : Nat} {past : List (Event Op Ans C W)} {th : Thread Op Ans C ρ}
    (h : Traced code i past th) {e : Event Op Ans C W} (he : e.who ≠ i) : Traced code i (e :: past) th := by
  cases th with
  | unborn => exact (traceOf_cons_other he past).trans h
  | live c p =>
    intro t a hpath
    rw [traceOf_cons_other he]
    exact h t a hpath
  | gone c => trivial

theorem traced_of_reaches {w₀ : W} {σ : Config Op Ans C (Recorded Op Ans C W) ρ}
    (h : Reaches S.recorded code (.start ⟨w₀, []⟩) σ) (i : Nat) :
    Traced code i σ.world.past (σ.threads i) := by
  induction h with
  | refl => rfl
  | tail _ hs ih =>
    cases hs with
    | env he =>
      rw [show _ = _ from he.2]
      exact ih
    | spawn j c hu =>
      by_cases hj : i = j
      · subst hj
        rw [hu] at ih
        simp only [Function.update_self]
        intro t a hpath
        rw [show traceOf i _ = [] from ih]
        exact hpath
      · simpa [Function.update_of_ne hj] using ih
    | @act j c o k b w hl hst =>
      rw [show w.past = _ from hst.2]
      by_cases hj : i = j
      · subst hj
        rw [hl] at ih
        simp only [Function.update_self]
        intro t a hpath
        rw [traceOf_cons_self, List.append_assoc]
        exact ih _ a (.call hpath)
      · simp only [Function.update_of_ne hj]
        exact traced_cons_other ih (Ne.symm hj)
    | @die j c p hl =>
      by_cases hj : i = j
      · subst hj
        simp [Traced]
      · simp only [Function.update_of_ne hj]
        exact ih

/-- A call that has returned ran its code along its trace. -/
theorem path_of_returned {w₀ : W} {σ : Config Op Ans C (Recorded Op Ans C W) ρ}
    (h : Reaches S.recorded code (.start ⟨w₀, []⟩) σ) {i : Nat} {c : C} {a : ρ}
    (hl : σ.threads i = .live c (.ret a)) : (code c).Path (traceOf i σ.world.past) a := by
  have htraced := traced_of_reaches h i
  rw [hl] at htraced
  simpa using htraced [] a (.ret a)

theorem only_any (p : Prog Op Ans ρ) : p.Only (fun _ => True) fun _ => True := by
  induction p with
  | ret a => trivial
  | call o k ih => exact ⟨trivial, ih⟩

/-- The rest of a thread calls only what its call may. -/
def ThreadOnly (ok : C → Op → Prop) : Thread Op Ans C ρ → Prop
  | .live c p => p.Only (ok c) fun _ => True
  | _ => True

/-- Every answered operation is one that its call may make, whatever the answers, and the world answered it. -/
theorem only_of_reaches {ok : C → Op → Prop} (hcode : ∀ c, (code c).Only (ok c) fun _ => True) {w₀ : W}
    {σ : Config Op Ans C (Recorded Op Ans C W) ρ}
    (h : Reaches S.recorded code (.start ⟨w₀, []⟩) σ) :
    (∀ i, ThreadOnly ok (σ.threads i)) ∧
      ∀ e ∈ σ.world.past, ok e.call e.op ∧ S.step e.who e.call e.op e.before e.ans e.after := by
  induction h with
  | refl => exact ⟨fun _ => trivial, nofun⟩
  | tail _ hs ih =>
    obtain ⟨hthreads, hpast⟩ := ih
    cases hs with
    | env he =>
      rw [show _ = _ from he.2]
      exact ⟨hthreads, hpast⟩
    | spawn j c hu =>
      refine ⟨fun i => ?_, hpast⟩
      by_cases hj : i = j
      · subst hj
        simpa [ThreadOnly] using hcode c
      · simpa [Function.update_of_ne hj] using hthreads i
    | @act j c o k b w hl hst =>
      have hj := hthreads j
      rw [hl] at hj
      obtain ⟨ho, hk⟩ := hj
      rw [show w.past = _ from hst.2]
      refine ⟨fun i => ?_, ?_⟩
      · by_cases hj : i = j
        · subst hj
          simpa [ThreadOnly] using hk b
        · simpa [Function.update_of_ne hj] using hthreads i
      · intro e he
        rcases List.mem_cons.mp he with rfl | he
        · exact ⟨ho, hst.1⟩
        · exact hpast e he
    | @die j c p hl =>
      refine ⟨fun i => ?_, hpast⟩
      by_cases hj : i = j
      · subst hj
        simp [ThreadOnly]
      · simpa [Function.update_of_ne hj] using hthreads i

end Threads

end Coinpilot.Lib.Program
