import Mathlib.Logic.Relation
import Mathlib.Logic.Function.Basic

/-!
# Interacting programs

A program is a tree of operations: it calls one operation at a time and continues on the
answer (`Prog`). `Proc` adds what a procedure of an imperative language has on top, mutable
local variables that survive an exception, and exceptions.

A `Semantics` says how a world answers an operation. Threads run programs against one world,
one operation at a time and in any order (`Step`); a thread may die before any of its
operations. `Semantics.recorded` keeps the history of every answered operation.

`Contract` is the proof rule: an invariant of the world, what each thread may rely on while
the others run, and what must hold when a thread calls an operation. `Wp` is the weakest
precondition of a program under a contract, and `Contract.sound` gives the invariant and every
guard on every reachable configuration. `Only` is the part of the logic that needs no world:
which operations a program may call, whatever the answers, and what it may return.
-/

set_option autoImplicit false

namespace Coinpilot.Lib.Program

/-! ## Programs -/

/-- A program over the operations `Op`: a result, or one operation and what to do with each
answer. -/
inductive Prog (Op : Type) (Ans : Op → Type) (α : Type) : Type where
  | ret (a : α)
  | call (o : Op) (k : Ans o → Prog Op Ans α)

section Programs

variable {Op : Type} {Ans : Op → Type} {α β γ : Type}

/-- Sequencing: `f` continues from every result of the program. -/
def Prog.bind : Prog Op Ans α → (α → Prog Op Ans β) → Prog Op Ans β
  | .ret a, f => f a
  | .call o k, f => .call o fun b => (k b).bind f

instance : Monad (Prog Op Ans) where
  pure := .ret
  bind := .bind

/-- A procedure with local variables `L` and exceptions `ε`. The locals survive an exception. -/
abbrev Proc (Op : Type) (Ans : Op → Type) (L ε : Type) : Type → Type :=
  ExceptT ε (StateT L (Prog Op Ans))

variable {L ε : Type}

/-- The program a procedure is, from given locals. -/
def Proc.exec (m : Proc Op Ans L ε α) (l : L) : Prog Op Ans (Except ε α × L) := m l

/-- Call one operation. -/
def perform (o : Op) : Proc Op Ans L ε (Ans o) := fun l => .call o fun b => .ret (.ok b, l)

/-- A computed value or exception. -/
def fromExcept : Except ε α → Proc Op Ans L ε α
  | .ok a => pure a
  | .error e => throw e

/-- Call an operation whose answer may be an exception. -/
def attempt (o : Op) (e : Ans o → Except ε α) : Proc Op Ans L ε α := do
  fromExcept (e (← perform o))

/-- `m`, and then `fin` whether or not `m` raised. An exception of `fin` wins. -/
def tryFinally (m : Proc Op Ans L ε α) (fin : Proc Op Ans L ε Unit) : Proc Op Ans L ε α :=
  fun l => (m.exec l).bind fun r => (fin.exec r.2).bind fun s =>
    .ret (match s.1 with
      | .ok _ => (r.1, s.2)
      | .error e => (.error e, s.2))

/-- `m`, and `h` on the exceptions it raised. -/
def tryCatch' (m : Proc Op Ans L ε α) (h : ε → Proc Op Ans L ε α) : Proc Op Ans L ε α :=
  fun l => (m.exec l).bind fun r =>
    match r.1 with
    | .ok a => .ret (.ok a, r.2)
    | .error e => (h e).exec r.2

/-- Read the locals. -/
def getLocals : Proc Op Ans L ε L := fun l => .ret (.ok l, l)

/-- Change the locals. -/
def modifyLocals (f : L → L) : Proc Op Ans L ε Unit := fun l => .ret (.ok (), f l)

theorem exec_bind (m : Proc Op Ans L ε α) (f : α → Proc Op Ans L ε β) (l : L) :
    Proc.exec (m >>= f) l = (m.exec l).bind fun r =>
      match r.1 with
      | .ok a => (f a).exec r.2
      | .error e => .ret (.error e, r.2) := by
  change Prog.bind (m l) _ = Prog.bind (m l) _
  congr 1
  funext r
  rcases r with ⟨r | r, l'⟩ <;> rfl

end Programs

/-! ## Worlds and threads -/

/-- How a world answers the operations. `step i c o w b w'`: thread `i`, running the call `c`,
calls `o` in `w`, is answered `b` and leaves `w'`. `env` is what happens on its own between two
operations, and `died i` what the death of thread `i` does. -/
structure Semantics (Op : Type) (Ans : Op → Type) (C W : Type) where
  step : Nat → C → (o : Op) → W → Ans o → W → Prop
  env : W → W → Prop
  died : Nat → W → W

/-- One thread: not started, running the rest of its program, or ended. -/
inductive Thread (Op : Type) (Ans : Op → Type) (C ρ : Type) : Type where
  | unborn
  | live (c : C) (p : Prog Op Ans ρ)
  | gone (c : C)

/-- The world and the threads that run against it. -/
structure Config (Op : Type) (Ans : Op → Type) (C W ρ : Type) where
  world : W
  threads : Nat → Thread Op Ans C ρ

/-- One answered operation: who called it, for which call, and the world around it. -/
structure Event (Op : Type) (Ans : Op → Type) (C W : Type) where
  who : Nat
  call : C
  op : Op
  ans : Ans op
  before : W
  after : W

/-- A world with its history, newest event first. -/
structure Recorded (Op : Type) (Ans : Op → Type) (C W : Type) where
  now : W
  past : List (Event Op Ans C W)

section Running

variable {Op : Type} {Ans : Op → Type} {C W ρ α : Type}

/-- The same world, recording each answered operation. -/
def Semantics.recorded (S : Semantics Op Ans C W) :
    Semantics Op Ans C (Recorded Op Ans C W) where
  step i c o w b w' :=
    S.step i c o w.now b w'.now ∧ w'.past = ⟨i, c, o, b, w.now, w'.now⟩ :: w.past
  env w w' := S.env w.now w'.now ∧ w'.past = w.past
  died i w := ⟨S.died i w.now, w.past⟩

/-- The runs whose every operation meets `allowed` when it is called. -/
def Semantics.given (S : Semantics Op Ans C W) (allowed : Nat → C → Op → W → Prop) :
    Semantics Op Ans C W where
  step i c o w b w' := allowed i c o w ∧ S.step i c o w b w'
  env := S.env
  died := S.died

variable (S : Semantics Op Ans C W) (code : C → Prog Op Ans ρ)

/-- One step of the system: the world on its own, a new thread, one operation of one thread, or
the death of one. A thread whose program has returned ends the same way. -/
inductive Step : Config Op Ans C W ρ → Config Op Ans C W ρ → Prop where
  | env {σ : Config Op Ans C W ρ} {w : W} :
      S.env σ.world w → Step σ { σ with world := w }
  | spawn {σ : Config Op Ans C W ρ} (i : Nat) (c : C) :
      σ.threads i = .unborn →
        Step σ { σ with threads := Function.update σ.threads i (.live c (code c)) }
  | act {σ : Config Op Ans C W ρ} {i : Nat} {c : C} {o : Op} {k : Ans o → Prog Op Ans ρ}
      {b : Ans o} {w : W} :
      σ.threads i = .live c (.call o k) → S.step i c o σ.world b w →
        Step σ ⟨w, Function.update σ.threads i (.live c (k b))⟩
  | die {σ : Config Op Ans C W ρ} {i : Nat} {c : C} {p : Prog Op Ans ρ} :
      σ.threads i = .live c p →
        Step σ ⟨S.died i σ.world, Function.update σ.threads i (.gone c)⟩

/-- Every order of steps. -/
abbrev Reaches : Config Op Ans C W ρ → Config Op Ans C W ρ → Prop :=
  Relation.ReflTransGen (Step S code)

/-- No thread has started. -/
def Config.start (w : W) : Config Op Ans C W ρ := ⟨w, fun _ => .unborn⟩

/-- Thread `i` runs `p` to its end with no other thread in between. -/
inductive RunsAlone (i : Nat) (c : C) : Prog Op Ans α → W → α → W → Prop where
  | ret (a : α) (w : W) : RunsAlone i c (.ret a) w a w
  | env {p : Prog Op Ans α} {w w₁ w₂ : W} {a : α} :
      S.env w w₁ → RunsAlone i c p w₁ a w₂ → RunsAlone i c p w a w₂
  | call {o : Op} {k : Ans o → Prog Op Ans α} {b : Ans o} {w w₁ w₂ : W} {a : α} :
      S.step i c o w b w₁ → RunsAlone i c (k b) w₁ a w₂ → RunsAlone i c (.call o k) w a w₂

end Running

/-! ## Contracts -/

/-- What the threads keep and rely on. `rely i w w'` is what the steps of the others and of the
world may do to thread `i`; `guard` is what must hold when an operation is called. An operation
called under its guard keeps the invariant, and what the others rely on (`step_ok`). -/
structure Contract {Op : Type} {Ans : Op → Type} {C W : Type} (S : Semantics Op Ans C W) where
  inv : W → Prop
  rely : Nat → W → W → Prop
  guard : Nat → C → Op → W → Prop
  rely_refl : ∀ i w, rely i w w
  rely_trans : ∀ {i w₁ w₂ w₃}, rely i w₁ w₂ → rely i w₂ w₃ → rely i w₁ w₃
  env_ok : ∀ {w w'}, inv w → S.env w w' → inv w' ∧ ∀ i, rely i w w'
  died_ok : ∀ {i w}, inv w → inv (S.died i w) ∧ ∀ j, j ≠ i → rely j w (S.died i w)
  step_ok : ∀ {i c o w b w'}, inv w → guard i c o w → S.step i c o w b w' →
    inv w' ∧ ∀ j, j ≠ i → rely j w w'

section Rules

variable {Op : Type} {Ans : Op → Type} {C W ρ α β L ε : Type} {S : Semantics Op Ans C W}

/-- Weakest precondition of a program of thread `i`: wherever the others leave the world, each
operation meets its guard, and the rest of the program goes on from every answer. -/
def Prog.Wp (K : Contract S) (i : Nat) (c : C) : Prog Op Ans α → (α → W → Prop) → W → Prop
  | .ret a, Q, w => Q a w
  | .call o k, Q, w => ∀ w₁, K.rely i w w₁ → K.inv w₁ → K.guard i c o w₁ ∧
      ∀ b w₂, S.step i c o w₁ b w₂ → K.inv w₂ → (k b).Wp K i c Q w₂

/-- Weakest precondition of a procedure from given locals. -/
def Proc.Wp (K : Contract S) (i : Nat) (c : C) (m : Proc Op Ans L ε α)
    (Q : Except ε α → L → W → Prop) (l : L) (w : W) : Prop :=
  (m.exec l).Wp K i c (fun r w => Q r.1 r.2 w) w

/-- A postcondition that the steps of the others do not touch. -/
def Contract.Stable (K : Contract S) (i : Nat) (P : W → Prop) : Prop :=
  ∀ {w w'}, P w → K.rely i w w' → K.inv w' → P w'

variable {K : Contract S} {i : Nat} {c : C}

theorem wp_mono {p : Prog Op Ans α} {Q Q' : α → W → Prop} {w : W}
    (h : p.Wp K i c Q w) (hQ : ∀ a w, Q a w → Q' a w) : p.Wp K i c Q' w := by
  induction p generalizing w with
  | ret a => exact hQ a w h
  | call o k ih =>
    intro w₁ hr hi
    obtain ⟨hg, hk⟩ := h w₁ hr hi
    exact ⟨hg, fun b w₂ hs hi₂ => ih b (hk b w₂ hs hi₂)⟩

/-- The precondition of the rest of a program is stable when its postcondition is. -/
theorem wp_stable {p : Prog Op Ans α} {Q : α → W → Prop} (hQ : ∀ a, K.Stable i (Q a)) :
    K.Stable i (p.Wp K i c Q) := by
  intro w w' h hr hi
  cases p with
  | ret a => exact hQ a h hr hi
  | call o k => exact fun w₁ hr₁ hi₁ => h w₁ (K.rely_trans hr hr₁) hi₁

theorem prog_wp_bind {p : Prog Op Ans α} {f : α → Prog Op Ans β} {Q : β → W → Prop} {w : W}
    (h : p.Wp K i c (fun a w => (f a).Wp K i c Q w) w) : (p.bind f).Wp K i c Q w := by
  induction p generalizing w with
  | ret a => exact h
  | call o k ih =>
    intro w₁ hr hi
    obtain ⟨hg, hk⟩ := h w₁ hr hi
    exact ⟨hg, fun b w₂ hs hi₂ => ih b (hk b w₂ hs hi₂)⟩

theorem Proc.wp_mono {m : Proc Op Ans L ε α} {Q Q' : Except ε α → L → W → Prop} {l : L} {w : W}
    (h : m.Wp K i c Q l w) (hQ : ∀ r l w, Q r l w → Q' r l w) : m.Wp K i c Q' l w :=
  Program.wp_mono h fun r w => hQ r.1 r.2 w

theorem wp_pure {a : α} {Q : Except ε α → L → W → Prop} {l : L} {w : W} (h : Q (.ok a) l w) :
    Proc.Wp K i c (pure a : Proc Op Ans L ε α) Q l w := h

theorem wp_throw {e : ε} {Q : Except ε α → L → W → Prop} {l : L} {w : W} (h : Q (.error e) l w) :
    Proc.Wp K i c (throw e : Proc Op Ans L ε α) Q l w := h

theorem wp_fromExcept {x : Except ε α} {Q : Except ε α → L → W → Prop} {l : L} {w : W}
    (h : Q x l w) : Proc.Wp K i c (fromExcept x : Proc Op Ans L ε α) Q l w := by
  cases x with
  | ok a => exact h
  | error e => exact h

theorem wp_getLocals {Q : Except ε L → L → W → Prop} {l : L} {w : W} (h : Q (.ok l) l w) :
    Proc.Wp K i c (getLocals : Proc Op Ans L ε L) Q l w := h

theorem wp_modifyLocals {f : L → L} {Q : Except ε Unit → L → W → Prop} {l : L} {w : W}
    (h : Q (.ok ()) (f l) w) :
    Proc.Wp K i c (modifyLocals f : Proc Op Ans L ε Unit) Q l w := h

/-- Sequencing. An exception of the first part skips the second. -/
theorem wp_bind {m : Proc Op Ans L ε α} {f : α → Proc Op Ans L ε β}
    {Q : Except ε β → L → W → Prop} {l : L} {w : W}
    (h : m.Wp K i c (fun r l w => match r with
      | .ok a => (f a).Wp K i c Q l w
      | .error e => Q (.error e) l w) l w) : (m >>= f).Wp K i c Q l w := by
  unfold Proc.Wp
  rw [exec_bind]
  refine prog_wp_bind (Program.wp_mono h ?_)
  rintro ⟨r | a, l'⟩ w' hw'
  · exact hw'
  · exact hw'

/-- One operation: its guard, and every answer. -/
theorem wp_perform {o : Op} {Q : Except ε (Ans o) → L → W → Prop} {l : L} {w : W}
    (h : ∀ w₁, K.rely i w w₁ → K.inv w₁ → K.guard i c o w₁ ∧ ∀ b w₂, S.step i c o w₁ b w₂ →
      K.inv w₂ → Q (.ok b) l w₂) :
    (perform o : Proc Op Ans L ε (Ans o)).Wp K i c Q l w := h

theorem wp_attempt {o : Op} {e : Ans o → Except ε α} {Q : Except ε α → L → W → Prop} {l : L}
    {w : W} (h : ∀ w₁, K.rely i w w₁ → K.inv w₁ → K.guard i c o w₁ ∧
      ∀ b w₂, S.step i c o w₁ b w₂ → K.inv w₂ → Q (e b) l w₂) :
    (attempt o e : Proc Op Ans L ε α).Wp K i c Q l w := by
  refine wp_bind (wp_perform fun w₁ hr hi => ?_)
  obtain ⟨hg, hk⟩ := h w₁ hr hi
  exact ⟨hg, fun b w₂ hs hi₂ => wp_fromExcept (hk b w₂ hs hi₂)⟩

theorem wp_tryFinally {m : Proc Op Ans L ε α} {fin : Proc Op Ans L ε Unit}
    {Q : Except ε α → L → W → Prop} {l : L} {w : W}
    (h : m.Wp K i c (fun r l w => fin.Wp K i c (fun s l w => match s with
      | .ok _ => Q r l w
      | .error e => Q (.error e) l w) l w) l w) : (tryFinally m fin).Wp K i c Q l w := by
  refine prog_wp_bind (Program.wp_mono h ?_)
  rintro ⟨r, l'⟩ w' hw'
  refine prog_wp_bind (Program.wp_mono hw' ?_)
  rintro ⟨s | s, l''⟩ w'' hw''
  · exact hw''
  · exact hw''

theorem wp_tryCatch {m : Proc Op Ans L ε α} {h : ε → Proc Op Ans L ε α}
    {Q : Except ε α → L → W → Prop} {l : L} {w : W}
    (hm : m.Wp K i c (fun r l w => match r with
      | .ok a => Q (.ok a) l w
      | .error e => (h e).Wp K i c Q l w) l w) : (tryCatch' m h).Wp K i c Q l w := by
  refine prog_wp_bind (Program.wp_mono hm ?_)
  rintro ⟨r | a, l'⟩ w' hw'
  · exact hw'
  · exact hw'

/-! ## Soundness -/

variable {code : C → Prog Op Ans ρ}

/-- What a contract says of one thread. -/
def ThreadOk (K : Contract S) (fresh : Nat → W → Prop) (Q : Nat → C → ρ → W → Prop) (i : Nat) (w : W) :
    Thread Op Ans C ρ → Prop
  | .unborn => fresh i w
  | .live c p => p.Wp K i c (Q i c) w
  | .gone _ => True

/-- The obligations of a system: what a thread not yet started may assume, what each call
ends in, and that each call's program meets the contract. -/
structure Contract.Covers (K : Contract S) (code : C → Prog Op Ans ρ) (fresh : Nat → W → Prop)
    (Q : Nat → C → ρ → W → Prop) : Prop where
  fresh_stable : ∀ i, K.Stable i (fresh i)
  post_stable : ∀ i c a, K.Stable i (Q i c a)
  code_ok : ∀ i c w, K.inv w → fresh i w → (code c).Wp K i c (Q i c) w

theorem threadOk_stable {fresh : Nat → W → Prop} {Q : Nat → C → ρ → W → Prop}
    (hK : K.Covers code fresh Q) (i : Nat) (t : Thread Op Ans C ρ) :
    K.Stable i fun w => ThreadOk K fresh Q i w t := by
  intro w w' h hr hi
  cases t with
  | unborn => exact hK.fresh_stable i h hr hi
  | live c p => exact wp_stable (hK.post_stable i c) h hr hi
  | gone c => trivial

/-- One step keeps the invariant and what the contract says of every thread. -/
theorem Contract.sound_step {fresh : Nat → W → Prop} {Q : Nat → C → ρ → W → Prop}
    (hK : K.Covers code fresh Q) {σ τ : Config Op Ans C W ρ}
    (hi : K.inv σ.world) (ht : ∀ i, ThreadOk K fresh Q i σ.world (σ.threads i))
    (h : Step S code σ τ) :
    K.inv τ.world ∧ ∀ i, ThreadOk K fresh Q i τ.world (τ.threads i) := by
  cases h with
  | env he =>
    obtain ⟨hi', hr⟩ := K.env_ok hi he
    exact ⟨hi', fun i => threadOk_stable hK i _ (ht i) (hr i) hi'⟩
  | spawn i c hu =>
    refine ⟨hi, fun j => ?_⟩
    by_cases hj : j = i
    · subst hj
      have hf := ht j
      rw [hu] at hf
      simpa [ThreadOk] using hK.code_ok j c σ.world hi hf
    · simpa [Function.update_of_ne hj] using ht j
  | @act i c o k b w hl hs =>
    have hw := ht i
    rw [hl] at hw
    obtain ⟨hg, hk⟩ := hw σ.world (K.rely_refl i _) hi
    obtain ⟨hi', hr⟩ := K.step_ok hi hg hs
    have hb := hk b w hs hi'
    refine ⟨hi', fun j => ?_⟩
    by_cases hj : j = i
    · subst hj
      simpa [ThreadOk] using hb
    · simpa [Function.update_of_ne hj] using threadOk_stable hK j _ (ht j) (hr j hj) hi'
  | @die i c p hl =>
    obtain ⟨hi', hr⟩ := K.died_ok (i := i) hi
    refine ⟨hi', fun j => ?_⟩
    by_cases hj : j = i
    · subst hj
      simp [ThreadOk]
    · simpa [Function.update_of_ne hj] using threadOk_stable hK j _ (ht j) (hr j hj) hi'

/-- Every reachable configuration meets the contract. -/
theorem Contract.sound {fresh : Nat → W → Prop} {Q : Nat → C → ρ → W → Prop}
    (hK : K.Covers code fresh Q) {w₀ : W} (hi : K.inv w₀) (hf : ∀ i, fresh i w₀)
    {σ : Config Op Ans C W ρ} (h : Reaches S code (.start w₀) σ) :
    K.inv σ.world ∧ ∀ i, ThreadOk K fresh Q i σ.world (σ.threads i) := by
  induction h with
  | refl => exact ⟨hi, hf⟩
  | tail _ hs ih => exact Contract.sound_step hK ih.1 ih.2 hs

/-- An operation that is answered was called under its guard. -/
theorem Contract.guard_of_act {fresh : Nat → W → Prop} {Q : Nat → C → ρ → W → Prop} {w : W} {i : Nat}
    {c : C} {o : Op} {k : Ans o → Prog Op Ans ρ} {t : Thread Op Ans C ρ} (hi : K.inv w)
    (ht : ThreadOk K fresh Q i w t) (hl : t = .live c (.call o k)) : K.guard i c o w := by
  rw [hl] at ht
  exact (ht w (K.rely_refl i w) hi).1

/-- What the world, every guarded operation and every death keep is kept from one reachable
configuration on. -/
theorem Contract.keeps {fresh : Nat → W → Prop} {Q : Nat → C → ρ → W → Prop}
    (hK : K.Covers code fresh Q) {w₀ : W} (hi : K.inv w₀) (hf : ∀ i, fresh i w₀) {P : W → Prop}
    (henv : ∀ {w w'}, K.inv w → P w → S.env w w' → P w')
    (hdied : ∀ {i w}, P w → P (S.died i w))
    (hact : ∀ {i c o w b w'}, K.inv w → K.guard i c o w → P w → S.step i c o w b w' → P w')
    {σ τ : Config Op Ans C W ρ} (hσ : Reaches S code (.start w₀) σ) (hτ : Reaches S code σ τ)
    (hP : P σ.world) : P τ.world := by
  induction hτ with
  | refl => exact hP
  | tail hab hs ih =>
    obtain ⟨hi', ht⟩ := Contract.sound hK hi hf (hσ.trans hab)
    cases hs with
    | env he => exact henv hi' ih he
    | spawn i c hu => exact ih
    | act hl hs => exact hact hi' (Contract.guard_of_act hi' (ht _) hl) ih hs
    | die hl => exact hdied ih

/-- A thread that runs alone ends in the postcondition. -/
theorem wp_runsAlone {p : Prog Op Ans α} {Q : α → W → Prop} (hQ : ∀ a, K.Stable i (Q a))
    {w w' : W} {a : α} (h : RunsAlone S i c p w a w') (hi : K.inv w) (hp : p.Wp K i c Q w) :
    K.inv w' ∧ Q a w' := by
  induction h with
  | ret a w => exact ⟨hi, hp⟩
  | env he _ ih =>
    obtain ⟨hi₁, hr⟩ := K.env_ok hi he
    exact ih hi₁ (wp_stable hQ hp (hr i) hi₁)
  | call hs _ ih =>
    obtain ⟨hg, hk⟩ := hp _ (K.rely_refl i _) hi
    obtain ⟨hi₁, -⟩ := K.step_ok hi hg hs
    exact ih hi₁ (hk _ _ hs hi₁)

end Rules

/-! ## Histories -/

section Histories

variable {Op : Type} {Ans : Op → Type} {C W ρ : Type} {S : Semantics Op Ans C W}

/-- Every answered operation of a reachable history was called under its guard. -/
theorem Contract.guard_of_past {K : Contract S.recorded} {code : C → Prog Op Ans ρ}
    {fresh : Nat → Recorded Op Ans C W → Prop} {Q : Nat → C → ρ → Recorded Op Ans C W → Prop}
    (hK : K.Covers code fresh Q) {w₀ : W} (hi : K.inv ⟨w₀, []⟩) (hf : ∀ i, fresh i ⟨w₀, []⟩)
    {σ : Config Op Ans C (Recorded Op Ans C W) ρ}
    (h : Reaches S.recorded code (.start ⟨w₀, []⟩) σ) {e : Event Op Ans C W}
    {es : List (Event Op Ans C W)} (he : (e :: es) <:+ σ.world.past) :
    K.inv ⟨e.before, es⟩ ∧ K.guard e.who e.call e.op ⟨e.before, es⟩ ∧
      S.step e.who e.call e.op e.before e.ans e.after := by
  induction h with
  | refl =>
    have hnil : (e :: es) <:+ [] := he
    simp at hnil
  | tail hab hs ih =>
    obtain ⟨hi', ht⟩ := Contract.sound hK hi hf hab
    cases hs with
    | env hen =>
      rw [show _ = _ from hen.2] at he
      exact ih he
    | spawn i c hu => exact ih he
    | @act i c o k b w hl hst =>
      have hpast : w.past = ⟨i, c, o, b, _, w.now⟩ :: _ := hst.2
      have he' : (e :: es) <:+ w.past := he
      rw [hpast, List.suffix_cons_iff] at he'
      rcases he' with heq | he'
      · obtain ⟨rfl, rfl⟩ := List.cons.inj heq
        exact ⟨hi', Contract.guard_of_act hi' (ht i) hl, hst.1⟩
      · exact ih he'
    | die hl => exact ih he

/-- A contract, on the runs with their histories and under a condition. A guard may assume the
condition, and what the others do leaves no event of the thread's own. -/
def Contract.withHistory (K : Contract S) (allowed : Nat → C → Op → Recorded Op Ans C W → Prop) :
    Contract (S.recorded.given allowed) where
  inv r := K.inv r.now
  rely i r r' := K.rely i r.now r'.now ∧ ∃ es, r'.past = es ++ r.past ∧ ∀ e ∈ es, e.who ≠ i
  guard i c o r := allowed i c o r → K.guard i c o r.now
  rely_refl i r := ⟨K.rely_refl i _, [], rfl, by simp⟩
  rely_trans := by
    rintro i r₁ r₂ r₃ ⟨h₁, es₁, hp₁, he₁⟩ ⟨h₂, es₂, hp₂, he₂⟩
    refine ⟨K.rely_trans h₁ h₂, es₂ ++ es₁, by rw [hp₂, hp₁, List.append_assoc], fun e he => ?_⟩
    rcases List.mem_append.mp he with he | he
    · exact he₂ e he
    · exact he₁ e he
  env_ok := by
    rintro r r' hi ⟨he, hp⟩
    obtain ⟨hi', hr⟩ := K.env_ok hi he
    exact ⟨hi', fun i => ⟨hr i, [], by simp [hp], by simp⟩⟩
  died_ok := by
    intro i r hi
    obtain ⟨hi', hr⟩ := K.died_ok (i := i) hi
    exact ⟨hi', fun j hj => ⟨hr j hj, [], rfl, by simp⟩⟩
  step_ok := by
    rintro i c o r b r' hi hg ⟨ha, hs, hp⟩
    obtain ⟨hi', hr⟩ := K.step_ok hi (hg ha) hs
    refine ⟨hi', fun j hj => ⟨hr j hj, [_], hp, fun e he => ?_⟩⟩
    rw [List.mem_singleton] at he
    subst he
    exact fun hij => hj hij.symm

/-- What a program does under a contract it does on the runs with their histories. -/
theorem wp_withHistory {K : Contract S} {allowed : Nat → C → Op → Recorded Op Ans C W → Prop}
    {i : Nat} {c : C} {α : Type} {p : Prog Op Ans α} {Q : α → W → Prop} {r : Recorded Op Ans C W}
    (h : p.Wp K i c Q r.now) : p.Wp (K.withHistory allowed) i c (fun a r => Q a r.now) r := by
  induction p generalizing r with
  | ret a => exact h
  | call o k ih =>
    rintro r₁ ⟨hr, -⟩ hi
    obtain ⟨hg, hk⟩ := h r₁.now hr hi
    exact ⟨fun _ => hg, fun b r₂ hs hi₂ => ih b (hk b r₂.now hs.2.1 hi₂)⟩

/-- In a history, newest first, each operation finds what the one before it left of `f`, and the
newest left `a`. -/
def Linked {α : Type} (f : W → α) : α → List (Event Op Ans C W) → Prop
  | _, [] => True
  | a, e :: es => a = f e.after ∧ Linked f (f e.before) es

/-- What neither the world on its own nor a death touches is linked. -/
theorem linked_of_reaches {code : C → Prog Op Ans ρ} {α : Type} {f : W → α}
    (henv : ∀ {w w'}, S.env w w' → f w' = f w) (hdied : ∀ i w, f (S.died i w) = f w) {w₀ : W}
    {σ : Config Op Ans C (Recorded Op Ans C W) ρ}
    (h : Reaches S.recorded code (.start ⟨w₀, []⟩) σ) : Linked f (f σ.world.now) σ.world.past := by
  induction h with
  | refl => trivial
  | tail _ hs ih =>
    cases hs with
    | env he =>
      rw [show _ = _ from he.2, henv he.1]
      exact ih
    | spawn i c hu => exact ih
    | act hl hst =>
      rw [show _ = _ from hst.2]
      exact ⟨rfl, ih⟩
    | die hl =>
      exact (hdied _ _).symm ▸ ih

/-- What the newest operations leave alone is still as the one before them left it. -/
theorem Linked.eq_of_append {α : Type} {f : W → α} {a : α} {newer older : List (Event Op Ans C W)}
    {e : Event Op Ans C W} (h : Linked f a (newer ++ e :: older))
    (hsame : ∀ d ∈ newer, f d.after = f d.before) : a = f e.after := by
  induction newer generalizing a with
  | nil => exact h.1
  | cons d newer ih =>
    rw [h.1, hsame d List.mem_cons_self]
    exact ih h.2 fun x hx => hsame x (List.mem_cons_of_mem _ hx)

/-- A part of a linked history is linked. -/
theorem Linked.of_suffix {α : Type} {f : W → α} {a : α} {past : List (Event Op Ans C W)}
    {e : Event Op Ans C W} {es : List (Event Op Ans C W)} (h : Linked f a past)
    (he : (e :: es) <:+ past) : Linked f (f e.before) es := by
  induction past generalizing a with
  | nil =>
    have hnil : (e :: es) <:+ [] := he
    simp at hnil
  | cons d past ih =>
    rcases List.suffix_cons_iff.mp he with heq | he'
    · obtain ⟨rfl, rfl⟩ := List.cons.inj heq
      exact h.2
    · exact ih h.2 he'

/-- A run with its history is a run. -/
theorem reaches_of_recorded {code : C → Prog Op Ans ρ} {w₀ : W}
    {σ : Config Op Ans C (Recorded Op Ans C W) ρ}
    (h : Reaches S.recorded code (.start ⟨w₀, []⟩) σ) :
    Reaches S code (.start w₀) ⟨σ.world.now, σ.threads⟩ := by
  induction h with
  | refl => exact .refl
  | tail _ hs ih =>
    refine ih.tail ?_
    cases hs with
    | env he => exact .env he.1
    | spawn i c hu => exact .spawn i c hu
    | act hl hst => exact .act hl hst.1
    | die hl => exact .die hl

/-- A run under a condition is a run. -/
theorem reaches_of_given {allowed : Nat → C → Op → W → Prop} {code : C → Prog Op Ans ρ}
    {σ τ : Config Op Ans C W ρ} (h : Reaches (S.given allowed) code σ τ) : Reaches S code σ τ := by
  induction h with
  | refl => exact .refl
  | tail _ hs ih =>
    refine ih.tail ?_
    cases hs with
    | env he => exact .env he
    | spawn i c hu => exact .spawn i c hu
    | act hl hst => exact .act hl hst.2
    | die hl => exact .die hl

/-- What the world, every death and every guarded operation that meets the condition keep is kept by the
runs under the condition. -/
theorem Contract.keeps_given {K : Contract S} {allowed : Nat → C → Op → W → Prop}
    {code : C → Prog Op Ans ρ} {fresh : Nat → W → Prop} {Q : Nat → C → ρ → W → Prop}
    (hK : K.Covers code fresh Q) {w₀ : W} (hi : K.inv w₀) (hf : ∀ i, fresh i w₀) {P : W → Prop}
    (hstart : P w₀) (henv : ∀ {w w'}, K.inv w → P w → S.env w w' → P w')
    (hdied : ∀ {i w}, P w → P (S.died i w))
    (hact : ∀ {i c o w b w'}, K.inv w → K.guard i c o w → allowed i c o w → P w →
      S.step i c o w b w' → P w')
    {σ : Config Op Ans C W ρ} (h : Reaches (S.given allowed) code (.start w₀) σ) : P σ.world := by
  induction h with
  | refl => exact hstart
  | tail hab hs ih =>
    obtain ⟨hi', ht⟩ := Contract.sound hK hi hf (reaches_of_given hab)
    cases hs with
    | env he => exact henv hi' ih he
    | spawn i c hu => exact ih
    | act hl hs => exact hact hi' (Contract.guard_of_act hi' (ht _) hl) hs.1 ih hs.2
    | die hl => exact hdied ih

/-- Every operation of a run under a condition met it. -/
theorem allowed_of_past {allowed : Nat → C → Op → Recorded Op Ans C W → Prop}
    {code : C → Prog Op Ans ρ} {w₀ : W} {σ : Config Op Ans C (Recorded Op Ans C W) ρ}
    (h : Reaches (S.recorded.given allowed) code (.start ⟨w₀, []⟩) σ) {e : Event Op Ans C W}
    {es : List (Event Op Ans C W)} (he : (e :: es) <:+ σ.world.past) :
    allowed e.who e.call e.op ⟨e.before, es⟩ := by
  induction h with
  | refl =>
    have hnil : (e :: es) <:+ [] := he
    simp at hnil
  | tail _ hs ih =>
    cases hs with
    | env hen =>
      rw [show _ = _ from hen.2] at he
      exact ih he
    | spawn i c hu => exact ih he
    | @act i c o k b w hl hst =>
      have he' : (e :: es) <:+ w.past := he
      rw [show w.past = _ from hst.2.2, List.suffix_cons_iff] at he'
      rcases he' with heq | he'
      · obtain ⟨rfl, rfl⟩ := List.cons.inj heq
        exact hst.1
      · exact ih he'
    | die hl => exact ih he

/-- The history only grows. -/
theorem past_suffix_of_reaches {allowed : Nat → C → Op → Recorded Op Ans C W → Prop} {code : C → Prog Op Ans ρ}
    {σ τ : Config Op Ans C (Recorded Op Ans C W) ρ} (h : Reaches (S.recorded.given allowed) code σ τ) :
    σ.world.past <:+ τ.world.past := by
  induction h with
  | refl => exact List.suffix_rfl
  | tail _ hs ih =>
    cases hs with
    | env he => rwa [show _ = _ from he.2]
    | spawn i c hu => exact ih
    | act hl hst =>
      rw [show _ = _ from hst.2.2]
      exact ih.trans (List.suffix_cons _ _)
    | die hl => exact ih

end Histories

/-! ## Programs without a world -/

section Worldless

variable {Op : Type} {Ans : Op → Type} {C W α β L ε : Type} {S : Semantics Op Ans C W}

/-- Whatever the answers, the program calls only the operations `ok` and returns only `R`. -/
def Prog.Only (ok : Op → Prop) (R : α → Prop) : Prog Op Ans α → Prop
  | .ret a => R a
  | .call o k => ok o ∧ ∀ b, (k b).Only ok R

/-- The same for a procedure that leaves its locals alone. -/
def Proc.Only (ok : Op → Prop) (R : Except ε α → Prop) (m : Proc Op Ans L ε α) : Prop :=
  ∀ l, (m.exec l).Only ok fun r => R r.1 ∧ r.2 = l

variable {ok : Op → Prop}

theorem only_mono {p : Prog Op Ans α} {ok' : Op → Prop} {R R' : α → Prop} (h : p.Only ok R)
    (hok : ∀ o, ok o → ok' o) (hR : ∀ a, R a → R' a) : p.Only ok' R' := by
  induction p with
  | ret a => exact hR a h
  | call o k ih => exact ⟨hok o h.1, fun b => ih b (h.2 b)⟩

theorem prog_only_bind {p : Prog Op Ans α} {f : α → Prog Op Ans β} {R : α → Prop}
    {R' : β → Prop} (h : p.Only ok R) (hf : ∀ a, R a → (f a).Only ok R') :
    (p.bind f).Only ok R' := by
  induction p with
  | ret a => exact hf a h
  | call o k ih => exact ⟨h.1, fun b => ih b (h.2 b)⟩

theorem Proc.only_mono {m : Proc Op Ans L ε α} {ok' : Op → Prop} {R R' : Except ε α → Prop}
    (h : m.Only ok R) (hok : ∀ o, ok o → ok' o) (hR : ∀ r, R r → R' r) : m.Only ok' R' :=
  fun l => Program.only_mono (h l) hok fun _ hr => ⟨hR _ hr.1, hr.2⟩

theorem only_pure {a : α} {R : Except ε α → Prop} (h : R (.ok a)) :
    Proc.Only ok R (pure a : Proc Op Ans L ε α) := fun _ => ⟨h, rfl⟩

theorem only_throw {e : ε} {R : Except ε α → Prop} (h : R (.error e)) :
    Proc.Only ok R (throw e : Proc Op Ans L ε α) := fun _ => ⟨h, rfl⟩

theorem only_fromExcept {x : Except ε α} {R : Except ε α → Prop} (h : R x) :
    Proc.Only ok R (fromExcept x : Proc Op Ans L ε α) := by
  cases x with
  | ok a => exact only_pure h
  | error e => exact only_throw h

theorem only_perform {o : Op} (ho : ok o) {R : Except ε (Ans o) → Prop} (h : ∀ b, R (.ok b)) :
    Proc.Only ok R (perform o : Proc Op Ans L ε (Ans o)) := fun _ => ⟨ho, fun b => ⟨h b, rfl⟩⟩

theorem only_bind {m : Proc Op Ans L ε α} {f : α → Proc Op Ans L ε β} {R : Except ε α → Prop}
    {R' : Except ε β → Prop} (h : m.Only ok R) (hf : ∀ a, R (.ok a) → (f a).Only ok R')
    (he : ∀ e, R (.error e) → R' (.error e)) : (m >>= f).Only ok R' := by
  intro l
  rw [exec_bind]
  refine prog_only_bind (h l) ?_
  rintro ⟨r | a, l'⟩ ⟨hr, hl⟩
  · exact ⟨he r hr, hl⟩
  · have hl' : l' = l := hl
    subst hl'
    exact hf a hr l'

theorem only_attempt {o : Op} (ho : ok o) {e : Ans o → Except ε α} {R : Except ε α → Prop}
    (h : ∀ b, R (e b)) : Proc.Only ok R (attempt o e : Proc Op Ans L ε α) := by
  refine only_bind (R := fun r => ∃ b, r = .ok b) (only_perform ho fun b => ⟨b, rfl⟩)
    (fun b _ => only_fromExcept (h b)) ?_
  rintro e' ⟨b, hb⟩
  cases hb

/-- A program that calls only operations which keep `P` keeps `P`. -/
theorem wp_of_only {K : Contract S} {i : Nat} {c : C} {P : W → Prop} (hP : K.Stable i P)
    (hok : ∀ o, ok o → ∀ w₁, P w₁ → K.inv w₁ → K.guard i c o w₁ ∧ ∀ b w₂,
      S.step i c o w₁ b w₂ → K.inv w₂ → P w₂)
    {p : Prog Op Ans α} {R : α → Prop} (h : p.Only ok R) {w : W} (hw : P w) :
    p.Wp K i c (fun a w => R a ∧ P w) w := by
  induction p generalizing w with
  | ret a => exact ⟨h, hw⟩
  | call o k ih =>
    intro w₁ hr hi
    obtain ⟨hg, hk⟩ := hok o h.1 w₁ (hP hw hr hi) hi
    exact ⟨hg, fun b w₂ hs hi₂ => ih b (h.2 b) (hk b w₂ hs hi₂)⟩

theorem Proc.wp_of_only {K : Contract S} {i : Nat} {c : C} {P : W → Prop} (hP : K.Stable i P)
    (hok : ∀ o, ok o → ∀ w₁, P w₁ → K.inv w₁ → K.guard i c o w₁ ∧ ∀ b w₂,
      S.step i c o w₁ b w₂ → K.inv w₂ → P w₂)
    {m : Proc Op Ans L ε α} {R : Except ε α → Prop} (h : m.Only ok R) {l : L} {w : W}
    (hw : P w) {Q : Except ε α → L → W → Prop} (hQ : ∀ r w', R r → P w' → Q r l w') :
    m.Wp K i c Q l w := by
  refine Program.wp_mono (Program.wp_of_only hP hok (h l) hw) ?_
  rintro ⟨r, l'⟩ w' ⟨⟨hr, hl⟩, hp⟩
  have hl' : l' = l := hl
  subst hl'
  exact hQ r w' hr hp

/-- Whatever the answers, the procedure calls only the operations `ok` and keeps `J` of its
locals. -/
def Proc.Calls (ok : Op → Prop) (J : L → Prop) (m : Proc Op Ans L ε α) : Prop :=
  ∀ l, J l → (m.exec l).Only ok fun r => J r.2

variable {J : L → Prop}

theorem Proc.Only.calls {m : Proc Op Ans L ε α} {R : Except ε α → Prop} (h : m.Only ok R) :
    m.Calls ok J := by
  intro l hl
  refine Program.only_mono (h l) (fun _ h => h) ?_
  rintro ⟨r, l'⟩ ⟨-, hr⟩
  have hl' : l' = l := hr
  exact hl' ▸ hl

theorem Proc.Calls.mono {m : Proc Op Ans L ε α} {ok' : Op → Prop} (h : m.Calls ok J)
    (hok : ∀ o, ok o → ok' o) : m.Calls ok' J :=
  fun l hl => Program.only_mono (h l hl) hok fun _ h => h

theorem calls_pure (a : α) : Proc.Calls ok J (pure a : Proc Op Ans L ε α) := fun _ hl => hl

theorem calls_throw (e : ε) : Proc.Calls ok J (throw e : Proc Op Ans L ε α) := fun _ hl => hl

theorem calls_getLocals : Proc.Calls ok J (getLocals : Proc Op Ans L ε L) := fun _ hl => hl

theorem calls_modifyLocals {f : L → L} (h : ∀ l, J l → J (f l)) :
    Proc.Calls ok J (modifyLocals f : Proc Op Ans L ε Unit) := h

theorem calls_fromExcept (x : Except ε α) : Proc.Calls ok J (fromExcept x : Proc Op Ans L ε α) :=
  Proc.Only.calls (R := fun _ => True) (only_fromExcept trivial)

theorem calls_perform {o : Op} (ho : ok o) : Proc.Calls ok J (perform o : Proc Op Ans L ε (Ans o)) :=
  fun _ hl => ⟨ho, fun _ => hl⟩

theorem calls_attempt {o : Op} (ho : ok o) (e : Ans o → Except ε α) :
    Proc.Calls ok J (attempt o e : Proc Op Ans L ε α) :=
  Proc.Only.calls (R := fun _ => True) (only_attempt ho fun _ => trivial)

/-- Sequencing after a procedure whose result is known. -/
theorem only_bind_calls {m : Proc Op Ans L ε α} {f : α → Proc Op Ans L ε β} {R : Except ε α → Prop}
    (h : m.Only ok R) (hf : ∀ a, R (.ok a) → (f a).Calls ok J) : (m >>= f).Calls ok J := by
  intro l hl
  rw [exec_bind]
  refine prog_only_bind (h l) ?_
  rintro ⟨r | a, l'⟩ ⟨hr, hl'⟩
  · have hl' : l' = l := hl'
    exact hl' ▸ hl
  · have hl' : l' = l := hl'
    exact hf a hr l' (hl' ▸ hl)

theorem calls_bind {m : Proc Op Ans L ε α} {f : α → Proc Op Ans L ε β} (h : m.Calls ok J)
    (hf : ∀ a, (f a).Calls ok J) : (m >>= f).Calls ok J := by
  intro l hl
  rw [exec_bind]
  refine prog_only_bind (h l hl) ?_
  rintro ⟨r | a, l'⟩ hl'
  · exact hl'
  · exact hf a l' hl'

theorem calls_tryFinally {m : Proc Op Ans L ε α} {fin : Proc Op Ans L ε Unit} (h : m.Calls ok J)
    (hf : fin.Calls ok J) : (tryFinally m fin).Calls ok J := by
  intro l hl
  refine prog_only_bind (h l hl) fun r hr => prog_only_bind (hf r.2 hr) ?_
  rintro ⟨s | s, l'⟩ hs
  · exact hs
  · exact hs

theorem calls_tryCatch {m : Proc Op Ans L ε α} {h : ε → Proc Op Ans L ε α} (hm : m.Calls ok J)
    (hh : ∀ e, (h e).Calls ok J) : (tryCatch' m h).Calls ok J := by
  intro l hl
  refine prog_only_bind (hm l hl) ?_
  rintro ⟨r | a, l'⟩ hl'
  · exact hh r l' hl'
  · exact hl'

/-- A procedure that calls only operations which keep `P` keeps `P`. -/
theorem wp_of_calls {K : Contract S} {i : Nat} {c : C} {P : W → Prop} (hP : K.Stable i P)
    (hok : ∀ o, ok o → ∀ w₁, P w₁ → K.inv w₁ → K.guard i c o w₁ ∧ ∀ b w₂,
      S.step i c o w₁ b w₂ → K.inv w₂ → P w₂)
    {m : Proc Op Ans L ε α} (h : m.Calls ok J) {l : L} (hl : J l) {w : W} (hw : P w)
    {Q : Except ε α → L → W → Prop} (hQ : ∀ r l w', J l → P w' → Q r l w') :
    m.Wp K i c Q l w :=
  Program.wp_mono (Program.wp_of_only hP hok (h l hl) hw) fun r w' hw' => hQ r.1 r.2 w' hw'.1 hw'.2

end Worldless

end Coinpilot.Lib.Program
