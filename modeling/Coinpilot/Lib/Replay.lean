import Coinpilot.Lib.Trace

/-!
# Replaying a schedule

A `Responder` answers operations by a function, with a proof that each answer is one the world may give.
`replay` runs a list of turns against it, and what it reaches is reachable (`replay_reaches`).
`play` runs one program by itself (`play_runsAlone`).
-/

set_option autoImplicit false

namespace Coinpilot.Lib.Program

variable {Op : Type} {Ans : Op → Type} {C W ρ M : Type}

/-- A world that answers by a function. `M` is what a turn may say about the answer. -/
structure Responder (S : Semantics Op Ans C W) (M : Type) where
  respond : M → Nat → C → (o : Op) → W → Option (Ans o × W)
  responds : ∀ {m i c o w b w'}, respond m i c o w = some (b, w') → S.step i c o w b w'

/-- One turn: a new thread, some operations of one thread, or its death. -/
inductive Turn (C M : Type) where
  | spawn (i : Nat) (c : C)
  | act (i : Nat) (m : M)
  | die (i : Nat)

variable {S : Semantics Op Ans C W} (code : C → Prog Op Ans ρ) (r : Responder S M)

/-- One turn from a configuration, if it can be taken. -/
def turn (σ : Config Op Ans C W ρ) : Turn C M → Option (Config Op Ans C W ρ)
  | .spawn i c =>
      match σ.threads i with
      | .unborn => some { σ with threads := Function.update σ.threads i (.live c (code c)) }
      | _ => none
  | .act i m =>
      match σ.threads i with
      | .live c (.call o k) =>
          (r.respond m i c o σ.world).map fun a =>
            ⟨a.2, Function.update σ.threads i (.live c (k a.1))⟩
      | _ => none
  | .die i =>
      match σ.threads i with
      | .live c _ => some ⟨S.died i σ.world, Function.update σ.threads i (.gone c)⟩
      | _ => none

/-- The turns in order. -/
def replay : Config Op Ans C W ρ → List (Turn C M) → Option (Config Op Ans C W ρ)
  | σ, [] => some σ
  | σ, t :: ts =>
      match turn code r σ t with
      | some τ => replay τ ts
      | none => none

theorem turn_step {σ τ : Config Op Ans C W ρ} {t : Turn C M} (h : turn code r σ t = some τ) :
    Step S code σ τ := by
  cases t with
  | spawn i c =>
    unfold turn at h
    dsimp only at h
    split at h
    · rename_i hu
      cases h
      exact .spawn i c hu
    · cases h
  | act i m =>
    unfold turn at h
    dsimp only at h
    split at h
    · rename_i c o k hl
      obtain ⟨⟨b, w⟩, hr, rfl⟩ := Option.map_eq_some_iff.mp h
      exact .act hl (r.responds hr)
    · cases h
  | die i =>
    unfold turn at h
    dsimp only at h
    split at h
    · rename_i c p hl
      cases h
      exact .die hl
    · cases h

/-- What a replay reaches is reachable. -/
theorem replay_reaches {σ τ : Config Op Ans C W ρ} {ts : List (Turn C M)}
    (h : replay code r σ ts = some τ) : Reaches S code σ τ := by
  induction ts generalizing σ with
  | nil =>
    cases h
    exact .refl
  | cons t ts ih =>
    unfold replay at h
    split at h
    · rename_i σ' ht
      exact .head (turn_step code r ht) (ih h)
    · cases h

/-- A replay that ends in a configuration that passes a check shows that one is reachable. -/
theorem reaches_of_replay (σ : Config Op Ans C W ρ) (ts : List (Turn C M))
    (check : Config Op Ans C W ρ → Bool) (h : (replay code r σ ts).any check = true) :
    ∃ τ, Reaches S code σ τ ∧ check τ = true := by
  obtain ⟨τ, hτ, hc⟩ := (Option.any_eq_true _ _).mp h
  exact ⟨τ, replay_reaches code r hτ, hc⟩

/-- The same world with its history. -/
def Responder.recorded (r : Responder S M) : Responder S.recorded M where
  respond m i c o w := (r.respond m i c o w.now).map fun a =>
    (a.1, ⟨a.2, ⟨i, c, o, a.1, w.now, a.2⟩ :: w.past⟩)
  responds {m i c o w b w'} h := by
    obtain ⟨⟨b', w''⟩, hr, heq⟩ := Option.map_eq_some_iff.mp h
    cases heq
    exact ⟨r.responds hr, rfl⟩

/-- A thread with nothing left to do. -/
def Thread.ended : Thread Op Ans C ρ → Bool
  | .unborn => true
  | .live _ (.ret _) => true
  | .live _ (.call _ _) => false
  | .gone _ => true

/-- The call of a thread that has ended, and what it gave. -/
def Thread.result : Thread Op Ans C ρ → Option (C × ρ)
  | .live c (.ret a) => some (c, a)
  | _ => none

theorem Thread.live_of_result {t : Thread Op Ans C ρ} {c : C} {a : ρ} (h : t.result = some (c, a)) :
    t = .live c (.ret a) := by
  cases t with
  | unborn => cases h
  | gone _ => cases h
  | live c' p =>
    cases p with
    | call _ _ => cases h
    | ret a' =>
      cases h
      rfl

/-- The threads that a schedule starts. -/
def Turn.started : Turn C M → Option Nat
  | .spawn i _ => some i
  | _ => none

theorem turn_unborn {σ τ : Config Op Ans C W ρ} {t : Turn C M} (h : turn code r σ t = some τ)
    {j : Nat} (hj : t.started ≠ some j) (hu : σ.threads j = .unborn) : τ.threads j = .unborn := by
  cases t with
  | spawn i c =>
    have hij : j ≠ i := fun heq => hj (by rw [heq]; rfl)
    unfold turn at h
    dsimp only at h
    split at h
    · cases h
      exact (Function.update_of_ne hij _ _).trans hu
    · cases h
  | act i m =>
    unfold turn at h
    dsimp only at h
    split at h
    · rename_i c o k hl
      have hij : j ≠ i := fun heq => by
        rw [← heq, hu] at hl
        cases hl
      obtain ⟨⟨b, w⟩, -, rfl⟩ := Option.map_eq_some_iff.mp h
      exact (Function.update_of_ne hij _ _).trans hu
    · cases h
  | die i =>
    unfold turn at h
    dsimp only at h
    split at h
    · rename_i c p hl
      have hij : j ≠ i := fun heq => by
        rw [← heq, hu] at hl
        cases hl
      cases h
      exact (Function.update_of_ne hij _ _).trans hu
    · cases h

/-- A thread that no turn starts is not started. -/
theorem replay_unborn {σ τ : Config Op Ans C W ρ} {ts : List (Turn C M)}
    (h : replay code r σ ts = some τ) {j : Nat} (hj : j ∉ ts.filterMap Turn.started)
    (hu : σ.threads j = .unborn) : τ.threads j = .unborn := by
  induction ts generalizing σ with
  | nil =>
    cases h
    exact hu
  | cons t ts ih =>
    unfold replay at h
    split at h
    · rename_i σ' ht
      have hstarted : t.started ≠ some j := fun heq => hj (by simp [heq])
      apply ih h _ (turn_unborn code r ht hstarted hu)
      intro hmem
      apply hj
      rw [List.filterMap_cons]
      split
      · exact hmem
      · exact List.mem_cons_of_mem _ hmem
    · cases h

/-- A replay in which every thread that it starts has ended reaches a configuration with nothing in
progress. -/
theorem reaches_ended_of_replay (w : W) (ts : List (Turn C M)) (check : Config Op Ans C W ρ → Bool)
    (h : (replay code r (.start w) ts).any (fun τ => check τ &&
      (ts.filterMap Turn.started).all fun i => (τ.threads i).ended) = true) :
    ∃ τ, Reaches S code (.start w) τ ∧ (∀ i, (τ.threads i).ended = true) ∧ check τ = true := by
  obtain ⟨τ, hτ, hc⟩ := (Option.any_eq_true _ _).mp h
  simp only [Bool.and_eq_true, List.all_eq_true] at hc
  refine ⟨τ, replay_reaches code r hτ, fun i => ?_, hc.1⟩
  by_cases hi : i ∈ ts.filterMap Turn.started
  · exact hc.2 i hi
  · rw [replay_unborn code r hτ hi rfl]
    rfl

/-- The same world, where an operation that does not meet a condition is not answered. -/
def Responder.given (r : Responder S M) (allowed : Nat → C → Op → W → Prop)
    [∀ i c o w, Decidable (allowed i c o w)] : Responder (S.given allowed) M where
  respond m i c o w := if allowed i c o w then r.respond m i c o w else none
  responds {m i c o w b w'} h := by
    split at h
    · rename_i ha
      exact ⟨ha, r.responds h⟩
    · cases h

/-! ## One program by itself -/

section Alone

variable {α β L ε : Type} (answer : (o : Op) → W → Ans o × W)

/-- The end of a program whose operations are answered by a function. -/
def Prog.play : Prog Op Ans α → W → α × W
  | .ret a, w => (a, w)
  | .call o k, w => (k (answer o w).1).play (answer o w).2

/-- The same for a procedure from given locals. -/
def Proc.play (m : Proc Op Ans L ε α) (l : L) (w : W) : (Except ε α × L) × W := (m.exec l).play answer w

theorem play_bind (p : Prog Op Ans α) (f : α → Prog Op Ans β) (w : W) :
    (p.bind f).play answer w = (f (p.play answer w).1).play answer (p.play answer w).2 := by
  induction p generalizing w with
  | ret a => rfl
  | call o k ih => exact ih (answer o w).1 (answer o w).2

/-- Sequencing after a part that returned. -/
theorem proc_play_bind_ok {m : Proc Op Ans L ε α} {f : α → Proc Op Ans L ε β} {l l' : L} {w w' : W}
    {a : α} (h : m.play answer l w = ((.ok a, l'), w')) :
    (m >>= f).play answer l w = (f a).play answer l' w' := by
  rw [Proc.play, exec_bind, play_bind]
  rw [Proc.play] at h
  rw [h]
  rfl

/-- Sequencing after a part that raised. -/
theorem proc_play_bind_error {m : Proc Op Ans L ε α} {f : α → Proc Op Ans L ε β} {l l' : L} {w w' : W}
    {e : ε} (h : m.play answer l w = ((.error e, l'), w')) :
    (m >>= f).play answer l w = ((.error e, l'), w') := by
  rw [Proc.play, exec_bind, play_bind]
  rw [Proc.play] at h
  rw [h]
  rfl

theorem proc_play_attempt {o : Op} {e : Ans o → Except ε α} {l : L} {w : W} :
    (attempt o e : Proc Op Ans L ε α).play answer l w = ((e (answer o w).1, l), (answer o w).2) := by
  have hperform : (perform o : Proc Op Ans L ε (Ans o)).play answer l w =
      ((.ok (answer o w).1, l), (answer o w).2) := rfl
  rw [attempt, proc_play_bind_ok answer hperform]
  cases e (answer o w).1 with
  | ok a => rfl
  | error x => rfl

/-- The operations of that run, with their answers. -/
def Prog.played : Prog Op Ans α → W → List (Answer Op Ans)
  | .ret _, _ => []
  | .call o k, w => ⟨o, (answer o w).1⟩ :: (k (answer o w).1).played (answer o w).2

theorem path_played (p : Prog Op Ans α) (w : W) : p.Path (p.played answer w) (p.play answer w).1 := by
  induction p generalizing w with
  | ret a => exact .ret a
  | call o k ih => exact .call (ih _ _)

theorem proc_path_played (m : Proc Op Ans L ε α) (l : L) (w : W) :
    m.Path l ((m.exec l).played answer w) (m.play answer l w).1.1 (m.play answer l w).1.2 :=
  path_played answer (m.exec l) w

/-- Where the world may answer so, a thread may run the program alone to that end. -/
theorem play_runsAlone {i : Nat} {c : C}
    (h : ∀ o w, S.step i c o w (answer o w).1 (answer o w).2) (p : Prog Op Ans α) (w : W) :
    RunsAlone S i c p w (p.play answer w).1 (p.play answer w).2 := by
  induction p generalizing w with
  | ret a => exact .ret a w
  | call o k ih => exact .call (h o w) (ih _ _)

end Alone

end Coinpilot.Lib.Program
