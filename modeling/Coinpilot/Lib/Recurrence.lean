import Mathlib.Order.Lattice
import Mathlib.Data.List.Basic

/-!
# A recurring operation

An operation has a time at which it is next due. A clock that does not go back visits it, once per
step at most, where it is due: a visit at `now` moves the next time to one that `after now` allows,
or is refused and leaves it (`Step`). Then a visit that comes after a move has a time that `after`
allows between the two, an operation whose last visit was refused is due, and the next time is one
that `after` allows for the last move (`Sound`, `Sound.step`, `Sound.run`).
-/

set_option autoImplicit false

namespace Coinpilot.Lib

variable {T : Type}

/-- A visit of an operation that was due, and whether it moved the next time. -/
structure Visit (T : Type) where
  time : T
  moved : Bool
  deriving DecidableEq, Repr

/-- When an operation is next due, and its visits, oldest first. -/
structure Recurrence (T : Type) where
  next : Option T
  visits : List (Visit T)

namespace Recurrence

variable [LinearOrder T] (after : T → Option T → Prop)

/-- One step of the clock to `now`. -/
inductive Step (now : T) : Recurrence T → Recurrence T → Prop where
  | stay (r : Recurrence T) : Step now r r
  | refused {r : Recurrence T} {n : T} : r.next = some n → n ≤ now →
      Step now r ⟨r.next, r.visits ++ [⟨now, false⟩]⟩
  | moved {r : Recurrence T} {n : T} {next : Option T} : r.next = some n → n ≤ now →
      after now next → Step now r ⟨next, r.visits ++ [⟨now, true⟩]⟩

/-- Steps of a clock that does not go back. -/
inductive Run : T → Recurrence T → T → Recurrence T → Prop where
  | refl (clock : T) (r : Recurrence T) : Run clock r clock r
  | step {clock clock' now : T} {r r' r'' : Recurrence T} : Run clock r clock' r' →
      clock' ≤ now → Step after now r' r'' → Run clock r now r''

/-- What holds of the visits up to `clock`. -/
structure Sound (clock : T) (r : Recurrence T) : Prop where
  past : ∀ v ∈ r.visits, v.time ≤ clock
  next_of : ∀ v, (r.visits.filter Visit.moved).getLast? = some v → after v.time r.next
  since : ∀ v ∈ r.visits, v.moved = true → ∃ t, v.time ≤ t ∧ after t r.next
  due : ∀ v, r.visits.getLast? = some v → v.moved = false → ∃ n, r.next = some n ∧ n ≤ v.time
  separated : r.visits.Pairwise fun v w =>
    v.moved = true → ∃ t s, v.time ≤ t ∧ after t (some s) ∧ s ≤ w.time

theorem Sound.start (clock : T) (next : Option T) : Sound after clock ⟨next, []⟩ :=
  ⟨by simp, by simp, by simp, by simp, by simp⟩

variable {after}

/-- A step whose moves meet a further condition. -/
theorem Step.restrict {now : T} {r r' : Recurrence T} (h : Step after now r r') {P : T → Prop}
    (hP : ∀ n, r.next = some n → n ≤ now → P now) :
    Step (fun t next => after t next ∧ P t) now r r' := by
  cases h with
  | stay => exact .stay r
  | refused hn hdue => exact .refused hn hdue
  | moved hn hdue hafter => exact .moved hn hdue ⟨hafter, hP _ hn hdue⟩

/-- The visit of an operation that is due is separated from the moves before it. -/
theorem Sound.separated_append {clock now : T} {r : Recurrence T} (h : Sound after clock r) {n : T}
    (hn : r.next = some n) (hdue : n ≤ now) (moved : Bool) :
    (r.visits ++ [(⟨now, moved⟩ : Visit T)]).Pairwise fun v w =>
      v.moved = true → ∃ t s, v.time ≤ t ∧ after t (some s) ∧ s ≤ w.time := by
  apply List.pairwise_append.mpr
  refine ⟨h.separated, by simp, fun v hv w hw hmoved => ?_⟩
  obtain ⟨t, hle, hnext⟩ := h.since v hv hmoved
  rw [List.mem_singleton] at hw
  subst hw
  exact ⟨t, n, hle, hn ▸ hnext, hdue⟩

theorem Sound.step {clock now : T} {r r' : Recurrence T} (h : Sound after clock r)
    (hclock : clock ≤ now) (hs : Step after now r r') : Sound after now r' := by
  have hpast : ∀ v ∈ r.visits, v.time ≤ now := fun v hv => le_trans (h.past v hv) hclock
  cases hs with
  | stay => exact ⟨hpast, h.next_of, h.since, h.due, h.separated⟩
  | @refused n hn hdue =>
    constructor
    · intro v hv
      rcases List.mem_append.mp hv with hv | hv
      · exact hpast v hv
      · rw [List.mem_singleton] at hv
        exact hv ▸ le_refl now
    · intro v hv
      apply h.next_of v
      simpa using hv
    · intro v hv hmoved
      rcases List.mem_append.mp hv with hv | hv
      · exact h.since v hv hmoved
      · rw [List.mem_singleton] at hv
        subst hv
        cases hmoved
    · intro v hv _
      simp only [List.getLast?_append, List.getLast?_singleton, Option.some_or,
        Option.some.injEq] at hv
      subst hv
      exact ⟨n, hn, hdue⟩
    · exact h.separated_append hn hdue false
  | @moved n next hn hdue hafter =>
    constructor
    · intro v hv
      rcases List.mem_append.mp hv with hv | hv
      · exact hpast v hv
      · rw [List.mem_singleton] at hv
        exact hv ▸ le_refl now
    · intro v hv
      simp only [List.filter_append, List.filter_cons, if_true, List.filter_nil,
        List.getLast?_append, List.getLast?_singleton, Option.some_or, Option.some.injEq] at hv
      subst hv
      exact hafter
    · intro v hv _
      refine ⟨now, ?_, hafter⟩
      rcases List.mem_append.mp hv with hv | hv
      · exact hpast v hv
      · rw [List.mem_singleton] at hv
        exact hv ▸ le_refl now
    · intro v hv hmoved
      simp only [List.getLast?_append, List.getLast?_singleton, Option.some_or,
        Option.some.injEq] at hv
      subst hv
      cases hmoved
    · exact h.separated_append hn hdue true

theorem Sound.run {clock clock' : T} {r r' : Recurrence T} (h : Sound after clock r)
    (hr : Run after clock r clock' r') : Sound after clock' r' := by
  induction hr with
  | refl => exact h
  | step _ hclock hs ih => exact (ih h).step hclock hs

end Recurrence

end Coinpilot.Lib
