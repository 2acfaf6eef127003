import Mathlib.Data.List.Chain
import Mathlib.Data.List.Basic
import Mathlib.Data.Bool.Basic

/-!
# A streak of failures and its threshold

Trials come one after another, and the failures in a row are counted. The streak reaches its
threshold where the count comes to equal it (`Trial.Reaches`), and is past it where the count is no
less. The threshold may be another one at each trial. Where it does not move across the streak
(`Steady`), a run of failures reaches it once if it gets past it, and not at all otherwise
(`count_reaches`), and what ends the run finds the streak past it exactly then (`past_iff`).
-/

set_option autoImplicit false

namespace Coinpilot.Lib.Streak

/-- A trial, the failures in a row before it, and the threshold in force. -/
structure Trial where
  failed : Bool
  before : Nat
  threshold : Nat
  threshold_pos : 0 < threshold

instance : DecidableEq Trial := fun e e' =>
  decidable_of_iff (e.failed = e'.failed ∧ e.before = e'.before ∧ e.threshold = e'.threshold)
    (by cases e; cases e'; simp)

/-- The failures in a row after it. -/
def Trial.after (e : Trial) : Nat := if e.failed then e.before + 1 else 0

/-- A failure with which the streak comes to equal the threshold. -/
def Trial.Reaches (e : Trial) : Prop := e.failed = true ∧ e.after = e.threshold

/-- The streak after it is at or above the threshold. -/
def Trial.Past (e : Trial) : Prop := e.threshold ≤ e.after

instance (e : Trial) : Decidable e.Reaches := inferInstanceAs (Decidable (_ ∧ _))

instance (e : Trial) : Decidable e.Past := inferInstanceAs (Decidable (_ ≤ _))

/-- The next trial counts on from the one before. -/
def Continues (e e' : Trial) : Prop := e'.before = e.after

/-- The threshold has not moved across the streak between two trials. -/
def Steady (e e' : Trial) : Prop := e.threshold ≤ e.after ↔ e'.threshold ≤ e.after

instance (e e' : Trial) : Decidable (Steady e e') := inferInstanceAs (Decidable (_ ↔ _))

theorem Trial.after_failed {e : Trial} (h : e.failed = true) : e.after = e.before + 1 := if_pos h

/-- A failure gets past the threshold by reaching it, or was past it before. -/
theorem Trial.past_of_failed {e : Trial} (h : e.failed = true) :
    e.Past ↔ e.threshold ≤ e.before ∨ e.Reaches := by
  rw [Past, Reaches, after_failed h]
  constructor
  · intro hle
    rcases Nat.lt_or_ge e.before e.threshold with hlt | hge
    · exact .inr ⟨h, by omega⟩
    · exact .inl hge
  · rintro (hge | ⟨-, heq⟩)
    · omega
    · omega

/-- A streak that was past its threshold does not come to equal it. -/
theorem Trial.not_reaches {e : Trial} (h : e.threshold ≤ e.before) : ¬e.Reaches := by
  rintro ⟨hfailed, heq⟩
  rw [after_failed hfailed] at heq
  omega

section Runs

variable {e : Trial} {run : List Trial}

/-- The trial after a failure finds the streak past its threshold exactly where the failure left it
so. -/
theorem past_before_iff {e' : Trial} (hfollows : Continues e e') (hsteady : Steady e e') :
    e'.threshold ≤ e'.before ↔ e.Past := by
  rw [hfollows, Trial.Past]
  exact hsteady.symm

/-- A run of failures reaches the threshold once if it gets past it, and not at all if it began past
it or never gets there. -/
theorem count_reaches (hfailed : ∀ x ∈ e :: run, x.failed = true)
    (hfollows : (e :: run).IsChain Continues) (hsteady : (e :: run).IsChain Steady) :
    (e :: run).countP (fun x => decide x.Reaches) =
      if e.threshold ≤ e.before then 0 else if ∃ x ∈ e :: run, x.Past then 1 else 0 := by
  induction run generalizing e with
  | nil =>
    have hpast := Trial.past_of_failed (hfailed e List.mem_cons_self)
    by_cases hbefore : e.threshold ≤ e.before
    · rw [if_pos hbefore, List.countP_singleton, if_neg]
      simpa using Trial.not_reaches hbefore
    · simp [hbefore, hpast, List.countP_singleton]
  | cons e' rest ih =>
    rw [List.isChain_cons_cons] at hfollows hsteady
    have hpast := Trial.past_of_failed (hfailed e List.mem_cons_self)
    have hrest := ih (fun x hx => hfailed x (List.mem_cons_of_mem _ hx)) hfollows.2 hsteady.2
    have hnext := past_before_iff hfollows.1 hsteady.1
    rw [List.countP_cons, hrest]
    -- past the threshold after `e`, the rest of the run does not reach it again
    by_cases hbefore : e.threshold ≤ e.before
    · have hnot := Trial.not_reaches hbefore
      rw [if_pos hbefore, if_pos (hnext.mpr (hpast.mpr (.inl hbefore)))]
      simp [hnot]
    · by_cases hreaches : e.Reaches
      · have hgone : e.Past := hpast.mpr (.inr hreaches)
        have hexists : ∃ x ∈ e :: e' :: rest, x.Past := ⟨e, List.mem_cons_self, hgone⟩
        rw [if_neg hbefore, if_pos (hnext.mpr hgone), if_pos hexists, if_pos (decide_eq_true hreaches)]
      · have hstill : ¬e.Past := by
          rw [hpast]
          exact not_or.mpr ⟨hbefore, hreaches⟩
        rw [if_neg hbefore, if_neg (hnext.not.mpr hstill)]
        simp [hreaches, hstill]

/-- What comes after a run of failures finds the streak past its threshold exactly where the run got
past it, or began past it. -/
theorem past_iff {last : Trial} (hfailed : ∀ x ∈ e :: run, x.failed = true)
    (hfollows : (e :: run ++ [last]).IsChain Continues) (hsteady : (e :: run ++ [last]).IsChain Steady) :
    last.threshold ≤ last.before ↔ e.threshold ≤ e.before ∨ ∃ x ∈ e :: run, x.Past := by
  induction run generalizing e with
  | nil =>
    have hpast := Trial.past_of_failed (hfailed e List.mem_cons_self)
    have hnext := past_before_iff (List.isChain_pair.mp hfollows) (List.isChain_pair.mp hsteady)
    rw [hnext]
    simp only [List.mem_singleton, exists_eq_left]
    tauto
  | cons e' rest ih =>
    rw [List.cons_append, List.cons_append, List.isChain_cons_cons] at hfollows hsteady
    have hpast := Trial.past_of_failed (hfailed e List.mem_cons_self)
    have hrest := ih (fun x hx => hfailed x (List.mem_cons_of_mem _ hx)) hfollows.2 hsteady.2
    have hnext := past_before_iff hfollows.1 hsteady.1
    rw [hrest, hnext]
    simp only [List.mem_cons, exists_eq_or_imp]
    tauto

/-- A run of failures begins with no failure before it. -/
theorem before_run {pre : List Trial} {rest : List Trial}
    (hfollows : (pre ++ e :: rest).IsChain Continues)
    (hstart : ∀ x ∈ (pre ++ e :: rest).head?, x.before = 0)
    (hpre : ∀ x ∈ pre.getLast?, x.failed = false) : e.before = 0 := by
  cases hlast : pre.getLast? with
  | none =>
    rw [List.getLast?_eq_none_iff.mp hlast] at hstart
    exact hstart e rfl
  | some last =>
    have hrel : Continues last e := (List.isChain_append.mp hfollows).2.2 last hlast e rfl
    rw [hrel, Trial.after, if_neg]
    simp [hpre last hlast]

/-- Among trials that follow one another with a steady threshold, a run of failures that is as long
as it gets reaches the threshold once or never, and what ends it finds the streak past the threshold
exactly where the run got past it. -/
theorem maximal_run {pre run post : List Trial} (hfollows : (pre ++ run ++ post).IsChain Continues)
    (hsteady : (pre ++ run ++ post).IsChain Steady)
    (hstart : ∀ x ∈ (pre ++ run ++ post).head?, x.before = 0) (hne : run ≠ [])
    (hfailed : ∀ x ∈ run, x.failed = true) (hpre : ∀ x ∈ pre.getLast?, x.failed = false) :
    run.countP (fun x => decide x.Reaches) = (if ∃ x ∈ run, x.Past then 1 else 0) ∧
      ∀ last ∈ post.head?, last.threshold ≤ last.before ↔ ∃ x ∈ run, x.Past := by
  obtain ⟨e, run, rfl⟩ := List.exists_cons_of_ne_nil hne
  rw [List.append_assoc] at hfollows hsteady hstart
  have hbefore : ¬e.threshold ≤ e.before := by
    rw [before_run hfollows hstart hpre]
    exact not_le.mpr e.threshold_pos
  have hfollows' := hfollows.right_of_append
  have hsteady' := hsteady.right_of_append
  constructor
  · rw [count_reaches hfailed hfollows'.left_of_append hsteady'.left_of_append, if_neg hbefore]
  · intro last hlast
    obtain ⟨post, rfl⟩ : ∃ rest, post = last :: rest := by
      cases post with
      | nil => cases hlast
      | cons x rest => exact ⟨rest, by rw [Option.some.inj hlast]⟩
    rw [List.append_cons] at hfollows' hsteady'
    rw [past_iff hfailed hfollows'.left_of_append hsteady'.left_of_append]
    exact or_iff_right hbefore

end Runs

end Coinpilot.Lib.Streak
