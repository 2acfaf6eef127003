import Mathlib.Data.List.Infix

/-!
# Replacing a word in a text

`replace` goes through a text from the left and puts `new` for every occurrence of `old` that does not
overlap the one before. Nothing that has no letter in common with `new` comes about where the pieces
meet: it stands in what was replaced only if it stood in the text (`infix_of_infix_replace`), and `old`
itself does not stand there at all (`not_infix_replace`).
-/

set_option autoImplicit false

namespace Coinpilot.Lib

/-! ## Words in a text -/

section Words

variable {α : Type} {word new : List α}

/-- Two words without a letter in common. -/
def Apart (word new : List α) : Prop := ∀ c ∈ word, c ∉ new

/-- A word apart from `new` begins no text that begins with `new`. -/
theorem not_prefix_append (hnew : new ≠ []) (hword : word ≠ []) (hapart : Apart word new) (rest : List α) :
    ¬word <+: new ++ rest := by
  intro h
  cases word with
  | nil => exact hword rfl
  | cons c word =>
    cases new with
    | nil => exact hnew rfl
    | cons d new =>
      rw [List.cons_append, List.cons_prefix_cons] at h
      obtain ⟨rfl, -⟩ := h
      exact hapart c List.mem_cons_self List.mem_cons_self

/-- A word apart from `new` stands after it, where it stands at all. -/
theorem infix_of_infix_append (hword : word ≠ []) (hapart : Apart word new) {rest : List α}
    (h : word <:+: new ++ rest) : word <:+: rest := by
  induction new with
  | nil => exact h
  | cons d new ih =>
    have hrest : Apart word new := fun c hc hin => hapart c hc (List.mem_cons_of_mem d hin)
    rw [List.cons_append, List.infix_cons_iff] at h
    rcases h with h | h
    · exact absurd h (not_prefix_append (List.cons_ne_nil d new) hword hapart rest)
    · exact ih hrest h

/-- A word without a blank stands on one side of it. -/
theorem infix_append_cons {blank : α} (hblank : blank ∉ word) {before after : List α}
    (h : word <:+: before ++ blank :: after) : word <:+: before ∨ word <:+: after := by
  obtain ⟨s, t, h⟩ := h
  rw [List.append_assoc, List.append_eq_append_iff] at h
  rcases h with ⟨gap, rfl, hrest⟩ | ⟨gap, rfl, hrest⟩
  · -- The word begins before the blank, so it ends before it.
    rw [List.append_eq_append_iff] at hrest
    rcases hrest with ⟨more, rfl, -⟩ | ⟨more, rfl, hcut⟩
    · left
      exact ⟨s, more, by simp⟩
    · cases more with
      | nil =>
        left
        exact ⟨s, [], by simp⟩
      | cons c more =>
        rw [List.cons_append, List.cons.injEq] at hcut
        exact absurd (by simp [hcut.1]) hblank
  · cases gap with
    | nil =>
      cases word with
      | nil => exact Or.inl List.nil_infix
      | cons c word =>
        rw [List.nil_append, List.cons_append, List.cons.injEq] at hrest
        exact absurd (by simp [hrest.1]) hblank
    | cons c gap =>
      rw [List.cons_append, List.cons.injEq] at hrest
      right
      exact ⟨gap, t, by rw [hrest.2, List.append_assoc]⟩

end Words

/-! ## Replacing -/

section Replacing

variable {α : Type} [DecidableEq α]

/-- The text with `skip` letters of an occurrence still to pass. -/
def replaceFrom (old new : List α) : ℕ → List α → List α
  | _, [] => []
  | skip + 1, _ :: rest => replaceFrom old new skip rest
  | 0, c :: rest =>
      if old <+: c :: rest then new ++ replaceFrom old new (old.length - 1) rest
      else c :: replaceFrom old new 0 rest

/-- `new` for every occurrence of `old`. An empty `old` stands between any two letters and at both
ends. -/
def replace (old new text : List α) : List α :=
  if old = [] then new ++ text.flatMap fun c => c :: new else replaceFrom old new 0 text

variable {old new word text : List α}

/-- What the replaced text begins with, the text begins with. -/
theorem prefix_of_prefix_replaceFrom (old : List α) (hnew : new ≠ []) (hapart : Apart word new)
    (h : word <+: replaceFrom old new 0 text) : word <+: text := by
  induction text generalizing word with
  | nil => exact h
  | cons c rest ih =>
    cases word with
    | nil => exact List.nil_prefix
    | cons d word =>
      rw [replaceFrom] at h
      split at h
      · exact absurd h (not_prefix_append hnew (List.cons_ne_nil d word) hapart _)
      · rw [List.cons_prefix_cons] at h
        obtain ⟨rfl, h⟩ := h
        rw [List.cons_prefix_cons]
        exact ⟨rfl, ih (fun c hc => hapart c (List.mem_cons_of_mem d hc)) h⟩

/-- A word apart from `new` stands in the replaced text only if it stood in the text. -/
theorem infix_of_infix_replaceFrom (hnew : new ≠ []) (hword : word ≠ []) (hapart : Apart word new)
    {skip : ℕ} (h : word <:+: replaceFrom old new skip text) : word <:+: text := by
  induction text generalizing skip with
  | nil =>
    cases skip with
    | zero => exact h
    | succ n => exact h
  | cons c rest ih =>
    cases skip with
    | succ n => exact List.infix_cons (ih h)
    | zero =>
      rw [replaceFrom] at h
      split at h
      · exact List.infix_cons (ih (infix_of_infix_append hword hapart h))
      · rename_i hno
        have hhere : word <+: c :: replaceFrom old new 0 rest → word <+: c :: rest := by
          intro hprefix
          refine prefix_of_prefix_replaceFrom old hnew hapart ?_
          rwa [replaceFrom, if_neg hno]
        rw [List.infix_cons_iff] at h
        rcases h with h | h
        · exact (hhere h).isInfix
        · exact List.infix_cons (ih h)

/-- What was replaced is gone. -/
theorem not_infix_replaceFrom (hnew : new ≠ []) (hold : old ≠ []) (hapart : Apart old new) (skip : ℕ) :
    ¬old <:+: replaceFrom old new skip text := by
  induction text generalizing skip with
  | nil =>
    cases skip with
    | zero => simpa [replaceFrom] using hold
    | succ n => simpa [replaceFrom] using hold
  | cons c rest ih =>
    cases skip with
    | succ n => exact ih n
    | zero =>
      intro h
      rw [replaceFrom] at h
      split at h
      · exact ih _ (infix_of_infix_append hold hapart h)
      · rename_i hno
        rw [List.infix_cons_iff] at h
        rcases h with h | h
        · refine hno (prefix_of_prefix_replaceFrom old hnew hapart ?_)
          rwa [replaceFrom, if_neg hno]
        · exact ih 0 h

theorem not_infix_replace (hnew : new ≠ []) (hold : old ≠ []) (hapart : Apart old new) (text : List α) :
    ¬old <:+: replace old new text := by
  rw [replace, if_neg hold]
  exact not_infix_replaceFrom hnew hold hapart 0

theorem infix_of_infix_replace (hnew : new ≠ []) (hold : old ≠ []) (hword : word ≠ [])
    (hapart : Apart word new) (h : word <:+: replace old new text) : word <:+: text := by
  rw [replace, if_neg hold] at h
  exact infix_of_infix_replaceFrom hnew hword hapart h

end Replacing

end Coinpilot.Lib
