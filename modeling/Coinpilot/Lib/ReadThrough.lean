import Coinpilot.Lib.Dict

/-!
# A store that reads through to a source

A source is asked for keys in batches. It may fail a question, may leave keys out, and may give a key
another value each time. A store that asks only for what it lacks, and keeps what it is given, holds
the first value that each key was given (`InStep`), and no key is asked for once it has one.
-/

set_option autoImplicit false

namespace Coinpilot.Lib.ReadThrough

variable {κ α : Type} [DecidableEq κ]

/-- A question to the source, and its answer if there was one. -/
structure Question (κ α : Type) where
  asked : List κ
  answer : Option (Dict κ α)

/-- The first value that a key was given. -/
def first (questions : List (Question κ α)) (k : κ) : Option α :=
  questions.findSome? fun q => q.answer.bind fun d => d.get? k

theorem first_append (before after : List (Question κ α)) (k : κ) :
    first (before ++ after) k = (first before k).or (first after k) := List.findSome?_append

/-- The first value stays the first. -/
theorem first_of_prefix {before after : List (Question κ α)} {k : κ} {a : α}
    (h : first before k = some a) : first (before ++ after) k = some a := by
  rw [first_append, h, Option.or]

/-- A store that holds what its source was asked and gave. -/
structure InStep (store : Dict κ α) (questions : List (Question κ α)) : Prop where
  holds : ∀ k, store.get? k = first questions k
  once : ∀ before q after, questions = before ++ q :: after → ∀ k ∈ q.asked, first before k = none

theorem InStep.empty : InStep (Dict.empty : Dict κ α) [] where
  holds _ := rfl
  once _ _ _ h := absurd h (by simp)

variable {store : Dict κ α} {questions : List (Question κ α)}

/-- A further question, for keys that the store lacks. -/
theorem InStep.once_snoc (h : InStep store questions) {q : Question κ α}
    (hlacks : ∀ k ∈ q.asked, k ∉ store.keys) (before : List (Question κ α)) (q' : Question κ α)
    (after : List (Question κ α)) (hsplit : questions ++ [q] = before ++ q' :: after) :
    ∀ k ∈ q'.asked, first before k = none := by
  rcases List.eq_nil_or_concat after with rfl | ⟨front, last, rfl⟩
  · obtain ⟨rfl, hq⟩ := List.append_inj' hsplit rfl
    cases hq
    intro k hk
    rw [← h.holds k, Option.eq_none_iff_forall_not_mem]
    intro a ha
    exact hlacks k hk (Dict.mem_keys_iff.mpr ⟨a, ha⟩)
  · have hsame : questions ++ [q] = (before ++ q' :: front) ++ [last] := by simpa using hsplit
    exact h.once before q' front (List.append_inj' hsame rfl).1

/-- A question that fails leaves the store as it is. -/
theorem InStep.failed (h : InStep store questions) {asked : List κ}
    (hlacks : ∀ k ∈ asked, k ∉ store.keys) : InStep store (questions ++ [⟨asked, none⟩]) where
  holds k := by
    rw [first_append, ← h.holds k]
    exact (Option.or_none).symm
  once := h.once_snoc hlacks

/-- An answer about the keys asked for goes into the store. -/
theorem InStep.answered (h : InStep store questions) {asked : List κ} {fetched : Dict κ α}
    (hlacks : ∀ k ∈ asked, k ∉ store.keys) (honest : ∀ k ∈ fetched.keys, k ∈ asked) :
    InStep (store.update fetched) (questions ++ [⟨asked, some fetched⟩]) where
  holds k := by
    have hgiven : first [⟨asked, some fetched⟩] k = fetched.get? k := by
      cases hget : fetched.get? k <;> simp [first, hget]
    rw [Dict.get?_update, first_append, ← h.holds k, hgiven]
    cases hget : fetched.get? k with
    | none => exact (Option.or_none).symm
    | some a =>
      -- the store lacked the key, so nothing is written over
      have hmiss : store.get? k = none := by
        rw [Option.eq_none_iff_forall_not_mem]
        intro b hb
        exact hlacks k (honest k (Dict.mem_keys_iff.mpr ⟨a, hget⟩)) (Dict.mem_keys_iff.mpr ⟨b, hb⟩)
      rw [hmiss]
      rfl
  once := h.once_snoc hlacks

end Coinpilot.Lib.ReadThrough
