import Mathlib.Data.List.Sort

/-!
# Reading a table page by page

A table is read in descending order of a key, `limit` rows at a time. Each page continues strictly
after the key of the last row of the page before, and a page shorter than `limit` is the last
(`Walk`). Where the table may change between two pages, but only loses rows and gains rows above the
first page, a walk lists some of the rows that the first page was taken from, in their order, and each
of them that was still there when it was read (`Walk.sublist`, `Walk.mem_or_gone`). Every walk comes
to an end (`exists_walk`).
-/

set_option autoImplicit false

namespace Coinpilot.Lib.Keyset

variable {α κ : Type} [LinearOrder κ] (key : α → κ)

/-- The rows in descending order of their keys. -/
def descending (rows : List α) : List α := rows.insertionSort fun a b => key b ≤ key a

/-- The row comes after the cursor. Without a cursor every row does. -/
def after (cursor : Option κ) (row : α) : Bool :=
  match cursor with
  | none => true
  | some c => key row < c

/-- What is left to read after a cursor. -/
def remaining (cursor : Option κ) (rows : List α) : List α :=
  descending key (rows.filter (after key cursor))

/-- One page. -/
def page (limit : Nat) (cursor : Option κ) (rows : List α) : List α :=
  (remaining key cursor rows).take limit

/-- A walk from its `k`-th page to its end, over a table that reads `rows k` when the `k`-th page is
taken. -/
inductive Walk (limit : Nat) (rows : Nat → List α) : Nat → Option κ → List (List α) → Prop where
  | last {k : Nat} {cursor : Option κ} : (page key limit cursor (rows k)).length < limit →
      Walk limit rows k cursor [page key limit cursor (rows k)]
  | more {k : Nat} {cursor : Option κ} {row : α} {rest : List (List α)} :
      limit ≤ (page key limit cursor (rows k)).length →
      (page key limit cursor (rows k)).getLast? = some row →
      Walk limit rows (k + 1) (some (key row)) rest →
      Walk limit rows k cursor (page key limit cursor (rows k) :: rest)

/-! ## One table -/

section Table

variable {key} {limit : Nat} {cursor : Option κ} {rows : List α}

theorem mem_remaining {row : α} :
    row ∈ remaining key cursor rows ↔ row ∈ rows ∧ after key cursor row = true := by
  rw [remaining, descending, List.mem_insertionSort, List.mem_filter]

/-- Without a cursor every row is left to read. -/
theorem remaining_none : remaining key none rows = descending key rows := by
  rw [remaining]
  congr 1
  exact List.filter_eq_self.mpr fun _ _ => rfl

/-- Rows of different keys are read in strictly descending order. -/
theorem remaining_pairwise (cursor : Option κ) (h : (rows.map key).Nodup) :
    (remaining key cursor rows).Pairwise fun a b => key b < key a := by
  have hsorted : (remaining key cursor rows).Pairwise fun a b => key b ≤ key a := by
    have : IsTrans α fun a b => key b ≤ key a := ⟨fun _ _ _ hab hbc => le_trans hbc hab⟩
    have : Std.Total fun a b : α => key b ≤ key a := ⟨fun a b => le_total (key b) (key a)⟩
    exact List.pairwise_insertionSort _ _
  have hdistinct : ((remaining key cursor rows).map key).Nodup := by
    have hperm := (List.perm_insertionSort (fun a b => key b ≤ key a)
      (rows.filter (after key cursor))).map key
    exact hperm.nodup_iff.mpr (h.sublist (List.filter_sublist.map key))
  refine (hsorted.and (List.pairwise_map.mp hdistinct)).imp ?_
  intro a b hab
  exact lt_of_le_of_ne hab.1 fun heq => hab.2 heq.symm

/-- A list in strictly descending order whose rows are all in another one is a part of it. -/
theorem sublist_of_subset {l₁ l₂ : List α} (h₁ : l₁.Pairwise fun a b => key b < key a)
    (h₂ : l₂.Pairwise fun a b => key b < key a) (hsub : l₁ ⊆ l₂) : l₁.Sublist l₂ := by
  have hnodup : l₁.Nodup := h₁.imp fun hlt heq => absurd (heq ▸ hlt) (lt_irrefl _)
  have : Std.Antisymm fun a b : α => key b < key a := ⟨fun _ _ hab hba => absurd hab hba.not_gt⟩
  exact List.sublist_of_subperm_of_pairwise (List.subperm_of_subset hnodup hsub) h₁ h₂

/-- Every row of a page comes after its cursor. -/
theorem of_mem_page {row : α} (h : row ∈ page key limit cursor rows) :
    row ∈ rows ∧ after key cursor row = true :=
  mem_remaining.mp (List.mem_of_mem_take h)

/-- A row below one that comes after the cursor comes after it too. -/
theorem after_of_lt {row other : α} (h : after key cursor row = true) (hlt : key other < key row) :
    after key cursor other = true := by
  cases cursor with
  | none => rfl
  | some c => exact decide_eq_true (hlt.trans (of_decide_eq_true h))

/-- What a page did not take is below it. -/
theorem below_page (h : (rows.map key).Nodup) {other : α}
    (hleft : other ∈ (remaining key cursor rows).drop limit) :
    ∀ listed ∈ page key limit cursor rows, key other < key listed := by
  have hstrict := remaining_pairwise cursor h
  rw [← List.take_append_drop limit (remaining key cursor rows)] at hstrict
  intro listed hlisted
  exact (List.pairwise_append.mp hstrict).2.2 listed hlisted other hleft

/-- What comes after the last row of a page is what the page did not take. -/
theorem mem_remaining_last (h : (rows.map key).Nodup) {row other : α}
    (hlast : (page key limit cursor rows).getLast? = some row) :
    other ∈ remaining key (some (key row)) rows ↔
      other ∈ (remaining key cursor rows).drop limit := by
  obtain ⟨front, hpage⟩ := List.getLast?_eq_some_iff.mp hlast
  have hsplit : remaining key cursor rows =
      (front ++ [row]) ++ (remaining key cursor rows).drop limit := by
    rw [← hpage, page, List.take_append_drop]
  have hstrict := remaining_pairwise cursor h
  rw [hsplit] at hstrict
  obtain ⟨hfront, -, -⟩ := List.pairwise_append.mp hstrict
  have hrow : row ∈ page key limit cursor rows := by rw [hpage]; simp
  rw [mem_remaining]
  constructor
  · rintro ⟨hmem, hbelow⟩
    have hlt : key other < key row := of_decide_eq_true hbelow
    have hin : other ∈ remaining key cursor rows :=
      mem_remaining.mpr ⟨hmem, after_of_lt (of_mem_page hrow).2 hlt⟩
    rw [hsplit] at hin
    rcases List.mem_append.mp hin with htaken | hleft
    · -- a row of the page is not below its last one
      exfalso
      rcases List.mem_append.mp htaken with hearlier | hsame
      · exact absurd hlt ((List.pairwise_append.mp hfront).2.2 other hearlier row
          (List.mem_singleton_self row)).not_gt
      · rw [List.mem_singleton.mp hsame] at hlt
        exact lt_irrefl _ hlt
    · exact hleft
  · intro hleft
    have hin := mem_remaining.mp (List.mem_of_mem_drop hleft)
    exact ⟨hin.1, decide_eq_true (below_page h hleft row hrow)⟩

end Table

/-! ## A walk over a table that changes -/

/-- Every row that a table gains once its first page is read is above that page. -/
structure GainsAbove (limit : Nat) (rows : Nat → List α) : Prop where
  distinct : ∀ k, ((rows k).map key).Nodup
  gained : ∀ k, ∀ row ∈ rows (k + 1),
    row ∈ rows k ∨ ∀ first ∈ page key limit none (rows 0), key first < key row

section Walk

variable {limit : Nat} {rows : Nat → List α}

/-- The cursor of a walk: none for its first page, and then the key of a row it has listed, no
greater than the rows of the first page. -/
def CursorAt (limit : Nat) (rows : Nat → List α) (k : Nat) : Option κ → Prop
  | none => k = 0
  | some c => ∃ first ∈ page key limit none (rows 0), c ≤ key first

variable {key}

/-- The cursor moves on to the last row of a page. -/
theorem CursorAt.next {k : Nat} {cursor : Option κ} {row : α}
    (hcursor : CursorAt key limit rows k cursor)
    (hrow : row ∈ page key limit cursor (rows k)) :
    CursorAt key limit rows (k + 1) (some (key row)) := by
  cases cursor with
  | none =>
    cases hcursor
    exact ⟨row, hrow, le_refl _⟩
  | some c =>
    obtain ⟨first, hfirst, hle⟩ := hcursor
    have hlt : key row < c := of_decide_eq_true (of_mem_page hrow).2
    exact ⟨first, hfirst, hlt.le.trans hle⟩

/-- Below a cursor the table only loses rows. -/
theorem mem_of_below (h : GainsAbove key limit rows) {k : Nat} {c : κ}
    (hcursor : CursorAt key limit rows (k + 1) (some c)) {row : α} (hrow : row ∈ rows (k + 1))
    (hlt : key row < c) : row ∈ rows k := by
  obtain ⟨first, hfirst, hle⟩ := hcursor
  rcases h.gained k row hrow with hold | hnew
  · exact hold
  · exact absurd (hlt.trans_le hle) (hnew first hfirst).not_gt

/-- What is left for the next page was left out by this one. -/
theorem remaining_next_subset (h : GainsAbove key limit rows) {k : Nat} {cursor : Option κ} {row : α}
    (hcursor : CursorAt key limit rows k cursor)
    (hlast : (page key limit cursor (rows k)).getLast? = some row) :
    remaining key (some (key row)) (rows (k + 1)) ⊆ (remaining key cursor (rows k)).drop limit := by
  intro other hother
  obtain ⟨hmem, hbelow⟩ := mem_remaining.mp hother
  have hnext := hcursor.next (List.mem_of_getLast? hlast)
  have hold : other ∈ rows k := mem_of_below h hnext hmem (of_decide_eq_true hbelow)
  exact (mem_remaining_last (h.distinct k) hlast).mp (mem_remaining.mpr ⟨hold, hbelow⟩)

/-- A walk lists some of the rows left when it starts, in their order. -/
theorem Walk.sublist (h : GainsAbove key limit rows) {k : Nat} {cursor : Option κ}
    {pages : List (List α)} (hwalk : Walk key limit rows k cursor pages)
    (hcursor : CursorAt key limit rows k cursor) :
    pages.flatten.Sublist (remaining key cursor (rows k)) := by
  induction hwalk with
  | last => simpa [page] using List.take_sublist _ _
  | @more k cursor row rest hfull hlast hrest ih =>
    have hsub := ih (hcursor.next (List.mem_of_getLast? hlast))
    have hnext : (remaining key (some (key row)) (rows (k + 1))).Sublist
        ((remaining key cursor (rows k)).drop limit) :=
      sublist_of_subset (remaining_pairwise _ (h.distinct (k + 1)))
        ((remaining_pairwise _ (h.distinct k)).sublist (List.drop_sublist _ _))
        (remaining_next_subset h hcursor hlast)
    rw [List.flatten_cons]
    exact (List.Sublist.append (List.Sublist.refl _) (hsub.trans hnext)).trans
      (by rw [page, List.take_append_drop])

/-- Of the rows left when a walk starts, it lists each that is not gone when a page above it has been
read and the next one is. -/
theorem Walk.mem_or_gone (h : GainsAbove key limit rows) {k : Nat} {cursor : Option κ}
    {pages : List (List α)} (hwalk : Walk key limit rows k cursor pages) {other : α}
    (hother : other ∈ remaining key cursor (rows k)) :
    other ∈ pages.flatten ∨ ∃ j, 0 < j ∧ j < pages.length ∧ other ∉ rows (k + j) ∧
      ∀ listed ∈ (pages.take j).flatten, key other < key listed := by
  induction hwalk with
  | @last k cursor hshort =>
    left
    rw [List.flatten_cons, List.flatten_nil, List.append_nil, page,
      List.take_of_length_le (by
        rw [page, List.length_take] at hshort
        omega)]
    exact hother
  | @more k cursor row rest hfull hlast hrest ih =>
    rw [← List.take_append_drop limit (remaining key cursor (rows k))] at hother
    rcases List.mem_append.mp hother with htaken | hleft
    · exact .inl (List.mem_append_left _ htaken)
    · have hpassed := below_page (h.distinct k) hleft
      have hbelow := mem_remaining.mp ((mem_remaining_last (h.distinct k) hlast).mpr hleft)
      have hrest_pos : 0 < rest.length := by cases hrest <;> simp
      by_cases hstill : other ∈ rows (k + 1)
      · rcases ih (mem_remaining.mpr ⟨hstill, hbelow.2⟩) with hlisted | ⟨j, hpos, hj, hgone, habove⟩
        · exact .inl (List.mem_append_right _ hlisted)
        · refine .inr ⟨j + 1, by omega, by rw [List.length_cons]; omega, ?_, ?_⟩
          · rwa [show k + (j + 1) = k + 1 + j by omega]
          · rw [List.take_succ_cons, List.flatten_cons, List.forall_mem_append]
            exact ⟨hpassed, habove⟩
      · refine .inr ⟨1, by omega, by rw [List.length_cons]; omega, hstill, ?_⟩
        simpa using hpassed

/-- Every walk comes to an end: a full page leaves fewer rows than were left before it. -/
theorem exists_walk (h : GainsAbove key limit rows) (hlimit : 1 ≤ limit) (k : Nat)
    (cursor : Option κ) (hcursor : CursorAt key limit rows k cursor) :
    ∃ pages, Walk key limit rows k cursor pages := by
  induction hn : (remaining key cursor (rows k)).length using Nat.strong_induction_on
    generalizing k cursor with
  | _ n ih =>
    by_cases hshort : (page key limit cursor (rows k)).length < limit
    · exact ⟨_, .last hshort⟩
    · obtain ⟨row, hlast⟩ : ∃ row, (page key limit cursor (rows k)).getLast? = some row := by
        rw [← Option.isSome_iff_exists, List.getLast?_isSome]
        intro hnil
        rw [hnil] at hshort
        exact hshort hlimit
      have hfewer : (remaining key (some (key row)) (rows (k + 1))).length < n := by
        have hle := (sublist_of_subset (remaining_pairwise _ (h.distinct (k + 1)))
          ((remaining_pairwise _ (h.distinct k)).sublist (List.drop_sublist _ _))
          (remaining_next_subset h hcursor hlast)).length_le
        rw [page, List.length_take] at hshort
        rw [List.length_drop] at hle
        omega
      obtain ⟨rest, hrest⟩ := ih _ hfewer (k + 1) (some (key row))
        (hcursor.next (List.mem_of_getLast? hlast)) rfl
      exact ⟨_, .more (not_lt.mp hshort) hlast hrest⟩

end Walk

end Coinpilot.Lib.Keyset
