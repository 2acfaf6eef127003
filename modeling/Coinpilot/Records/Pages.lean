import Coinpilot.Core.Db.Sessions
import Coinpilot.Lib.Dict

/-!
# Pages of history neither repeat nor skip

A cursor is the id of a row, and stands for its key while the row is there (`PointsAt`). So the pages
that the application reads are a walk over the user's rows by key (`pagesFrom_eq`), which neither
repeats nor skips.
-/

set_option autoImplicit false

namespace Coinpilot.Records.Pages

open Coinpilot.Core (UserId)
open Coinpilot.Core.Sessions Coinpilot.Lib Coinpilot.Lib.Keyset

variable {tables : Nat → SessionTable} {userId : UserId} {limit : Nat} {idle : Bool}

/-- The user's rows, newest first. -/
def listing (userId : UserId) (idle : Bool) (table : SessionTable) : List EvaluationSession :=
  descending EvaluationSession.key (filtered userId idle table)

/-- The application asks for the `k`-th page with this cursor. -/
inductive Asked (tables : Nat → SessionTable) (userId : UserId) (limit : Nat) (idle : Bool) :
    Nat → Option SessionId → Prop where
  | first : Asked tables userId limit idle 0 none
  | next {k : Nat} {pageParam : Option SessionId} {last : List EvaluationSession} {id : SessionId} :
      Asked tables userId limit idle k pageParam →
      listEvaluations (tables k) userId limit idle pageParam = .ok last →
      getNextPageParam limit last = some id → Asked tables userId limit idle (k + 1) (some id)

/-- What may happen to the table between two pages: other users' rows come, rows of this user that
are newer than the first page come, and rows go that are not the cursor. -/
structure Undisturbed (tables : Nat → SessionTable) (userId : UserId) (limit : Nat) (idle : Bool) :
    Prop where
  gained : ∀ k, ∀ row ∈ (tables (k + 1)).rows, row.userId = userId → row ∈ (tables k).rows ∨
    ∀ first ∈ (listing userId idle (tables 0)).take limit, first.key < row.key
  kept : ∀ k pageParam last row, Asked tables userId limit idle k pageParam →
    listEvaluations (tables k) userId limit idle pageParam = .ok last → last.getLast? = some row →
    row ∈ (tables (k + 1)).rows

/-! ## A page -/

theorem mem_filtered {table : SessionTable} {row : EvaluationSession} :
    row ∈ filtered userId idle table ↔
      row ∈ table.rows ∧ row.userId = userId ∧ (idle || row.status != NOTHING_TO_DO) = true := by
  simp [filtered]

/-- No two rows have one key, for no two have one id. -/
theorem keys_nodup (userId : UserId) (idle : Bool) (table : SessionTable) :
    ((filtered userId idle table).map EvaluationSession.key).Nodup := by
  have hids : ((filtered userId idle table).map EvaluationSession.id).Nodup :=
    table.primaryKey.sublist (List.filter_sublist.map _)
  rw [List.nodup_map_iff_inj_on (hids.of_map _)]
  intro a ha b hb hkey
  exact List.inj_on_of_nodup_map hids ha hb (congrArg (fun k => (ofLex k).2) hkey)

/-- The cursor of a page and the key that it stands for in the table. -/
def PointsAt (table : SessionTable) (userId : UserId) :
    Option SessionId → Option (Int ×ₗ SessionId) → Prop
  | none, cursor => cursor = none
  | some id, cursor => ∃ row ∈ table.rows, row.id = id ∧ row.userId = userId ∧ cursor = some row.key

/-- A page by id is the page by key. -/
theorem listEvaluations_eq (limit : Nat) (idle : Bool) {table : SessionTable} {before : Option SessionId}
    {cursor : Option (Int ×ₗ SessionId)} (h : PointsAt table userId before cursor) :
    listEvaluations table userId limit idle before =
      .ok (page EvaluationSession.key limit cursor (filtered userId idle table)) := by
  cases before with
  | none =>
    cases h
    rw [listEvaluations, page, remaining_none]
  | some id =>
    obtain ⟨row, hrow, rfl, rfl, rfl⟩ := h
    have hfind : (table.rows.find? fun r => decide (r.id = row.id ∧ r.userId = row.userId)) = some row := by
      refine find?_eq_some_of_unique hrow (by simp) ?_
      intro other hother hsame
      exact List.inj_on_of_nodup_map table.primaryKey hother hrow (of_decide_eq_true hsame).1
    rw [listEvaluations, hfind]
    rfl

/-! ## A walk -/

/-- The tables of an undisturbed walk, as a walk by key meets them. -/
theorem Undisturbed.gainsAbove (h : Undisturbed tables userId limit idle) :
    GainsAbove EvaluationSession.key limit fun k => filtered userId idle (tables k) where
  distinct k := keys_nodup userId idle (tables k)
  gained := by
    intro k row hrow
    obtain ⟨hmem, huser, hstatus⟩ := mem_filtered.mp hrow
    rcases h.gained k row hmem huser with hold | hnew
    · exact .inl (mem_filtered.mpr ⟨hold, huser, hstatus⟩)
    · right
      intro first hfirst
      refine hnew first ?_
      rwa [page, remaining_none] at hfirst

/-- The cursor after a full page. -/
theorem getNextPageParam_full {last : List EvaluationSession} {row : EvaluationSession}
    (hfull : limit ≤ last.length) (hlast : last.getLast? = some row) :
    getNextPageParam limit last = some row.id := by
  rw [getNextPageParam, if_neg (not_lt.mpr hfull), hlast]
  rfl

/-- The application's pages are those of the walk by key. -/
theorem pagesFrom_eq (h : Undisturbed tables userId limit idle) {k : Nat}
    {cursor : Option (Int ×ₗ SessionId)} {pages : List (List EvaluationSession)}
    (hwalk : Walk EvaluationSession.key limit (fun k => filtered userId idle (tables k)) k cursor pages)
    {before : Option SessionId} (hasked : Asked tables userId limit idle k before)
    (hpoints : PointsAt (tables k) userId before cursor) (fuel : Nat) (hfuel : pages.length ≤ fuel) :
    pagesFrom tables userId limit idle fuel k before = .ok pages := by
  induction hwalk generalizing before fuel with
  | last hshort =>
    obtain ⟨fuel, rfl⟩ : ∃ n, fuel = n + 1 := ⟨fuel - 1, by rw [List.length_singleton] at hfuel; omega⟩
    rw [pagesFrom, listEvaluations_eq limit idle hpoints]
    simp only [Except.mapError, bind, Except.bind, getNextPageParam, if_pos hshort]
  | @more k cursor row rest hfull hlast hrest ih =>
    obtain ⟨fuel, rfl⟩ : ∃ n, fuel = n + 1 := ⟨fuel - 1, by rw [List.length_cons] at hfuel; omega⟩
    have hpage := listEvaluations_eq limit idle hpoints
    have hnext := getNextPageParam_full hfull hlast
    have huser : row.userId = userId :=
      (mem_filtered.mp (of_mem_page (List.mem_of_getLast? hlast)).1).2.1
    have hpoints' : PointsAt (tables (k + 1)) userId (some row.id) (some row.key) :=
      ⟨row, h.kept k before _ row hasked hpage hlast, rfl, huser, rfl⟩
    have hrec := ih (.next hasked hpage hnext) hpoints' fuel (by rw [List.length_cons] at hfuel; omega)
    rw [pagesFrom, hpage]
    simp only [Except.mapError, bind, Except.bind, hnext, hrec]

/-- A page lists rows of the table. -/
theorem mem_of_listed {table : SessionTable} {before : Option SessionId}
    {last : List EvaluationSession} {row : EvaluationSession}
    (h : listEvaluations table userId limit idle before = .ok last) (hrow : row ∈ last) :
    row ∈ table.rows := by
  cases before with
  | none =>
    rw [listEvaluations] at h
    cases h
    exact (mem_filtered.mp ((List.mem_insertionSort _).mp (List.mem_of_mem_take hrow))).1
  | some id =>
    rw [listEvaluations] at h
    split at h
    · cases h
    · cases h
      have hmem := (List.mem_insertionSort _).mp (List.mem_of_mem_take hrow)
      exact (mem_filtered.mp (List.mem_of_mem_filter hmem)).1

/-- A table that stays as it is. -/
theorem undisturbed_const (table : SessionTable) :
    Undisturbed (fun _ => table) userId limit idle where
  gained _ _ hrow _ := .inl hrow
  kept _ _ _ _ _ hpage hlast := mem_of_listed hpage (List.mem_of_getLast? hlast)

/-- The pages of an undisturbed walk, once the walk is allowed enough of them. -/
theorem exists_pages (h : Undisturbed tables userId limit idle) (hlimit : 1 ≤ limit) :
    ∃ pages, (∀ fuel, pages.length ≤ fuel →
        pagesFrom tables userId limit idle fuel 0 none = .ok pages) ∧
      pages.flatten.Sublist (listing userId idle (tables 0)) ∧
      ∀ row ∈ listing userId idle (tables 0),
        row ∈ pages.flatten ∨ ∃ j, 0 < j ∧ j < pages.length ∧ row ∉ (tables j).rows ∧
          ∀ listed ∈ (pages.take j).flatten, row.key < listed.key := by
  obtain ⟨pages, hwalk⟩ := exists_walk h.gainsAbove hlimit 0 none rfl
  have hsub := hwalk.sublist h.gainsAbove rfl
  rw [remaining_none] at hsub
  refine ⟨pages, fun fuel hfuel => pagesFrom_eq h hwalk .first rfl fuel hfuel, hsub, ?_⟩
  intro row hrow
  have hleft : row ∈ remaining EvaluationSession.key none (filtered userId idle (tables 0)) := by
    rw [remaining_none]
    exact hrow
  rcases hwalk.mem_or_gone h.gainsAbove hleft with hlisted | ⟨j, hpos, hj, hgone, habove⟩
  · exact .inl hlisted
  · refine .inr ⟨j, hpos, hj, fun hthere => hgone ?_, habove⟩
    -- the filter looks at columns that do not change
    rw [Nat.zero_add]
    exact mem_filtered.mpr ⟨hthere, (mem_filtered.mp ((List.mem_insertionSort _).mp hrow)).2⟩

/-- Reading the history page by page lists it once, in order, and comes to an end: over a table that
stays as it is, all of it, and over one that rows go from or newer rows come to, each row but those
that are gone when their page is read. -/
theorem pages_neither_repeat_nor_skip (userId : UserId) (limit : Nat) (idle : Bool)
    (hlimit : 1 ≤ limit) :
    (∀ table : SessionTable, ∃ pages,
      (∀ fuel, pages.length ≤ fuel →
        pagesFrom (fun _ => table) userId limit idle fuel 0 none = .ok pages) ∧
      pages.flatten.Perm (filtered userId idle table) ∧
      pages.flatten.Pairwise fun newer older => older.key < newer.key) ∧
    ∀ tables : Nat → SessionTable, Undisturbed tables userId limit idle → ∃ pages,
      (∀ fuel, pages.length ≤ fuel →
        pagesFrom tables userId limit idle fuel 0 none = .ok pages) ∧
      pages.flatten.Sublist (listing userId idle (tables 0)) ∧
      (pages.flatten.Pairwise fun newer older => older.key < newer.key) ∧
      ∀ row ∈ listing userId idle (tables 0),
        row ∈ pages.flatten ∨ ∃ j, 0 < j ∧ j < pages.length ∧ row ∉ (tables j).rows ∧
          ∀ listed ∈ (pages.take j).flatten, row.key < listed.key := by
  have hstrict : ∀ table : SessionTable, (listing userId idle table).Pairwise
      fun newer older => older.key < newer.key := by
    intro table
    have := remaining_pairwise none (keys_nodup userId idle table)
    rwa [remaining_none] at this
  constructor
  · intro table
    obtain ⟨pages, hpages, hsub, hall⟩ := exists_pages (undisturbed_const table) hlimit
    refine ⟨pages, hpages, ?_, (hstrict table).sublist hsub⟩
    have hlisted : listing userId idle table ⊆ pages.flatten := by
      intro row hrow
      rcases hall row hrow with hin | ⟨j, -, -, hgone, -⟩
      · exact hin
      · exact absurd (mem_filtered.mp ((List.mem_insertionSort _).mp hrow)).1 hgone
    have hsame := sublist_of_subset (hstrict table) ((hstrict table).sublist hsub) hlisted
    rw [hsub.antisymm hsame]
    exact List.perm_insertionSort _ _
  · intro tables h
    obtain ⟨pages, hpages, hsub, hall⟩ := exists_pages h hlimit
    exact ⟨pages, hpages, hsub, (hstrict (tables 0)).sublist hsub, hall⟩

/-! ## A table that changes -/

def reader : UserId := ⟨List.replicate 16 7, List.length_replicate⟩

def evaluation (id : SessionId) (startedAt : Int) (status : String) : EvaluationSession :=
  ⟨id, reader, startedAt, none, none, status, none, none, none⟩

/-- Three rows of one instant and an idle one. -/
def beforeFirstPage : SessionTable where
  rows := [evaluation 1 10 "DONE", evaluation 2 10 "DONE", evaluation 3 10 "DONE",
    evaluation 4 10 NOTHING_TO_DO, evaluation 5 9 "ERROR"]
  primaryKey := by decide

/-- A row newer than the first page has come, and two rows are gone, one of them listed. -/
def afterFirstPage : SessionTable where
  rows := [evaluation 2 10 "DONE", evaluation 4 10 NOTHING_TO_DO, evaluation 5 9 "ERROR",
    evaluation 6 11 "RUNNING"]
  primaryKey := by decide

def changing : Nat → SessionTable
  | 0 => beforeFirstPage
  | _ + 1 => afterFirstPage

theorem changing_undisturbed : Undisturbed changing reader 2 false where
  gained := by
    intro k row hrow huser
    cases k with
    | zero =>
      have hfirst : ∀ row ∈ afterFirstPage.rows, row ∈ beforeFirstPage.rows ∨
          ∀ first ∈ (listing reader false beforeFirstPage).take 2, first.key < row.key := by decide
      exact hfirst row hrow
    | succ k => exact .inl hrow
  kept := by
    intro k pageParam last row hasked hpage hlast
    cases k with
    | zero =>
      cases hasked
      have hfirst : listEvaluations beforeFirstPage reader 2 false none =
          .ok [evaluation 3 10 "DONE", evaluation 2 10 "DONE"] := by decide
      rw [changing, hfirst] at hpage
      cases hpage
      cases hlast
      decide
    | succ k => exact mem_of_listed hpage (List.mem_of_getLast? hlast)

theorem pages_of_changing : 1 ≤ 2 ∧ ∃ pages,
    (∀ fuel, pages.length ≤ fuel → pagesFrom changing reader 2 false fuel 0 none = .ok pages) ∧
    pages.flatten.Sublist (listing reader false (changing 0)) := by
  refine ⟨by decide, ?_⟩
  obtain ⟨pages, hpages, hsub, -⟩ :=
    (pages_neither_repeat_nor_skip reader 2 false (by decide)).2 changing changing_undisturbed
  exact ⟨pages, hpages, hsub⟩

end Coinpilot.Records.Pages
