import Coinpilot.Core.Footprint

/-!
# Histories of one user's calls

Every answered operation of any number of calls, newest first, and what a call can be said to have
done from it: the exchanges it had with Kraken (`posts`), the orders it was told the txid of (`Sent`),
those whose answer was lost (`Lost`), and whether each fill was read right after (`AllRead`).
-/

set_option autoImplicit false

namespace Coinpilot.Safety

open Coinpilot.Lib Coinpilot.Lib.Program Coinpilot.Exchange Coinpilot.Engine Coinpilot.Core

/-- One answered operation of one call. -/
abbrev Ev : Type := Event Op Ans Request World

/-- The world and everything that was answered, newest first. -/
abbrev Rec : Type := Recorded Op Ans Request World

/-- The world of the calls and the calls under way. -/
abbrev State : Type := Config Op Ans Request Rec (Except Exn Outcome × Locals)

/-- Every order of steps of any number of calls. -/
abbrev Runs (honest : Prop) : State → State → Prop := Reaches (system honest).recorded program

/-- Nothing has been called yet. -/
def startOf (w : World) : State := .start ⟨w, []⟩

/-- A property of histories that later operations do not touch. -/
def Lasting (P : List Ev → Prop) : Prop := ∀ {a b : List Ev}, a <:+ b → P a → P b

theorem lasting_true : Lasting fun _ => True := fun _ _ => trivial

/-! ## Exchanges -/

/-- A private call to Kraken and what came back. -/
abbrev Exchanged : Type := PrivateCall × HttpOutcome

/-- The exchange that an operation is. -/
def exchangeOf : Ev → Option Exchanged
  | ⟨_, _, .post r, answer, _, _⟩ => some (r, answer)
  | _ => none

/-- The exchanges of call `i`, newest first. -/
def posts (i : Nat) (past : List Ev) : List Exchanged :=
  past.filterMap fun e => if e.who = i then exchangeOf e else none

theorem posts_cons_other {i : Nat} {e : Ev} (past : List Ev) (h : e.who ≠ i) :
    posts i (e :: past) = posts i past := by
  simp [posts, h]

theorem posts_cons_post {i : Nat} {c : Request} {r : PrivateCall} {answer : HttpOutcome}
    {before after : World} (past : List Ev) :
    posts i (⟨i, c, .post r, answer, before, after⟩ :: past) = (r, answer) :: posts i past := by
  simp [posts, exchangeOf]

/-- Only an exchange adds to the exchanges. -/
theorem posts_cons_quiet {i : Nat} {e : Ev} (past : List Ev) (h : exchangeOf e = none) :
    posts i (e :: past) = posts i past := by
  simp [posts, h]

/-- An exchange that placed an order: Kraken accepted `clOrdId` and named it. -/
def AcceptedAs (x : Exchanged) (clOrdId txid : String) : Prop :=
  x.1.creates = some clOrdId ∧ readPlacement false x.2 = { outcome := .sent, txid := some txid }

/-- An exchange that may have placed an order, with no usable answer. -/
def Lost (x : Exchanged) : Prop :=
  x.1.creates.isSome = true ∧ (readPlacement false x.2).outcome = .unknown

/-- An exchange that read the order of `txid` as finished. -/
def FillRead (txid : String) (x : Exchanged) : Prop :=
  x.1 = .queryOrders txid ∧ ∃ entries k, readQueried x.2 = .ok entries ∧
    pickQueried txid entries = .ok (some k) ∧ isFinished k.status = true

/-- The txid of `clOrdId` was received in one of these exchanges. -/
def Sent (xs : List Exchanged) (clOrdId txid : String) : Prop :=
  ∃ x ∈ xs, AcceptedAs x clOrdId txid

/-- Right after each order that was accepted, its fill was read. Newest first: `next` is the exchange
after these. -/
def AllRead : Option Exchanged → List Exchanged → Prop
  | _, [] => True
  | next, x :: older =>
      (∀ clOrdId txid, AcceptedAs x clOrdId txid → ∃ y, next = some y ∧ FillRead txid y) ∧
        AllRead (some x) older

/-- One of the exchanges may have placed an order. -/
def Places (xs : List Exchanged) : Prop := ∃ x ∈ xs, x.1.creates.isSome = true

theorem not_acceptedAs {x : Exchanged} (h : x.1.creates = none) (clOrdId txid : String) :
    ¬AcceptedAs x clOrdId txid := by
  rintro ⟨hc, -⟩
  rw [h] at hc
  cases hc

theorem allRead_of_not_places {xs : List Exchanged} (h : ¬Places xs) (next : Option Exchanged) :
    AllRead next xs := by
  induction xs generalizing next with
  | nil => trivial
  | cons x xs ih =>
    refine ⟨?_, ih ?_ _⟩
    · rintro clOrdId txid ⟨hc, -⟩
      exact absurd ⟨x, List.mem_cons_self, by rw [hc]; rfl⟩ h
    · rintro ⟨y, hy, hc⟩
      exact h ⟨y, List.mem_cons_of_mem _ hy, hc⟩

/-- An exchange that places an order reads no fill. -/
theorem allRead_some {x : Exchanged} (h : x.1.creates.isSome = true) (xs : List Exchanged) :
    AllRead (some x) xs ↔ AllRead none xs := by
  cases xs with
  | nil => exact Iff.rfl
  | cons y xs =>
    have hiff : (∀ clOrdId txid, AcceptedAs y clOrdId txid → ∃ z, some x = some z ∧ FillRead txid z) ↔
        ∀ clOrdId txid, AcceptedAs y clOrdId txid →
          ∃ z, (none : Option Exchanged) = some z ∧ FillRead txid z := by
      refine forall₂_congr fun clOrdId txid => imp_congr_right fun _ => ?_
      constructor
      · rintro ⟨z, hz, hread, -⟩
        obtain rfl := Option.some.inj hz
        rw [hread] at h
        cases h
      · rintro ⟨z, hz, -⟩
        cases hz
    exact and_congr_left fun _ => hiff

/-- One more order that was not accepted. -/
theorem allRead_cons_unaccepted {x : Exchanged} (hc : x.1.creates.isSome = true)
    (ha : ∀ clOrdId txid, ¬AcceptedAs x clOrdId txid) (xs : List Exchanged) :
    AllRead none (x :: xs) ↔ AllRead none xs := by
  refine (and_iff_right ?_).trans (allRead_some hc xs)
  intro clOrdId txid h
  exact absurd h (ha clOrdId txid)

/-- One more order that was accepted, and the exchange after it. -/
theorem allRead_cons_accepted {x y : Exchanged} {clOrdId txid : String} (hx : AcceptedAs x clOrdId txid)
    (hy : y.1.creates = none) (xs : List Exchanged) :
    AllRead none (y :: x :: xs) ↔ FillRead txid y ∧ AllRead none xs := by
  have hc : x.1.creates.isSome = true := by
    rw [hx.1]
    rfl
  refine (and_iff_right ?_).trans (and_congr ?_ (allRead_some hc xs))
  · intro clOrdId txid h
    exact absurd h (not_acceptedAs hy clOrdId txid)
  · constructor
    · intro h
      obtain ⟨z, hz, hread⟩ := h clOrdId txid hx
      obtain rfl := Option.some.inj hz
      exact hread
    · rintro hread clOrdId' txid' ⟨-, hsent⟩
      rw [hx.2] at hsent
      obtain rfl : txid = txid' := by simpa using hsent
      exact ⟨y, rfl, hread⟩

end Coinpilot.Safety
