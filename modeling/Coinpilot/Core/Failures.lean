import Coinpilot.Core.Transactions

/-!
# What a transaction raises

No block raises the exception of a read of Kraken that failed (`Txn.run_available`), and only the two blocks
that judge the account and the proposal raise anything but what the database or the language does
(`Txn.run_plainly`).
-/

set_option autoImplicit false

namespace Coinpilot.Core

open Coinpilot.Lib Coinpilot.Exchange Coinpilot.Engine

/-- The exception of a read of Kraken that failed. -/
def Exn.isUnavailable : Exn → Bool
  | .portfolioUnavailable _ => true
  | _ => false

/-- A computation that does not raise it. -/
def Available {α : Type} (x : Except Exn α) : Prop := ∀ e, x = .error e → e.isUnavailable = false

theorem available_ok {α : Type} (a : α) : Available (.ok a : Except Exn α) := nofun

theorem available_error {α : Type} {e : Exn} (h : e.isUnavailable = false) :
    Available (.error e : Except Exn α) := by
  intro e' he
  cases he
  exact h

theorem available_bind {α β : Type} {x : Except Exn α} {f : α → Except Exn β} (hx : Available x)
    (hf : ∀ a, Available (f a)) : Available (x >>= f) := by
  cases x with
  | ok a => exact hf a
  | error e => exact available_error (hx e rfl)

theorem available_textColumn (n : Nat) (s : String) : Available (textColumn n s) := by
  unfold textColumn
  split
  · exact available_ok _
  · exact available_error rfl

theorem available_amountColumn (d : PyDecimal) : Available (amountColumn d) := by
  cases d with
  | finite d =>
    unfold amountColumn
    dsimp only
    split
    · exact available_ok _
    · exact available_error rfl
  | infinite b => exact available_error rfl
  | nan => exact available_ok _

theorem available_fromPython {α : Type} (x : Except PyError α) : Available (fromPython x) := by
  cases x with
  | ok a => exact available_ok _
  | error e => exact available_error rfl

theorem available_recordAttempt (l : Ledger) (now : Int) (c pair asset : String) (side : Side)
    (reason : OrderReason) (amount : Decimal) (at' : Int) (id : Nat) :
    Available (l.recordAttempt now c pair asset side reason amount at' id) := by
  refine available_bind (available_textColumn _ _) fun _ => ?_
  refine available_bind (available_textColumn _ _) fun _ => ?_
  refine available_bind (available_textColumn _ _) fun _ => ?_
  refine available_bind (available_amountColumn _) fun _ => ?_
  split
  · exact available_error rfl
  · exact available_ok _

theorem available_markSent (l : Ledger) (c t : String) : Available (l.markSent c t) := by
  unfold Ledger.markSent
  split
  · exact available_ok _
  · exact available_bind (available_textColumn _ _) fun _ => available_ok _

theorem available_markFilled (l : Ledger) (c t : String) (v p f k : PyDecimal) :
    Available (l.markFilled c t v p f k) := by
  unfold Ledger.markFilled
  split
  · exact available_ok _
  · refine available_bind (available_textColumn _ _) fun _ => ?_
    refine available_bind (available_amountColumn _) fun _ => ?_
    refine available_bind (available_amountColumn _) fun _ => ?_
    refine available_bind (available_amountColumn _) fun _ => ?_
    exact available_bind (available_amountColumn _) fun _ => available_ok _

theorem available_settle (l : Ledger) (c : String) (k : Option OrderLookup) :
    Available (settle l c k) := by
  unfold settle
  split
  · exact available_ok _
  · split
    · exact available_ok _
    · split
      · split
        · exact available_error rfl
        · exact available_bind (available_markFilled _ _ _ _ _ _ _) fun _ => available_ok _
        · exact available_ok _
      · exact available_bind (available_markSent _ _ _) fun _ => available_ok _

theorem available_withdrawVersion (slot : Option Proposal) (version : Int) :
    Available (withdrawVersion slot version) := by
  unfold withdrawVersion
  split
  · exact available_ok _
  · split
    · exact available_error rfl
    · exact available_ok _

theorem available_loadAccount (db : Db) (s : Bool) : Available (loadAccount db s) := by
  unfold loadAccount
  split
  · exact available_error rfl
  · split
    · exact available_error rfl
    · exact available_ok _

/-- No block raises the exception of a read of Kraken. -/
theorem Txn.run_available (t : Txn) (now : Int) (db : Db) : Available (t.run now db) := by
  cases t with
  | load s =>
    have h := available_loadAccount db s
    cases hl : loadAccount db s with
    | ok a =>
      simp only [Txn.run, hl, Except.map]
      exact available_ok _
    | error e =>
      simp only [Txn.run, hl, Except.map]
      exact available_error (h e hl)
  | settle c k => exact available_bind (available_settle _ _ _) fun _ => available_ok _
  | keepSnapshot at' fiat tv cash holdings =>
    refine available_bind (available_textColumn _ _) fun _ => ?_
    refine available_bind (available_amountColumn _) fun _ => ?_
    exact available_bind (available_amountColumn _) fun _ => available_ok _
  | decidePropose p trig => exact available_bind (available_fromPython _) fun _ => available_ok _
  | decideApprove v p => exact available_bind (available_fromPython _) fun _ => available_ok _
  | recordAttempt c leg reason at' id =>
    exact available_bind (available_recordAttempt _ _ _ _ _ _ _ _ _ _) fun _ => available_ok _
  | markSent c t => exact available_bind (available_markSent _ _ _) fun _ => available_ok _
  | withdraw v => exact available_bind (available_withdrawVersion _ _) fun _ => available_ok _
  | _ => exact available_ok _

/-! ## What is not the account's -/

/-- An exception of the database or of the language: none of those that say what is wrong with the
account or with its proposal. -/
def Exn.isPlain : Exn → Bool
  | .python _ => true
  | .database => true
  | _ => false

/-- A computation that raises nothing else. -/
def Plainly {α : Type} (x : Except Exn α) : Prop := ∀ e, x = .error e → e.isPlain = true

section Plain

variable {α β : Type}

theorem plainly_ok (a : α) : Plainly (.ok a : Except Exn α) := by
  intro e he
  cases he

theorem plainly_error {e : Exn} (h : e.isPlain = true) : Plainly (.error e : Except Exn α) := by
  intro e' he
  cases he
  exact h

theorem plainly_bind {x : Except Exn α} {f : α → Except Exn β} (hx : Plainly x)
    (hf : ∀ a, Plainly (f a)) : Plainly (x >>= f) := by
  cases x with
  | ok a => exact hf a
  | error e => exact plainly_error (hx e rfl)

theorem plainly_textColumn (n : Nat) (s : String) : Plainly (textColumn n s) := by
  rw [textColumn]
  split
  · exact plainly_ok _
  · exact plainly_error rfl

theorem plainly_amountColumn (d : PyDecimal) : Plainly (amountColumn d) := by
  cases d with
  | finite d =>
    rw [amountColumn]
    split
    · exact plainly_ok _
    · exact plainly_error rfl
  | infinite b => exact plainly_error rfl
  | nan => exact plainly_ok _

theorem plainly_fromPython (x : Except PyError α) : Plainly (fromPython x) := by
  cases x with
  | ok a => exact plainly_ok _
  | error e => exact plainly_error rfl

theorem plainly_recordAttempt (l : Ledger) (now : Int) (c pair asset : String) (side : Side)
    (reason : OrderReason) (amount : Decimal) (at' : Int) (id : Nat) :
    Plainly (l.recordAttempt now c pair asset side reason amount at' id) := by
  apply plainly_bind (plainly_textColumn _ _)
  intro _
  apply plainly_bind (plainly_textColumn _ _)
  intro _
  apply plainly_bind (plainly_textColumn _ _)
  intro _
  apply plainly_bind (plainly_amountColumn _)
  intro _
  split
  · exact plainly_error rfl
  · exact plainly_ok _

theorem plainly_markSent (l : Ledger) (c t : String) : Plainly (l.markSent c t) := by
  rw [Ledger.markSent]
  split
  · exact plainly_ok _
  · exact plainly_bind (plainly_textColumn _ _) fun _ => plainly_ok _

theorem plainly_markFilled (l : Ledger) (c t : String) (v p f k : PyDecimal) :
    Plainly (l.markFilled c t v p f k) := by
  rw [Ledger.markFilled]
  split
  · exact plainly_ok _
  · apply plainly_bind (plainly_textColumn _ _)
    intro _
    apply plainly_bind (plainly_amountColumn _)
    intro _
    apply plainly_bind (plainly_amountColumn _)
    intro _
    apply plainly_bind (plainly_amountColumn _)
    intro _
    exact plainly_bind (plainly_amountColumn _) fun _ => plainly_ok _

theorem plainly_settle (l : Ledger) (c : String) (k : Option OrderLookup) : Plainly (settle l c k) := by
  unfold settle
  split
  · exact plainly_ok _
  · split
    · exact plainly_ok _
    · split
      · split
        · exact plainly_error rfl
        · exact plainly_bind (plainly_markFilled _ _ _ _ _ _ _) fun _ => plainly_ok _
        · exact plainly_ok _
      · exact plainly_bind (plainly_markSent _ _ _) fun _ => plainly_ok _

/-- The blocks that say what is wrong with the account or with its proposal. -/
def Txn.judges : Txn → Bool
  | .load _ => true
  | .withdraw _ => true
  | _ => false

/-- Every other block raises only what the database or the language does. -/
theorem Txn.run_plainly {t : Txn} (ht : t.judges = false) (now : Int) (db : Db) : Plainly (t.run now db) := by
  cases t with
  | load s => cases ht
  | withdraw v => cases ht
  | settle c k => exact plainly_bind (plainly_settle _ _ _) fun _ => plainly_ok _
  | keepSnapshot at' fiat tv cash holdings =>
    apply plainly_bind (plainly_textColumn _ _)
    intro _
    apply plainly_bind (plainly_amountColumn _)
    intro _
    exact plainly_bind (plainly_amountColumn _) fun _ => plainly_ok _
  | decidePropose p trig => exact plainly_bind (plainly_fromPython _) fun _ => plainly_ok _
  | decideApprove v p => exact plainly_bind (plainly_fromPython _) fun _ => plainly_ok _
  | recordAttempt c leg reason at' id =>
    exact plainly_bind (plainly_recordAttempt _ _ _ _ _ _ _ _ _ _) fun _ => plainly_ok _
  | markSent c t => exact plainly_bind (plainly_markSent _ _ _) fun _ => plainly_ok _
  | _ => exact plainly_ok _

end Plain

end Coinpilot.Core
