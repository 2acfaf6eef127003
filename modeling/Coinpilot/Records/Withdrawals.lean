import Coinpilot.Core.Db.ProposalRow
import Coinpilot.Lib.Commits

/-!
# A withdrawal and an approval of one slot

A withdrawal holds the row from its check to its commit. An approval reads the row, and takes it only when it
writes, so a withdrawal may commit in between: the `UPDATE` of the approval then sets a row that is withdrawn
to EXECUTING (`withdrawn_and_executed`). Where each such `UPDATE` finds a row that is not withdrawn
(`FindsUnwithdrawn`), of a withdrawal that answers `True` and an approval that executes at most one happens
(`withdrawal_final`): a row that is not live never is again, and a withdrawn one stays withdrawn unless an
approval has executed (`Tame`).
-/

set_option autoImplicit false

namespace Coinpilot.Records

open Coinpilot.Lib Coinpilot.Lib.Program Coinpilot.Lib.ReadCommitted Coinpilot.Core Coinpilot.Core.ProposalRow

abbrev SlotHistory : Type := StoreHistory UserId Proposal SlotCall

abbrev SlotEvent : Type := Answered UserId Proposal SlotCall

/-- The transaction has changed the row of the user, to this status. -/
def Sets (w : Store UserId Proposal) (i : Nat) (userId : UserId) (status : ProposalStatus) : Prop :=
  ∃ row, w.drafts i userId = some (some row) ∧ row.status = status

/-- A withdrawal commits the row WITHDRAWN. -/
structure Withdraws (userId : UserId) (e : SlotEvent) : Prop where
  call : ∃ version, e.call = .withdraw userId version
  op : e.op = .commit
  sets : Sets e.before e.who userId .withdrawn

/-- An approval commits the row EXECUTING. -/
structure Executes (userId : UserId) (e : SlotEvent) : Prop where
  call : ∃ version evaluated, e.call = .approve userId version evaluated
  op : e.op = .commit
  sets : Sets e.before e.who userId .executing

/-- The row that an `UPDATE` sets to EXECUTING is not withdrawn. -/
def FindsUnwithdrawn (i : Nat) (_ : SlotCall) (s : Stmt UserId Proposal) (r : SlotHistory) : Prop :=
  match s with
  | .write userId (some new) =>
      new.status = .executing → ∀ row ∈ r.now.view i userId, row.status ≠ .withdrawn
  | _ => True

instance (i : Nat) (c : SlotCall) (s : Stmt UserId Proposal) (r : SlotHistory) :
    Decidable (FindsUnwithdrawn i c s r) := by
  unfold FindsUnwithdrawn
  split
  · infer_instance
  · infer_instance

/-! ## The law of the slot -/

/-- What the commits have left in the slot of a user. -/
structure Settled (rows : Rows UserId Proposal) (cs : List SlotEvent) (userId : UserId) : Prop where
  withdrawn : ∀ e ∈ cs, Withdraws userId e → ∃ row, rows userId = some row ∧ row.status = .withdrawn
  executed : ∀ e ∈ cs, Executes userId e → ∃ row, rows userId = some row ∧ row.status ≠ .live
  one : ∀ e ∈ cs, ∀ e' ∈ cs, Withdraws userId e → ¬Executes userId e'

def slotLaw : CommitLaw UserId Proposal SlotCall where
  ok rows cs := ∀ userId, Settled rows cs userId
  onward _ _ := True
  refl _ := trivial
  trans _ _ := trivial

abbrev slotRules : Contract ((semantics UserId Proposal SlotCall).recorded.given FindsUnwithdrawn) :=
  slotLaw.rules FindsUnwithdrawn

/-- What a transaction may make of a row of the user. -/
structure Tame (c : SlotCall) (userId : UserId) (cs : List SlotEvent) (row new : Proposal) : Prop where
  ended : row.status ≠ .live → new.status ≠ .live
  withdrawn : row.status = .withdrawn → new.status = .withdrawn ∨ ∃ e ∈ cs, Executes userId e
  live : (∃ version, c = .withdraw userId version) → row.status = .live

/-- Whatever the transaction has changed, it has changed tamely. -/
def Drafted (i : Nat) (c : SlotCall) (r : SlotHistory) : Prop :=
  ∀ userId d, r.now.drafts i userId = some d → ∃ row new, r.now.rows userId = some row ∧ d = some new ∧
    Tame c userId (commits r.past) row new

section Law

variable {i : Nat} {c : SlotCall} {userId : UserId} {r r₁ : SlotHistory}

theorem Tame.mono {cs cs' : List SlotEvent} {row new : Proposal} (h : Tame c userId cs row new)
    (hcs : ∀ e ∈ cs, e ∈ cs') : Tame c userId cs' row new := by
  refine ⟨h.ended, fun hrow => ?_, h.live⟩
  rcases h.withdrawn hrow with hnew | ⟨e, he, hexecutes⟩
  · exact .inl hnew
  · exact .inr ⟨e, hcs e he, hexecutes⟩

/-- Two changes of one transaction are one. -/
theorem Tame.trans {cs : List SlotEvent} {row mid new : Proposal} (h : Tame c userId cs row mid)
    (h' : Tame c userId cs mid new) : Tame c userId cs row new := by
  refine ⟨fun hrow => h'.ended (h.ended hrow), fun hrow => ?_, h.live⟩
  rcases h.withdrawn hrow with hmid | hexecuted
  · exact h'.withdrawn hmid
  · exact .inr hexecuted

theorem drafted_of_clean (h : r.now.Clean i) : Drafted i c r := by
  intro userId d hd
  rw [h userId] at hd
  cases hd

theorem Drafted.left (h : Drafted i c r) (hleft : slotLaw.Left FindsUnwithdrawn i r r₁) :
    Drafted i c r₁ := by
  obtain ⟨⟨hmeanwhile, -⟩, hsound, -⟩ := hleft
  intro userId d hd
  have hheld := (hmeanwhile.kept.holder userId).mp (hsound.drafts i userId (by simp [hd]))
  rw [hmeanwhile.kept.drafts] at hd
  obtain ⟨row, new, hrow, rfl, htame⟩ := h userId d hd
  refine ⟨row, new, by rw [hmeanwhile.kept.rows userId hheld, hrow], rfl, htame.mono fun e he => ?_⟩
  rw [mem_commits] at he ⊢
  exact ⟨hmeanwhile.mem_past he.1, he.2⟩

/-- One more tame change. -/
theorem Drafted.draft {w : Store UserId Proposal} {past past' : List SlotEvent} {row new : Proposal}
    (h : Drafted i c ⟨w, past⟩) (hrow : w.view i userId = some row)
    (htame : Tame c userId (commits past) row new) (hcommits : commits past' = commits past) :
    Drafted i c ⟨w.draft i userId (some new), past'⟩ := by
  intro other d hd
  dsimp only [Store.draft] at hd ⊢
  rw [Function.update_self] at hd
  rw [hcommits]
  by_cases hother : other = userId
  · subst hother
    rw [Function.update_self] at hd
    obtain rfl := Option.some.inj hd
    cases hold : w.drafts i other with
    | none =>
      refine ⟨row, new, ?_, rfl, htame⟩
      simpa [Store.view, hold] using hrow
    | some old =>
      obtain ⟨first, mid, hfirst, rfl, hmid⟩ := h other old hold
      have hseen : some mid = some row := by simpa [Store.view, hold] using hrow
      obtain rfl := Option.some.inj hseen
      exact ⟨first, new, hfirst, rfl, hmid.trans htame⟩
  · rw [Function.update_of_ne hother] at hd
    exact h other d hd

/-- Tame changes may be committed. -/
theorem Drafted.respects (h : Drafted i c r) (hok : slotLaw.ok r.now.rows (commits r.past)) :
    slotLaw.Respects i c r := by
  refine ⟨trivial, fun userId => ?_⟩
  obtain ⟨hwithdrawn, hexecuted, hone⟩ := hok userId
  -- a change of the user's row that the transaction has made
  have hchanged : ∀ status, Sets r.now i userId status → ∃ row new, r.now.rows userId = some row ∧
      r.now.view i userId = some new ∧ new.status = status ∧
        Tame c userId (commits r.past) row new := by
    rintro status ⟨new, hdraft, hstatus⟩
    obtain ⟨row, new', hrow, heq, htame⟩ := h userId _ hdraft
    obtain rfl := Option.some.inj heq
    exact ⟨row, new, hrow, by simp [Store.view, hdraft], hstatus, htame⟩
  -- what becomes of the committed row
  have hbecomes : ∀ row, r.now.rows userId = some row → ∃ new, r.now.view i userId = some new ∧
      (row.status ≠ .live → new.status ≠ .live) ∧
      (row.status = .withdrawn → new.status = .withdrawn ∨ ∃ e ∈ commits r.past, Executes userId e) := by
    intro row hrow
    cases hdraft : r.now.drafts i userId with
    | none => exact ⟨row, by simp [Store.view, hdraft, hrow], id, .inl⟩
    | some d =>
      obtain ⟨row', new, hrow', rfl, htame⟩ := h userId d hdraft
      rw [hrow] at hrow'
      obtain rfl := Option.some.inj hrow'
      exact ⟨new, by simp [Store.view, hdraft], htame.ended, htame.withdrawn⟩
  have hkept : ∀ e ∈ commits r.past, Withdraws userId e →
      ∃ new, r.now.view i userId = some new ∧ new.status = .withdrawn := by
    intro e he hw
    obtain ⟨row, hrow, hstatus⟩ := hwithdrawn e he hw
    obtain ⟨new, hnew, -, hstays⟩ := hbecomes row hrow
    rcases hstays hstatus with hstatus' | ⟨e', he', hx⟩
    · exact ⟨new, hnew, hstatus'⟩
    · exact absurd hx (hone e he e' he' hw)
  have hover : ∀ e ∈ commits r.past, Executes userId e →
      ∃ new, r.now.view i userId = some new ∧ new.status ≠ .live := by
    intro e he hx
    obtain ⟨row, hrow, hstatus⟩ := hexecuted e he hx
    obtain ⟨new, hnew, hstays, -⟩ := hbecomes row hrow
    exact ⟨new, hnew, hstays hstatus⟩
  refine ⟨?_, ?_, ?_⟩
  · rintro e (_ | ⟨_, he⟩) hw
    · obtain ⟨-, new, -, hnew, hstatus, -⟩ := hchanged _ hw.sets
      exact ⟨new, hnew, hstatus⟩
    · exact hkept e he hw
  · rintro e (_ | ⟨_, he⟩) hx
    · obtain ⟨-, new, -, hnew, hstatus, -⟩ := hchanged _ hx.sets
      exact ⟨new, hnew, by simp [hstatus]⟩
    · exact hover e he hx
  · rintro e (_ | ⟨_, he⟩) e' (_ | ⟨_, he'⟩) hw hx
    · obtain ⟨version, hcall⟩ := hw.call
      obtain ⟨version', evaluated, hcall'⟩ := hx.call
      rw [hcall] at hcall'
      cases hcall'
    · obtain ⟨row, new, hrow, -, -, htame⟩ := hchanged _ hw.sets
      obtain ⟨row', hrow', hstatus'⟩ := hexecuted e' he' hx
      rw [hrow] at hrow'
      obtain rfl := Option.some.inj hrow'
      exact hstatus' (htame.live hw.call)
    · obtain ⟨-, new, -, hnew, hstatus, -⟩ := hchanged _ hx.sets
      obtain ⟨new', hnew', hstatus'⟩ := hkept e he hw
      rw [hnew] at hnew'
      obtain rfl := Option.some.inj hnew'
      rw [hstatus] at hstatus'
      cases hstatus'
    · exact hone e he e' he' hw hx

end Law

/-! ## The calls -/

section Calls

variable {i : Nat} {c : SlotCall} {userId : UserId} {r : SlotHistory}

/-- A flush is a tame change, or none. -/
theorem flush_wp {loaded new : Proposal} (hdrafted : Drafted i c r)
    (htame : ∀ r₁, slotLaw.Left FindsUnwithdrawn i r r₁ → ∀ row, r₁.now.view i userId = some row →
      ((changeColumns loaded new row).status = .executing → row.status ≠ .withdrawn) →
        Tame c userId (commits r₁.past) row (changeColumns loaded new row)) :
    (flush userId loaded new).Wp slotRules i c
      (fun res _ r' => res = .ok () → Drafted i c r' ∧
        (new ≠ loaded → ∃ row, r'.now.drafts i userId = some (some (changeColumns loaded new row)))) () r := by
  rw [flush]
  split
  · rename_i hsame
    exact wp_pure fun _ => ⟨hdrafted, fun hne => absurd hsame hne⟩
  · refine wp_bind (wp_bind (CommitLaw.wp_lockRow fun r₁ hleft _ r₂ hpast => ⟨fun _ _ => ?_, ?_⟩))
    · intro h
      cases h
    · intro row hrow hnow
      have hdrafted₂ : Drafted i c r₂ := by
        have hdrafted₁ := hdrafted.left hleft
        rw [Drafted, hnow, hpast, commits_cons_other (by rintro ⟨⟩)]
        exact hdrafted₁
      have hholds : r₂.now.Holds i userId (some row) := by
        rw [hnow, ← hrow]
        exact r₁.now.take_holds i userId
      refine wp_bind (CommitLaw.wp_writeRow fun r₃ hleft₃ hallowed r₄ hnow₄ hpast₄ _ => ?_)
      have hdrafted₃ := hdrafted₂.left hleft₃
      have hview := (hleft₃.1.1.kept.holds hholds).view
      have htame₃ : Tame c userId (commits r₃.past) row (changeColumns loaded new row) := by
        refine (htame r₁ hleft row hrow fun hstatus => hallowed hstatus row hview).mono fun e he => ?_
        rw [mem_commits] at he ⊢
        refine ⟨hleft₃.1.1.mem_past ?_, he.2⟩
        rw [hpast]
        exact List.mem_cons_of_mem _ he.1
      obtain ⟨now₄, past₄⟩ := r₄
      obtain rfl : now₄ = _ := hnow₄
      refine ⟨hdrafted₃.draft hview htame₃ ?_, fun _ => ⟨row, ?_⟩⟩
      · rw [show past₄ = _ from hpast₄, commits_cons_other (by rintro ⟨⟩)]
      · simp [Store.draft]

/-- What an approval makes of a row is tame where it ends no row that is withdrawn, and makes no row live. -/
theorem tame_approve {version : Int} {evaluated : Evaluated} {cs : List SlotEvent} {row new : Proposal}
    (h : new.status = row.status ∨ new.status = .withdrawn ∨
      new.status ≠ .live ∧ (row.status ≠ .withdrawn ∨ ∃ e ∈ cs, Executes userId e)) :
    Tame (.approve userId version evaluated) userId cs row new := by
  refine ⟨fun hrow => ?_, fun hrow => ?_, by rintro ⟨version', ⟨⟩⟩⟩
  · rcases h with h | h | ⟨h, -⟩
    · rw [h]
      exact hrow
    · simp [h]
    · exact h
  · rcases h with h | h | ⟨-, h | h⟩
    · exact .inl (h.trans hrow)
    · exact .inl h
    · exact absurd hrow h
    · exact .inr h

/-- What `_keep` writes over a live slot leaves the status of the row, or withdraws it. -/
theorem status_keep {slot row : Proposal} {new : Option Proposal} {document : Document}
    {trigger : ProposalTrigger} {lines : List String} (hlive : slot.status = .live)
    (h : keep (some slot) document trigger = .ok (new, lines)) :
    (changeColumns slot (new.getD slot) row).status = row.status ∨
      (changeColumns slot (new.getD slot) row).status = .withdrawn := by
  rcases (keep_ok h).2.2 with rfl | rfl | ⟨version, rfl⟩
  · simp [changeColumns]
  · simp [changeColumns, setStatus, hlive]
  · simp [changeColumns, saveProposal, hlive]

theorem keepRow_wp {version : Int} {evaluated : Evaluated} {slot : Proposal} {document : Document}
    {trigger : ProposalTrigger} (hlive : slot.status = .live)
    (hdrafted : Drafted i (.approve userId version evaluated) r) :
    (keepRow userId slot document trigger).Wp slotRules i (.approve userId version evaluated)
      (fun res _ r' => ∀ lines, res = .ok lines → Drafted i (.approve userId version evaluated) r') () r := by
  refine wp_bind (wp_fromExcept ?_)
  cases hkeep : keep (some slot) document trigger with
  | error e => exact fun _ h => by cases h
  | ok kept =>
    obtain ⟨new, lines⟩ := kept
    refine wp_bind (Proc.wp_mono (flush_wp hdrafted fun _ _ row _ _ => tame_approve ?_) ?_)
    · rcases status_keep hlive hkeep with hstatus | hstatus
      · exact .inl hstatus
      · exact .inr (.inl hstatus)
    · rintro (e | ⟨⟩) ⟨⟩ r' hflushed
      · exact fun _ h => by cases h
      · exact fun _ _ => (hflushed rfl).1

/-- The decision changes the row tamely, and to EXECUTING where it lets the plan through. -/
theorem decide_wp {version : Int} {evaluated : Evaluated} {document : Document} (hclean : r.now.Clean i) :
    (ProposalRow.decide userId version document).Wp slotRules i (.approve userId version evaluated)
      (fun res _ r' => ∀ verdict lines, res = .ok (verdict, lines) →
        Drafted i (.approve userId version evaluated) r' ∧
          (verdict = none → Sets r'.now i userId .executing)) () r := by
  refine wp_bind (CommitLaw.wp_select fun r₁ hleft r₂ hnow _ => ?_)
  have hclean₂ : r₂.now.Clean i := by
    rw [hnow]
    exact hleft.1.1.kept.clean hclean
  have hdrafted : Drafted i (.approve userId version evaluated) r₂ := drafted_of_clean hclean₂
  dsimp only
  split
  · exact wp_pure fun _ _ h => by cases h; exact ⟨hdrafted, by rintro ⟨⟩⟩
  · rename_i slot hslot
    have hlive := (getLiveProposal_some.mp hslot).2
    split
    · exact wp_pure fun _ _ h => by cases h; exact ⟨hdrafted, by rintro ⟨⟩⟩
    · split
      · refine wp_bind (Proc.wp_mono (keepRow_wp hlive hdrafted) ?_)
        rintro (e | kept) ⟨⟩ r' hkept _ _ h
        · cases h
        · cases h
          exact ⟨hkept kept rfl, by rintro ⟨⟩⟩
      · refine wp_bind (wp_fromExcept ?_)
        cases isMaterial slot.plan document with
        | error e => exact fun _ _ h => by cases h
        | ok material =>
          cases material with
          | true =>
            refine wp_bind (Proc.wp_mono (keepRow_wp hlive hdrafted) ?_)
            rintro (e | kept) ⟨⟩ r' hkept _ _ h
            · cases h
            · cases h
              exact ⟨hkept kept rfl, by rintro ⟨⟩⟩
          | false =>
            refine wp_bind (Proc.wp_mono (flush_wp hdrafted fun _ _ row _ _ => tame_approve (.inl ?_)) ?_)
            · simp [changeColumns, hlive]
            rintro (e | ⟨⟩) ⟨⟩ r₃ hsaved
            · exact fun _ _ h => by cases h
            refine wp_bind (Proc.wp_mono (flush_wp (hsaved rfl).1 fun _ _ row _ hallowed => tame_approve ?_) ?_)
            · exact .inr (.inr ⟨by simp [changeColumns], .inl (hallowed (by simp [changeColumns]))⟩)
            rintro (e | ⟨⟩) ⟨⟩ r₄ hexecuting
            · exact fun _ _ h => by cases h
            rintro verdict lines h
            cases h
            obtain ⟨hdrafted₄, hwrote⟩ := hexecuting rfl
            obtain ⟨row, hdraft⟩ := hwrote (by simp)
            exact ⟨hdrafted₄, fun _ => ⟨_, hdraft, by simp [changeColumns]⟩⟩

/-- A unit of work that changes the row tamely commits, and is over. What it has set is committed so. -/
theorem unit_wp (userId : UserId) {α : Type} {m : ProposalWork α} (sets : α → Option ProposalStatus)
    (h : m.Wp slotRules i c (fun res _ r' => ∀ a, res = .ok a → Drafted i c r' ∧
      ∀ status ∈ sets a, Sets r'.now i userId status) () r) :
    (transaction m).Wp slotRules i c (fun res _ r' => ∀ a, res = .ok a → r'.now.Clean i ∧
      r.past <:+ r'.past ∧ ∀ status ∈ sets a, ∃ e ∈ r'.past, e.who = i ∧ e.call = c ∧
        e.op = .commit ∧ Sets e.before e.who userId status) () r := by
  refine CommitLaw.wp_transaction (Program.wp_mono (CommitLaw.wp_past h) ?_)
  rintro ⟨e | a, ⟨⟩⟩ r' ⟨hm, hpast⟩ r₁ hleft
  · exact fun r₂ _ a h => by cases h
  · obtain ⟨hdrafted, hsets⟩ := hm a rfl
    refine fun _ => ⟨(hdrafted.left hleft).respects hleft.2.2, fun r₂ hnow hpast₂ a' ha => ?_⟩
    obtain rfl := Except.ok.inj ha
    refine ⟨?_, ?_, fun status hstatus => ⟨commitOf i c r₁.now, ?_, rfl, rfl, rfl, ?_⟩⟩
    · rw [hnow]
      exact r₁.now.clean_commit i
    · rw [hpast₂]
      exact (hpast.trans hleft.1.1.suffix).trans (List.suffix_cons _ _)
    · rw [hpast₂]
      exact List.mem_cons_self
    · obtain ⟨row, hrow, hstatus'⟩ := hsets status hstatus
      refine ⟨row, ?_, hstatus'⟩
      rw [← hrow]
      exact congrFun hleft.1.1.kept.drafts userId

/-- A unit of work that changes nothing. -/
theorem read_wp {α : Type} {m : ProposalWork α}
    (h : m.Wp slotRules i c (fun res _ r' => ∀ a, res = .ok a → r'.now.Clean i) () r) :
    (transaction m).Wp slotRules i c (fun res _ r' => ∀ a, res = .ok a → r'.now.Clean i) () r := by
  refine CommitLaw.wp_transaction (Program.wp_mono h ?_)
  rintro ⟨e | a, ⟨⟩⟩ r' hclean r₁ hleft
  · exact fun r₂ _ a h => by cases h
  · have hdrafted : Drafted i c r₁ := drafted_of_clean (hleft.1.1.kept.clean (hclean a rfl))
    refine fun _ => ⟨hdrafted.respects hleft.2.2, fun r₂ hnow _ _ _ => ?_⟩
    rw [hnow]
    exact r₁.now.clean_commit i

theorem checkVersion_wp {version : Int} (hclean : r.now.Clean i) :
    (checkVersion userId version).Wp slotRules i c (fun res _ r' => ∀ a, res = .ok a → r'.now.Clean i) () r := by
  refine wp_bind (CommitLaw.wp_select fun r₁ hleft r₂ hnow _ => ?_)
  have hclean₂ : r₂.now.Clean i := by
    rw [hnow]
    exact hleft.1.1.kept.clean hclean
  dsimp only
  split
  · exact fun _ _ => hclean₂
  · split
    · exact fun _ _ => hclean₂
    · exact fun _ _ => hclean₂

theorem current_wp (hclean : r.now.Clean i) :
    (current userId).Wp slotRules i c (fun res _ r' => ∀ a, res = .ok a → r'.now.Clean i) () r := by
  refine wp_bind (CommitLaw.wp_select fun r₁ hleft r₂ hnow _ => ?_)
  have hclean₂ : r₂.now.Clean i := by
    rw [hnow]
    exact hleft.1.1.kept.clean hclean
  exact fun _ _ => hclean₂

/-- The row of an approval that has executed becomes EXECUTED, or stays. -/
theorem setExecuted_wp {version : Int} {evaluated : Evaluated} (hclean : r.now.Clean i)
    (hexecuted : ∃ e ∈ r.past, Executes userId e) :
    (setExecuted userId).Wp slotRules i (.approve userId version evaluated)
      (fun res _ r' => ∀ a, res = .ok a → Drafted i (.approve userId version evaluated) r') () r := by
  refine wp_bind (CommitLaw.wp_select fun r₁ hleft r₂ hnow hpast => ?_)
  have hclean₂ : r₂.now.Clean i := by
    rw [hnow]
    exact hleft.1.1.kept.clean hclean
  have hdrafted : Drafted i (.approve userId version evaluated) r₂ := drafted_of_clean hclean₂
  have hexecuted₂ : ∃ e ∈ r₂.past, Executes userId e := by
    obtain ⟨e, he, hx⟩ := hexecuted
    rw [hpast]
    exact ⟨e, List.mem_cons_of_mem _ (hleft.1.1.mem_past he), hx⟩
  dsimp only
  split
  · exact fun _ _ => hdrafted
  · rename_i slot _
    refine Proc.wp_mono (flush_wp hdrafted fun r₃ hleft₃ row _ _ => tame_approve ?_) ?_
    · by_cases hstatus : slot.status = .executed
      · exact .inl (by simp [changeColumns, hstatus])
      · obtain ⟨e, he, hx⟩ := hexecuted₂
        refine .inr (.inr ⟨by simp [changeColumns, Ne.symm hstatus], .inr ⟨e, ?_, hx⟩⟩)
        exact mem_commits.mpr ⟨hleft₃.1.1.mem_past he, hx.op⟩
    · rintro res ⟨⟩ r' hflushed a rfl
      exact (hflushed rfl).1

/-- What a call has done where it ends with this result. -/
def Done (userId : UserId) (res : Except Exn SlotOutcome) (r : SlotHistory) : Prop :=
  (res = .ok (.withdrawn true) → ∃ e ∈ r.past, Withdraws userId e) ∧
    ∀ proposal, res = .ok (.rebalanced true proposal) → ∃ e ∈ r.past, Executes userId e

theorem decided_wp {version : Int} {evaluated : Evaluated} (hclean : r.now.Clean i) :
    (decided userId version evaluated.document).Wp slotRules i (.approve userId version evaluated)
      (fun res _ r' => ∀ executing, res = .ok executing → r'.now.Clean i ∧
        (executing = true → ∃ e ∈ r'.past, Executes userId e)) () r := by
  generalize evaluated.document = document
  cases document with
  | none => exact fun executing h => ⟨hclean, fun hx => by subst hx; cases h⟩
  | some document =>
    refine wp_bind (Proc.wp_mono (unit_wp userId
      (fun a => if a.1 = none then some .executing else none)
      (Proc.wp_mono (decide_wp hclean) ?_)) ?_)
    · rintro res ⟨⟩ r' hdecided ⟨verdict, lines⟩ rfl
      obtain ⟨hdrafted, hsets⟩ := hdecided verdict lines rfl
      refine ⟨hdrafted, fun status hstatus => ?_⟩
      by_cases hverdict : verdict = none
      · rw [if_pos hverdict] at hstatus
        cases hstatus
        exact hsets hverdict
      · rw [if_neg hverdict] at hstatus
        cases hstatus
    · rintro (e | ⟨verdict, lines⟩) ⟨⟩ r' hunit
      · exact fun _ h => by cases h
      obtain ⟨hclean', -, hsets⟩ := hunit _ rfl
      intro executing h
      cases h
      refine ⟨hclean', fun hx => ?_⟩
      have hnone : verdict = none := by simpa using hx
      obtain ⟨e, he, -, hcall, hop, hset⟩ := hsets .executing (by simp [hnone])
      exact ⟨e, he, ⟨_, _, hcall⟩, hop, hset⟩

theorem closed_wp {version : Int} {evaluated : Evaluated} {executing : Bool} (hclean : r.now.Clean i)
    (hexecuted : executing = true → ∃ e ∈ r.past, Executes userId e) :
    (closed userId executing).Wp slotRules i (.approve userId version evaluated)
      (fun res _ r' => ∀ a, res = .ok a → r'.now.Clean i ∧
        (executing = true → ∃ e ∈ r'.past, Executes userId e)) () r := by
  rw [closed]
  split
  · rename_i hx
    refine Proc.wp_mono (unit_wp userId (fun _ => none)
      (Proc.wp_mono (setExecuted_wp hclean (hexecuted hx)) ?_)) ?_
    · exact fun res _ r' h a ha => ⟨h a ha, by rintro _ ⟨⟩⟩
    · rintro res ⟨⟩ r' hunit a ha
      obtain ⟨hclean', hpast, -⟩ := hunit a ha
      obtain ⟨e, he, hexecutes⟩ := hexecuted hx
      exact ⟨hclean', fun _ => ⟨e, hpast.mem he, hexecutes⟩⟩
  · exact fun _ _ => ⟨hclean, hexecuted⟩

theorem approve_wp {version : Int} {evaluated : Evaluated} (hclean : r.now.Clean i) :
    (approve userId version evaluated).Wp slotRules i (.approve userId version evaluated)
      (fun res _ r' => Done userId res r') () r := by
  have hraised : ∀ (e : Exn) (r' : SlotHistory), Done userId (.error e) r' :=
    fun e r' => ⟨by rintro ⟨⟩, by rintro _ ⟨⟩⟩
  refine wp_bind (Proc.wp_mono (read_wp (checkVersion_wp hclean)) ?_)
  rintro (e | ⟨⟩) ⟨⟩ r₁ hclean₁
  · exact hraised e r₁
  refine wp_bind (Proc.wp_mono (decided_wp (hclean₁ () rfl)) ?_)
  rintro (e | executing) ⟨⟩ r₂ hdecided
  · exact hraised e r₂
  obtain ⟨hclean₂, hexecuted₂⟩ := hdecided executing rfl
  refine wp_bind (Proc.wp_mono (closed_wp hclean₂ hexecuted₂) ?_)
  rintro (e | ⟨⟩) ⟨⟩ r₃ hclosed
  · exact hraised e r₃
  obtain ⟨hclean₃, hexecuted₃⟩ := hclosed () rfl
  dsimp only
  split
  · exact hraised _ r₃
  · refine wp_bind (Program.wp_mono (CommitLaw.wp_past (read_wp (current_wp hclean₃))) ?_)
    rintro ⟨e | proposal, ⟨⟩⟩ r₄ ⟨-, hpast⟩
    · exact hraised e r₄
    · refine ⟨by rintro ⟨⟩, fun proposal' h => ?_⟩
      cases h
      obtain ⟨e, he, hexecutes⟩ := hexecuted₃ rfl
      exact ⟨e, hpast.mem he, hexecutes⟩

/-- A withdrawal changes the row that it holds from live to withdrawn. -/
theorem withdraw_wp {version : Int} (hclean : r.now.Clean i) :
    (slotWork (.withdraw userId version)).Wp slotRules i (.withdraw userId version)
      (fun res _ r' => Done userId res r') () r := by
  have hbody : (withdraw userId version).Wp slotRules i (.withdraw userId version)
      (fun res _ r' => ∀ done, res = .ok done → Drafted i (.withdraw userId version) r' ∧
        ∀ status ∈ (if done = true then some ProposalStatus.withdrawn else none),
          Sets r'.now i userId status) () r := by
    refine wp_bind (CommitLaw.wp_lockRow fun r₁ hleft _ r₂ hpast => ⟨fun _ hnow => ?_, fun slot hslot hnow => ?_⟩)
    · rintro done ⟨⟩
      refine ⟨drafted_of_clean ?_, by rintro _ ⟨⟩⟩
      rw [hnow]
      exact hleft.1.1.kept.clean hclean
    · have hclean₂ : r₂.now.Clean i := by
        rw [hnow]
        exact (hleft.1.1.kept.clean hclean).take userId
      have hdrafted : Drafted i (.withdraw userId version) r₂ := drafted_of_clean hclean₂
      have hholds : r₂.now.Holds i userId (some slot) := by
        rw [hnow, ← hslot]
        exact r₁.now.take_holds i userId
      dsimp only
      split
      · rintro done ⟨⟩
        exact ⟨hdrafted, by rintro _ ⟨⟩⟩
      · rename_i hlive
        have hlive := not_not.mp hlive
        split
        · rintro done ⟨⟩
        · refine wp_bind (Proc.wp_mono (flush_wp hdrafted fun r₃ hleft₃ row hrow _ => ?_) ?_)
          · rw [(hleft₃.1.1.kept.holds hholds).view] at hrow
            obtain rfl := Option.some.inj hrow
            refine ⟨fun h => absurd hlive h, fun h => ?_, fun _ => hlive⟩
            rw [hlive] at h
            cases h
          · rintro (e | ⟨⟩) ⟨⟩ r' hflushed
            · exact fun _ h => by cases h
            rintro done ⟨⟩
            obtain ⟨hdrafted', hwrote⟩ := hflushed rfl
            refine ⟨hdrafted', ?_⟩
            rintro status ⟨⟩
            have hne : ({ slot with status := .withdrawn } : Proposal) ≠ slot := by
              intro heq
              rw [← heq] at hlive
              cases hlive
            obtain ⟨row, hdraft⟩ := hwrote hne
            exact ⟨_, hdraft, by simp [changeColumns, hlive]⟩
  refine wp_bind (Proc.wp_mono (unit_wp userId _ hbody) ?_)
  rintro (e | done) ⟨⟩ r' hunit
  · exact ⟨by rintro ⟨⟩, by rintro _ ⟨⟩⟩
  · obtain ⟨-, -, hsets⟩ := hunit done rfl
    refine ⟨fun h => ?_, by rintro _ ⟨⟩⟩
    cases h
    obtain ⟨e, he, -, hcall, hop, hset⟩ := hsets .withdrawn rfl
    exact ⟨e, he, ⟨_, hcall⟩, hop, hset⟩

/-- The user of a call. -/
def userOf : SlotCall → UserId
  | .withdraw userId _ => userId
  | .approve userId _ _ => userId

theorem slotCode_covers : slotRules.Covers slotCode (fun i r => r.now.Clean i)
    fun _ c res r => Done (userOf c) res.1 r where
  fresh_stable := fun _ _ _ hclean hr _ => hr.1.kept.clean hclean
  post_stable := by
    rintro i c res r r' ⟨hwithdrawn, hexecuted⟩ hr -
    refine ⟨fun h => ?_, fun proposal h => ?_⟩
    · obtain ⟨e, he, hw⟩ := hwithdrawn h
      exact ⟨e, hr.1.mem_past he, hw⟩
    · obtain ⟨e, he, hx⟩ := hexecuted proposal h
      exact ⟨e, hr.1.mem_past he, hx⟩
  code_ok := by
    intro i c r _ hclean
    cases c with
    | withdraw userId version => exact withdraw_wp hclean
    | approve userId version evaluated => exact approve_wp hclean

end Calls

/-! ## At most one of the two -/

/-- In every run in which no `UPDATE` to EXECUTING finds its row withdrawn, whatever the proposals at first,
the plans that the evaluations bring, and the deaths: once a withdrawal has answered `True`, no approval of
that user ever executes, and none has. -/
theorem withdrawal_final {rows : Rows UserId Proposal} {keys : List UserId} (hnodup : keys.Nodup)
    (hkeys : ∀ userId, rows userId ≠ none → userId ∈ keys)
    {σ τ : Config (Stmt UserId Proposal) Reply SlotCall SlotHistory (Except Exn SlotOutcome × Unit)}
    (h : Reaches ((semantics UserId Proposal SlotCall).recorded.given FindsUnwithdrawn) slotCode
      (.start ⟨Store.idle rows keys, []⟩) σ)
    {i : Nat} {userId : UserId} {version : Int}
    (hi : σ.threads i = .live (.withdraw userId version) (.ret (.ok (.withdrawn true), ())))
    (hlater : Reaches ((semantics UserId Proposal SlotCall).recorded.given FindsUnwithdrawn) slotCode σ τ) :
    (∀ e ∈ τ.world.past, ¬Executes userId e) ∧
      ∀ j version evaluated proposal, τ.threads j ≠
        .live (.approve userId version evaluated) (.ret (.ok (.rebalanced true proposal), ())) := by
  have hstart : slotRules.inv ⟨Store.idle rows keys, []⟩ := by
    refine ⟨Store.idle_sound hnodup hkeys, fun _ => ⟨?_, ?_, ?_⟩⟩
    · exact fun e he => absurd he (List.not_mem_nil)
    · exact fun e he => absurd he (List.not_mem_nil)
    · exact fun e he => absurd he (List.not_mem_nil)
  have hfresh : ∀ i : Nat, (Store.idle rows keys).Clean i := fun _ _ => rfl
  obtain ⟨-, hthreads⟩ := Contract.sound slotCode_covers hstart hfresh h
  obtain ⟨⟨-, hok⟩, hthreads'⟩ := Contract.sound slotCode_covers hstart hfresh (h.trans hlater)
  have hdone := hthreads i
  rw [hi] at hdone
  obtain ⟨e, he, hw⟩ := hdone.1 rfl
  have he' : e ∈ commits τ.world.past :=
    mem_commits.mpr ⟨(past_suffix_of_reaches hlater).subset he, hw.op⟩
  have hnone : ∀ e' ∈ τ.world.past, ¬Executes userId e' :=
    fun e' he'' hx => (hok userId).one e he' e' (mem_commits.mpr ⟨he'', hx.op⟩) hw hx
  refine ⟨hnone, fun j version' evaluated proposal hj => ?_⟩
  have hdone' := hthreads' j
  rw [hj] at hdone'
  obtain ⟨e', he'', hx⟩ := hdone'.2 proposal rfl
  exact hnone e' he'' hx

/-! ## One that is overtaken -/

def seller : UserId := ⟨List.replicate 16 0x3C, List.length_replicate⟩

/-- A plan that sells. -/
def sellsOne : Document where
  fiat := "EUR"
  legs := [{ asset := "XBT", pair := "XXBTZEUR", side := "SELL", amountFiat := "100"
             minimumFiat := some "10", note := none }]

/-- The seller has a live proposal. -/
def proposed : Rows UserId Proposal := fun userId =>
  if userId = seller then some ⟨1, sellsOne, .manual, .live⟩ else none

theorem proposed_keys (userId : UserId) (h : proposed userId ≠ none) : userId ∈ [seller] := by
  rw [proposed] at h
  split at h
  · rename_i heq
    simp [heq]
  · exact absurd rfl h

/-- `n` statements of a thread. -/
def statements (i n : Nat) : List (Turn SlotCall Unit) := List.replicate n (.act i ())

def approval : SlotCall := .approve seller 1 ⟨some sellsOne, none⟩

/-- A withdrawal, and then an approval of what was withdrawn. -/
def oneThenTheOther : List (Turn SlotCall Unit) :=
  [.spawn 0 (.withdraw seller 1)] ++ statements 0 4 ++ [.spawn 1 approval] ++ statements 1 2

theorem withdrawal_final_oneThenTheOther :
    ∃ σ, Reaches ((semantics UserId Proposal SlotCall).recorded.given FindsUnwithdrawn) slotCode
        (.start ⟨Store.idle proposed [seller], []⟩) σ ∧
      ((σ.world.now.rows seller).map Proposal.status) = some .withdrawn ∧
        ∀ e ∈ σ.world.past, ¬Executes seller e := by
  obtain ⟨σ, hσ, hc⟩ := reaches_of_replay slotCode (responder.recorded.given FindsUnwithdrawn)
    (.start ⟨Store.idle proposed [seller], []⟩) oneThenTheOther (fun σ => Decidable.decide
      ((σ.threads 0).result = some (.withdraw seller 1, .ok (.withdrawn true), ()) ∧
        (σ.world.now.rows seller).map Proposal.status = some .withdrawn)) (by decide +kernel)
  obtain ⟨hthread, hrow⟩ := of_decide_eq_true hc
  exact ⟨σ, hσ, hrow, (withdrawal_final (List.nodup_singleton seller) proposed_keys hσ
    (Thread.live_of_result hthread) .refl).1⟩

/-- An approval reads the slot, the withdrawal answers, and the approval goes on. -/
def overtaken : List (Turn SlotCall Unit) :=
  [.spawn 0 approval] ++ statements 0 3 ++ [.spawn 1 (.withdraw seller 1)] ++ statements 1 4 ++ statements 0 9

/-- The withdrawal has answered `True`, and the approval has sent the plan. -/
theorem withdrawn_and_executed :
    ∃ σ, Reaches (semantics UserId Proposal SlotCall) slotCode (.start (Store.idle proposed [seller])) σ ∧
      σ.threads 1 = .live (.withdraw seller 1) (.ret (.ok (.withdrawn true), ())) ∧
        σ.threads 0 = .live approval (.ret (.ok (.rebalanced true none), ())) := by
  obtain ⟨σ, hσ, hc⟩ := reaches_of_replay slotCode responder (.start (Store.idle proposed [seller]))
    overtaken (fun σ => Decidable.decide
      ((σ.threads 1).result = some (.withdraw seller 1, .ok (.withdrawn true), ()) ∧
        (σ.threads 0).result = some (approval, .ok (.rebalanced true none), ()))) (by decide +kernel)
  obtain ⟨hwithdrawn, hexecuted⟩ := of_decide_eq_true hc
  exact ⟨σ, hσ, Thread.live_of_result hwithdrawn, Thread.live_of_result hexecuted⟩

end Coinpilot.Records
