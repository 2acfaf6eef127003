import Coinpilot.Safety.Sells

/-!
# What an approval binds

The proposal slot over whole runs. Its version never goes back and a live plan never changes under its
version; an approval sends only what was approved; a proposal leaves the slot live exactly when it has
something to send (`versions_bind`).

`EXECUTED` is another matter: the closing step of an approval is keyed by the user, and a proposal that is
stored before it is closed in its place (`later_proposal_executed`). Where no version is stored between an
approval that went through and its closing step, a version is executed only by its own approval
(`executed_by_its_approval`).
-/

set_option autoImplicit false

namespace Coinpilot.Safety

open Coinpilot.Lib Coinpilot.Lib.Program Coinpilot.Exchange Coinpilot.Engine Coinpilot.Core

section Runs

variable {honest : Prop} {w₀ : World} {σ τ : State}

/-- The slot moves forward in every run. -/
theorem slot_of_runs (h : Runs honest σ τ) :
    Advances σ.world.now.db.proposal τ.world.now.db.proposal := by
  induction h with
  | refl => exact .refl _
  | tail _ hs ih =>
    refine ih.trans ?_
    cases hs with
    | env he =>
      rw [show _ = _ from he.1.proposal]
      exact .refl _
    | spawn i c hu => exact .refl _
    | act hl hst => exact (slot_step hst.1).1
    | die hl => exact .refl _

/-- Each operation finds the slot as the one before it left it. -/
theorem slot_linked (h : Runs honest (startOf w₀) σ) :
    Linked (fun w : World => w.db.proposal) σ.world.now.db.proposal σ.world.past :=
  linked_of_reaches (S := system honest) (f := fun w : World => w.db.proposal)
    (fun he => he.proposal) (fun _ _ => rfl) h

/-- The slot of a run is empty, or was made from a plan. -/
theorem storedOk_of_runs (h₀ : Fresh w₀) (h : Runs honest (startOf w₀) σ) :
    StoredOk σ.world.now.db.proposal :=
  (Contract.sound (authority_covers honest) (fresh_storedOk h₀) (fun _ => trivial) h).1

/-- Operations that write no proposal leave the slot alone. -/
theorem slot_same {i : Nat} {o : Op} {w w' : World} {b : Ans o} (h : answered honest i o w b w')
    (ho : ∀ t, o = .tx t → t.writesProposal = false) : w'.db.proposal = w.db.proposal := by
  cases o with
  | tx t =>
    rcases h with ⟨e, -, -, rfl⟩ | ⟨a, db, hrun, -, rfl⟩
    · rfl
    · exact Txn.proposal_of_run hrun (ho t rfl)
  | post r =>
    obtain ⟨remote, rfl, -⟩ := h
    rfl
  | tryLock =>
    rcases h with ⟨-, -, rfl⟩ | ⟨-, rfl⟩ <;> rfl
  | unlock =>
    rcases h with rfl | ⟨-, rfl⟩ <;> rfl
  | now =>
    obtain ⟨-, rfl⟩ := h
    rfl
  | _ =>
    obtain rfl := h
    rfl

end Runs

/-! ## What an approval binds -/

/-- An approval of `version` went through in this call, and the plan it executes is the stored one: it
sends the same legs, and each amount is within its minimum of the stored amount. -/
def BoundTo (i : Nat) (version : Int) (past : List Ev) : Prop :=
  ∃ c planned lines before after p fiat old,
    ⟨i, c, .tx (.decideApprove version planned), .ok (none, lines), before, after⟩ ∈ past ∧
      before.db.proposal = some p ∧ p.status = .live ∧ p.version = version ∧
      p.plan = planDocument fiat old ∧ SameLegs old planned.legs ∧
      ∀ b ∈ planned.legs, b.note = none → ∀ a ∈ old, a.note = none → a.asset = b.asset → Near a b

/-- Where the last operation that wrote the slot is the decision of a proposal, the slot is live exactly
when the plan has a leg to send. -/
def ProposedLive (w : Rec) : Prop :=
  ∀ newer older i trigger planned t answer before after,
    w.past = newer ++ ⟨i, .propose trigger, .tx (.decidePropose planned t), .ok answer, before, after⟩ ::
      older →
    (∀ d ∈ newer, ∀ t', d.op = .tx t' → t'.writesProposal = false) →
    ((getLiveProposal w.now.db.proposal).isSome = true ↔ ∃ leg ∈ planned.legs, leg.note = none)

/-- Stored plans compare: each leg they send has a minimum, and no comparison with another stored plan or
with a fresh one raises. -/
def Comparable (slot slot' : Option Proposal) : Prop :=
  ∀ p, slot = some p → (∀ leg ∈ p.plan.legs, leg.note = none → leg.minimumFiat.isSome = true) ∧
    (∀ q, slot' = some q → ∃ b, isMaterial p.plan q.plan = .ok b) ∧
    ∀ planned : Planned, ∃ b, isMaterial p.plan (planDocument planned.view.fiat planned.legs) = .ok b

/-- The legs that are sent of a document made from a plan have a minimum. -/
theorem minimum_of_fromPlan {d : Document} (h : FromPlan d) {leg : DocumentLeg} (hleg : leg ∈ d.legs)
    (hn : leg.note = none) : leg.minimumFiat.isSome = true := by
  obtain ⟨fiat, legs, -, rfl⟩ := h
  obtain ⟨planned, -, rfl⟩ := List.mem_map.mp hleg
  obtain ⟨m, least, -, hmin, -⟩ := planned.sized hn
  simp [documentLeg, hmin]

theorem isMaterial_of_fromPlan {d d' : Document} (h : FromPlan d) (h' : FromPlan d') :
    ∃ b, isMaterial d d' = .ok b := by
  obtain ⟨fiat, legs, hd, rfl⟩ := h
  obtain ⟨fiat', legs', hd', rfl⟩ := h'
  obtain ⟨b, hb, -⟩ := isMaterial_spec fiat fiat' hd hd'
  exact ⟨b, hb⟩

/-- A proposal, and so many operations of the approval of its first version. -/
def proposeThen (m : Reply) (n : Nat) : List (Turn Request Reply) :=
  .spawn 0 (.propose .api) :: acts 0 .accept 19 ++ .spawn 1 (.approve 1) :: acts 1 m n

/-- In every run of any calls of a user: the slot moves forward, an approval sends only what was
approved, a proposal leaves it live exactly when there is something to send, and stored plans
compare. -/
theorem versions_bind {honest : Prop} {w₀ : World} (h₀ : Fresh w₀) {σ τ : State}
    (hσ : Runs honest (startOf w₀) σ) (hτ : Runs honest σ τ) :
    Advances σ.world.now.db.proposal τ.world.now.db.proposal ∧
    (∀ e es version, (e :: es) <:+ σ.world.past → e.call = .approve version →
      e.op.creates.isSome = true → BoundTo e.who version es) ∧
    ProposedLive σ.world ∧ Comparable σ.world.now.db.proposal τ.world.now.db.proposal := by
  refine ⟨slot_of_runs hτ, ?_, ?_, ?_⟩
  · intro e es version he hcall hcreates
    obtain ⟨-, ⟨hplace, -⟩, -⟩ := allowed_of_runs h₀ hσ he
    have hmay := hplace hcreates
    rw [hcall] at hmay
    obtain ⟨planned, d, hd, c, lines, before, after, rfl⟩ := hmay
    obtain ⟨ds, hds⟩ := suffix_of_mem hd
    obtain ⟨hstored, -, hstep⟩ := allowed_of_runs h₀ hσ ((hds.trans (List.suffix_cons _ _)).trans he)
    rcases hstep with ⟨_, herr, -⟩ | ⟨a, db, hrun, hans, -⟩
    · cases herr
    · obtain rfl : (none, lines) = a := Except.ok.inj hans
      obtain ⟨p, hp, hlive, hv, -, hsame, -⟩ := decideApprove_through (decideApprove_run hrun)
      obtain ⟨fiat, old, hdistinct, hplan⟩ := hstored p hp
      rw [hplan] at hsame
      obtain ⟨b, hb, hiff⟩ := isMaterial_spec fiat planned.view.fiat hdistinct planned.distinct
      obtain rfl : b = false := Except.ok.inj (hb.symm.trans hsame)
      obtain ⟨hlegs, hnear⟩ := hiff.mp rfl
      exact ⟨c, planned, lines, before, after, p, fiat, old, hd, hp, hlive, hv, hplan, hlegs, hnear⟩
  · intro newer older i trigger planned t answer before after hpast hnewer
    have hlinked := slot_linked hσ
    rw [hpast] at hlinked
    -- Nothing newer wrote the slot.
    have hslot := hlinked.eq_of_append fun d hd => by
      have hmem : d ∈ σ.world.past := by
        rw [hpast]
        exact List.mem_append_left _ hd
      obtain ⟨ds, hds⟩ := suffix_of_mem hmem
      exact slot_same (allowed_of_runs h₀ hσ hds).2.2 (hnewer d hd)
    rw [hslot]
    obtain ⟨-, -, hstep⟩ := allowed_of_runs h₀ hσ ⟨newer, hpast.symm⟩
    rcases hstep with ⟨_, herr, -⟩ | ⟨a, db, hrun, -, hafter⟩
    · cases herr
    · obtain ⟨lines, hk⟩ := decidePropose_run hrun
      rw [show after.db = db from congrArg World.db hafter]
      exact (keep_ok hk).2.1.trans (hasOrders_planDocument _ planned.distinct)
  · intro p hp
    have hstored := storedOk_of_runs h₀ hσ p hp
    refine ⟨fun leg hleg hn => minimum_of_fromPlan hstored hleg hn, ?_, ?_⟩
    · intro q hq
      exact isMaterial_of_fromPlan hstored (storedOk_of_runs h₀ (hσ.trans hτ) q hq)
    · intro planned
      exact isMaterial_of_fromPlan hstored (fromPlan_planned planned)

/-- A proposal is stored, and its approval places an order. -/
theorem versions_bind_approved : ∃ σ, Runs True (startOf (newUser false)) σ ∧
    (∃ e es, (e :: es) <:+ σ.world.past ∧ e.call = .approve 1 ∧ e.op.creates.isSome = true ∧
      BoundTo e.who 1 es) ∧
    Advances σ.world.now.db.proposal σ.world.now.db.proposal ∧ ProposedLive σ.world ∧
    Comparable σ.world.now.db.proposal σ.world.now.db.proposal := by
  obtain ⟨σ, hσ, hc⟩ := reaches_of_replay program (krakenResponder True (marketOf "0" "1"))
    (startOf (newUser false)) (proposeThen .accept 21)
    (fun σ => σ.world.past.any fun e => e.call = .approve 1 ∧ e.op.creates.isSome) (by decide +kernel)
  obtain ⟨e, he, hplaced⟩ := List.any_eq_true.mp hc
  obtain ⟨es, hes⟩ := suffix_of_mem he
  obtain ⟨hcall, hcreates⟩ : e.call = .approve 1 ∧ e.op.creates.isSome = true := by simpa using hplaced
  obtain ⟨hforward, hbound, hlive, hcompare⟩ := versions_bind (fresh_newUser false) hσ .refl
  exact ⟨σ, hσ, ⟨e, es, hes, hcall, hcreates, hbound e es 1 hes hcall hcreates⟩, hforward, hlive, hcompare⟩

/-! ## Who executes a version -/

/-- The closing step of an approval. -/
def isClosing : Op → Bool
  | .tx .setExecuted => true
  | _ => false

/-- An executing or executed proposal. -/
def marked : ProposalStatus → Bool
  | .executing => true
  | .executed => true
  | _ => false

/-- A version that this operation marks belongs to the call that approved it. -/
def MarkedByApproval (e : Ev) (es : List Ev) : Prop :=
  ∀ q, e.after.db.proposal = some q → marked q.status = true →
    e.before.db.proposal = some q ∨ (e.call = .approve q.version ∧ Approved e.who q.version (e :: es))

/-- The version in the slot. -/
def slotVersion (w : World) : Option Int := w.db.proposal.map Proposal.version

/-- An approval of `version` by call `i` went through in this operation. -/
def letsThrough (i : Nat) (version : Int) : Ev → Bool
  | ⟨who, _, .tx (.decideApprove v _), .ok (none, _), _, _⟩ => who == i && v == version
  | _ => false

/-- No version is stored between an approval that went through and its closing step. -/
def ClosesInTime (i : Nat) (c : Request) (o : Op) (w : Rec) : Prop :=
  match c, o with
  | .approve version, .tx .setExecuted =>
      ∀ d ∈ w.past.takeWhile fun d => !letsThrough i version d, slotVersion d.after = slotVersion d.before
  | _, _ => True

instance (i : Nat) (c : Request) (o : Op) (w : Rec) : Decidable (ClosesInTime i c o w) := by
  unfold ClosesInTime
  split
  · infer_instance
  · infer_instance

theorem letsThrough_iff {i : Nat} {version : Int} {e : Ev} :
    letsThrough i version e = true ↔ ∃ planned, LetThrough i version planned e := by
  constructor
  · intro h
    unfold letsThrough at h
    split at h
    · rename_i who c v planned lines before after
      obtain ⟨rfl, rfl⟩ : who = i ∧ v = version := by simpa using h
      exact ⟨planned, c, lines, before, after, rfl⟩
    · cases h
  · rintro ⟨planned, c, lines, before, after, rfl⟩
    simp [letsThrough]

/-- The newest operation that let an approval through. -/
theorem newest_through {i : Nat} {version : Int} {past : List Ev} (h : Approved i version past) :
    ∃ planned c lines before after older,
      past = past.takeWhile (fun d => !letsThrough i version d) ++
        ⟨i, c, .tx (.decideApprove version planned), .ok (none, lines), before, after⟩ :: older := by
  obtain ⟨planned, e, he, hthrough⟩ := h
  have hsome : (past.find? (letsThrough i version)).isSome = true :=
    List.find?_isSome.mpr ⟨e, he, letsThrough_iff.mpr ⟨planned, hthrough⟩⟩
  obtain ⟨d, hd⟩ := Option.isSome_iff_exists.mp hsome
  obtain ⟨hp, newer, older, hpast, hnewer⟩ := List.find?_eq_some_iff_append.mp hd
  obtain ⟨planned', c, lines, before, after, rfl⟩ := letsThrough_iff.mp hp
  refine ⟨planned', c, lines, before, after, older, ?_⟩
  rw [hpast, List.takeWhile_append_of_pos hnewer, List.takeWhile_cons_of_neg (by simp [hp]),
    List.append_nil]

/-- `keep` marks no proposal. -/
theorem marked_of_keep {slot slot' : Option Proposal} {document : Document} {trigger : ProposalTrigger}
    {lines : List String} (h : keep slot document trigger = .ok (slot', lines)) {q : Proposal}
    (hq : slot' = some q) (hm : marked q.status = true) : slot = some q := by
  rcases (keep_ok h).2.2 with rfl | rfl | ⟨version, rfl⟩
  · exact hq
  · obtain ⟨p, -, rfl⟩ := Option.map_eq_some_iff.mp hq
    cases hm
  · obtain rfl := Option.some.inj hq
    cases hm

/-- A withdrawal marks no proposal. -/
theorem marked_of_withdrawn {slot : Option Proposal} {q : Proposal}
    (hq : setStatus slot .withdrawn = some q) (hm : marked q.status = true) : slot = some q := by
  obtain ⟨p, -, rfl⟩ := Option.map_eq_some_iff.mp hq
  cases hm

/-- Which operations mark a proposal: the decision of its approval, and a closing step. -/
theorem marked_step {honest : Prop} {i : Nat} {c : Request} {past : List Ev} {o : Op} {w w' : World}
    {b : Ans o} (h : answered honest i o w b w') (hallowed : Allowed i c past o) {q : Proposal}
    (hq : w'.db.proposal = some q) (hm : marked q.status = true) :
    w.db.proposal = some q ∨
      (c = .approve q.version ∧ Approved i q.version (⟨i, c, o, b, w, w'⟩ :: past)) ∨
      (o = .tx .setExecuted ∧ w'.db.proposal = setStatus w.db.proposal .executed) := by
  by_cases hwrites : ∀ t, o = .tx t → t.writesProposal = false
  · exact Or.inl (slot_same h hwrites ▸ hq)
  · push Not at hwrites
    obtain ⟨t, rfl, ht⟩ := hwrites
    rcases h with ⟨_, -, -, rfl⟩ | ⟨a, db, hrun, rfl, rfl⟩
    · exact Or.inl hq
    · have hmay := hallowed.2 t rfl
      cases t with
      | decidePropose planned trigger =>
        obtain ⟨lines, hk⟩ := decidePropose_run hrun
        exact Or.inl (marked_of_keep hk hq hm)
      | decideApprove version planned =>
        have hdecide := decideApprove_run hrun
        obtain ⟨verdict, lines⟩ := a
        cases verdict with
        | none =>
          obtain ⟨p, -, -, -, -, -, hslot⟩ := decideApprove_through hdecide
          obtain rfl := Option.some.inj (hslot.symm.trans hq)
          exact Or.inr (Or.inl ⟨hmay, planned, _, List.mem_cons_self, c, lines, _, _, rfl⟩)
        | some s =>
          rcases (decideApprove_superseded hdecide).2 with hslot | ⟨trigger, lines', hk⟩
          · exact Or.inl (hslot ▸ hq)
          · exact Or.inl (marked_of_keep hk hq hm)
      | decideRebalance =>
        have hdecide := decideRebalance_run hrun
        have hslot : db.proposal = (decideRebalance w.db.settings w.db.proposal).2.1 := by rw [hdecide]
        rcases decideRebalance_slot w.db.settings w.db.proposal with hsame | hwithdrawn
        · exact Or.inl ((hslot.trans hsame) ▸ hq)
        · exact Or.inl (marked_of_withdrawn ((hslot.trans hwithdrawn) ▸ hq) hm)
      | setExecuted =>
        cases hrun
        exact Or.inr (Or.inr ⟨rfl, rfl⟩)
      | withdraw version =>
        rcases withdrawVersion_ok (withdraw_run hrun) with ⟨-, hslot⟩ | ⟨-, hslot, -⟩
        · exact Or.inl (hslot ▸ hq)
        · exact Or.inl (marked_of_withdrawn (hslot ▸ hq) hm)
      | _ => exact absurd rfl ht

/-- In every run in which no version is stored between an approval that went through and its closing
step, a version is marked executing or executed only by a call that named it and let it through. -/
theorem executed_by_its_approval {honest : Prop} {w₀ : World} (h₀ : Fresh w₀) {σ : State}
    (h : Reaches ((system honest).recorded.given ClosesInTime) program (startOf w₀) σ) {e : Ev}
    {es : List Ev} (he : (e :: es) <:+ σ.world.past) : MarkedByApproval e es := by
  have hrun : Runs honest (startOf w₀) σ := reaches_of_given h
  intro q hq hm
  obtain ⟨-, hallowed, hstep⟩ := allowed_of_runs h₀ hrun he
  rcases marked_step hstep hallowed hq hm with hsame | happroved | ⟨hop, hslot⟩
  · exact Or.inl hsame
  · exact Or.inr happroved
  · -- The closing step: the slot still has the version that went through.
    obtain ⟨version, hcall, hthrough⟩ := hallowed.2 _ hop
    have hintime := allowed_of_past h he
    rw [hcall, hop] at hintime
    obtain ⟨planned, c, lines, before, after, older, hpast⟩ := newest_through hthrough
    have hlinked : Linked slotVersion (slotVersion e.before) es := by
      refine Linked.of_suffix (linked_of_reaches (S := system honest) ?_ (fun _ _ => rfl) hrun) he
      intro w w' henv
      exact congrArg (Option.map Proposal.version) henv.proposal
    rw [hpast] at hlinked
    have hversion := hlinked.eq_of_append hintime
    have hsuffix := List.suffix_append (es.takeWhile fun d => !letsThrough e.who version d)
      (⟨e.who, c, .tx (.decideApprove version planned), .ok (none, lines), before, after⟩ :: older)
    rw [← hpast] at hsuffix
    obtain ⟨-, -, hdecided⟩ := allowed_of_runs h₀ hrun ((hsuffix.trans (List.suffix_cons _ _)).trans he)
    rcases hdecided with ⟨_, herr, -⟩ | ⟨a, db, hrun', hans, hafter⟩
    · cases herr
    · obtain rfl : (none, lines) = a := Except.ok.inj hans
      obtain ⟨p, -, -, -, -, -, hexecuting⟩ := decideApprove_through (decideApprove_run hrun')
      rw [hq] at hslot
      obtain ⟨p', hp', rfl⟩ := Option.map_eq_some_iff.mp hslot.symm
      have hsame : p'.version = version := by
        have hafter' : after.db.proposal = db.proposal := congrArg (fun w : World => w.db.proposal) hafter
        rw [slotVersion, slotVersion, hp', hafter', hexecuting] at hversion
        exact Option.some.inj hversion
      refine Or.inr ⟨?_, ?_⟩
      · rw [hcall, ← hsame]
      · have happroved := lasting_approved e.who version (List.suffix_cons e es) hthrough
        rwa [← hsame] at happroved

/-- A run of an approval that closes before another proposal is stored. -/
theorem executed_by_its_approval_alone : ∃ σ, Runs True (startOf (newUser false)) σ ∧
    ∃ e es, (e :: es) <:+ σ.world.past ∧ isClosing e.op = true ∧ MarkedByApproval e es := by
  obtain ⟨σ, hσ, hc⟩ := reaches_of_replay program
    ((krakenResponder True (marketOf "0" "1")).given ClosesInTime)
    (startOf (newUser false)) (proposeThen .refuse 28) (fun σ => σ.world.past.any fun e => isClosing e.op)
    (by decide +kernel)
  obtain ⟨e, he, hcloses⟩ := List.any_eq_true.mp hc
  obtain ⟨es, hes⟩ := suffix_of_mem he
  exact ⟨σ, reaches_of_given hσ, e, es, hes, hcloses, executed_by_its_approval (fresh_newUser false) hσ hes⟩

/-- The last operation closes an approval, and makes a live proposal of another version executed. -/
def executesAnother (σ : State) : Bool :=
  match σ.world.past with
  | ⟨_, .approve version, .tx .setExecuted, _, before, after⟩ :: _ =>
      match before.db.proposal, after.db.proposal with
      | some p, some q => p.status = .live && q.status = .executed && q.version ≠ version
      | _, _ => false
  | _ => false

theorem executesAnother_ok {σ : State} (h : executesAnother σ = true) :
    ∃ e es, σ.world.past = e :: es ∧ ¬MarkedByApproval e es := by
  unfold executesAnother at h
  split at h
  · rename_i i version b before after es hpast
    split at h
    · rename_i p q hp hq
      obtain ⟨⟨hlive, hexecuted⟩, hother⟩ : (p.status = .live ∧ q.status = .executed) ∧
          q.version ≠ version := by simpa using h
      refine ⟨_, es, hpast, fun hmarked => ?_⟩
      rcases hmarked q hq (by rw [hexecuted]; rfl) with hsame | ⟨hcall, -⟩
      · obtain rfl : p = q := Option.some.inj (hp.symm.trans hsame)
        rw [hlive] at hexecuted
        cases hexecuted
      · exact hother (Request.approve.inj hcall).symm
    · cases h
  · cases h

/-- Version 1 is approved and its order refused; the evaluation releases the lock, a proposal stores
version 2, and the closing step of the approval makes version 2 executed. -/
theorem later_proposal_executed : ∃ σ, Runs True (startOf (newUser false)) σ ∧
    ∃ e es, σ.world.past = e :: es ∧ ¬MarkedByApproval e es := by
  obtain ⟨σ, hσ, hc⟩ := reaches_of_replay program (krakenResponder True (marketOf "0" "1"))
    (startOf (newUser false))
    (proposeThen .refuse 26 ++ .spawn 2 (.propose .api) :: acts 2 .accept 19 ++ acts 1 .refuse 1)
    executesAnother (by decide +kernel)
  exact ⟨σ, hσ, executesAnother_ok hc⟩

end Coinpilot.Safety
