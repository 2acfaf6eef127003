import Coinpilot.Core.Scheduler
import Coinpilot.Lib.RowLocks
import Coinpilot.Scheduling.Accepted

/-!
# The next runs of a row, and two writers

`PATCH /config` holds the settings row from its first statement to its commit. `_advance` reads the
row, computes a next run from it, and writes that one column: what it writes is true to the row it
read. It is true to the row it is written on where the source of that next run is still the one it
read (`KeepsSource`), and then every committed row has the next runs of its own settings
(`next_runs_true`).
-/

set_option autoImplicit false

namespace Coinpilot.Api

open Coinpilot.Lib Coinpilot.Lib.Program Coinpilot.Lib.ReadCommitted Coinpilot.Core

/-- The next runs of a row are those of its settings: none for an investment switched off, a slot of
the stored cadence otherwise. -/
def NextRunsTrue (config : SchedulerConfig) (row : StoredSettings) : Prop :=
  ∀ op, (SwitchedOn row op → ∃ n, row.nextAt op = some n ∧ StoredSlot config row op n) ∧
    (¬SwitchedOn row op → row.nextAt op = none)

/-- What the next run of an operation is computed from. -/
structure SameSource (op : ScheduledOperation) (row row' : StoredSettings) : Prop where
  cadence : row.cadence op = row'.cadence op
  userId : row.userId = row'.userId
  switch : op = .invest → row.investCashEnabled = row'.investCashEnabled

instance (op : ScheduledOperation) (row row' : StoredSettings) :
    Decidable (SameSource op row row') :=
  decidable_of_iff (row.cadence op = row'.cadence op ∧ row.userId = row'.userId ∧
      (op = .invest → row.investCashEnabled = row'.investCashEnabled))
    ⟨fun ⟨h₁, h₂, h₃⟩ => ⟨h₁, h₂, h₃⟩, fun ⟨h₁, h₂, h₃⟩ => ⟨h₁, h₂, h₃⟩⟩

/-! ## The threads -/

/-- A transaction on the user's settings. -/
inductive SettingsCall where
  | patch (now later : Moment) (body : ConfigPatch)
  | advance (op : ScheduledOperation) (now : Moment)

def settingsWork (config : SchedulerConfig) (userId : UserId) : SettingsCall → SettingsWork Unit
  | .patch now later body => do
      let _ ← patchConfig config userId now later body
      pure ()
  | .advance op now => advance config userId op now

def settingsCode (config : SchedulerConfig) (userId : UserId) (call : SettingsCall) :
    Prog (Stmt UserId StoredSettings) Reply (Except ApiError Unit × Unit) :=
  (transaction (settingsWork config userId call)).exec ()

/-! ## The next runs that a change leaves -/

section Pure

variable {config : SchedulerConfig} {op : ScheduledOperation} {now later : Moment}

/-- The part of `NextRunsTrue` about one operation. -/
def NextRunTrue (config : SchedulerConfig) (row : StoredSettings) (op : ScheduledOperation) : Prop :=
  (SwitchedOn row op → ∃ n, row.nextAt op = some n ∧ StoredSlot config row op n) ∧
    (¬SwitchedOn row op → row.nextAt op = none)

theorem SameSource.switchedOn {row row' : StoredSettings} (h : SameSource op row row') :
    SwitchedOn row' op ↔ SwitchedOn row op := by
  unfold SwitchedOn
  constructor
  · rintro hon ⟨hop, hoff⟩
    exact hon ⟨hop, by rw [← h.switch hop]; exact hoff⟩
  · rintro hon ⟨hop, hoff⟩
    exact hon ⟨hop, by rw [h.switch hop]; exact hoff⟩

theorem SameSource.storedSlot {row row' : StoredSettings} (h : SameSource op row row') (s : Moment) :
    StoredSlot config row' op s ↔ StoredSlot config row op s := by
  unfold StoredSlot
  rw [h.cadence, h.userId]

theorem SameSource.trans {row row' row'' : StoredSettings} (h : SameSource op row row')
    (h' : SameSource op row' row'') : SameSource op row row'' :=
  ⟨h.cadence.trans h'.cadence, h.userId.trans h'.userId, fun hop => (h.switch hop).trans (h'.switch hop)⟩

/-- A next run is true to the settings it is computed from, on every row that has their source. -/
theorem nextRunTrue_of_nextRun {settings : LoadedSettings} {row : StoredSettings}
    (h : nextRun settings op now config = .ok (row.nextAt op))
    (hsource : SameSource op settings.stored row) : NextRunTrue config row op := by
  have hswitch : SwitchedOn row op ↔ SwitchedOn settings op := hsource.switchedOn
  rcases nextRun_spec h with ⟨hoff, hnone⟩ | ⟨hon, s, hsome, hs⟩
  · exact ⟨fun hon => absurd (hswitch.mp hon) hoff, fun _ => hnone⟩
  · refine ⟨fun _ => ⟨s, hsome, ?_⟩, fun hoff => absurd (hswitch.mpr hon) hoff⟩
    exact (hsource.storedSlot s).mpr (storedSlot_stored.mpr (nextSlot_spec hs).2)

/-- The next run of an operation is as true as it was where its source and itself are the same. -/
theorem NextRunTrue.congr {row row' : StoredSettings} (h : NextRunTrue config row op)
    (hsource : SameSource op row row') (hnext : row'.nextAt op = row.nextAt op) :
    NextRunTrue config row' op := by
  simp only [NextRunTrue, hsource.switchedOn, hsource.storedSlot, hnext]
  exact h

/-- An operation that a body does not touch keeps the source of its next run. -/
theorem sameSource_apply {body : ConfigPatch} (h : body.touches op = false)
    (settings : LoadedSettings) :
    SameSource op settings.stored (body.apply settings).stored := by
  cases op with
  | invest =>
    simp only [ConfigPatch.touches, Bool.or_eq_false_iff, Option.isSome_eq_false_iff,
      Option.isNone_iff_eq_none] at h
    obtain ⟨⟨-, henabled⟩, hset⟩ := h
    refine ⟨?_, rfl, fun _ => ?_⟩
    · simp [SettingsRow.cadence, SettingsRow.stored, ConfigPatch.apply, over_of_not_set hset]
    · simp [SettingsRow.stored, ConfigPatch.apply, henabled]
  | rebalance =>
    simp only [ConfigPatch.touches, Bool.or_eq_false_iff] at h
    refine ⟨?_, rfl, fun hop => by cases hop⟩
    simp [SettingsRow.cadence, SettingsRow.stored, ConfigPatch.apply, over_of_not_set h.2]

/-- The next runs that a change moves, and those it leaves. -/
theorem nextAt_withMoves {settings : LoadedSettings} {touched : ScheduledOperation → Bool}
    {moves : List (ScheduledOperation × Option Moment)}
    (h : rescheduled settings touched now config = .ok moves) (op : ScheduledOperation) :
    (touched op = false → (settings.withMoves moves).nextAt op = settings.nextAt op) ∧
      (touched op = true →
        nextRun settings op now config = .ok ((settings.withMoves moves).nextAt op)) := by
  cases hi : nextRun settings .invest now config <;>
    cases hr : nextRun settings .rebalance now config <;>
    cases hti : touched .invest <;> cases htr : touched .rebalance <;>
    simp only [rescheduled, List.filter_cons, List.filter_nil, hti, htr, if_true, if_false,
      Bool.false_eq_true, List.mapM_cons, List.mapM_nil, hi, hr, bind, Except.bind, pure,
      Except.pure, reduceCtorEq, Except.ok.injEq] at h
  all_goals
    subst h
    cases op <;> simp [SettingsRow.withMoves, SettingsRow.setNextAt, SettingsRow.nextAt, *]

/-- Moving next runs is no change to their sources. -/
theorem sameSource_withMoves (settings : LoadedSettings)
    (moves : List (ScheduledOperation × Option Moment)) (op : ScheduledOperation) :
    SameSource op settings.stored (settings.withMoves moves).stored := by
  induction moves generalizing settings with
  | nil => exact ⟨rfl, rfl, fun _ => rfl⟩
  | cons move moves ih =>
    have hmove : SameSource op settings.stored (settings.setNextAt move.1 move.2).stored := by
      obtain ⟨op', value⟩ := move
      cases op' <;> cases op <;> exact ⟨rfl, rfl, fun _ => rfl⟩
    exact hmove.trans (ih (settings.setNextAt move.1 move.2))

/-- A change leaves the next runs of the settings that it leaves, where it found those of the
settings before, or found none. -/
theorem changedOutcome_true {body : ConfigPatch} {created : Bool} {settings changed : LoadedSettings}
    (h : changedOutcome config now later body created settings = .ok changed)
    (hbefore : created = true ∨ NextRunsTrue config settings.stored) :
    changed.userId = settings.userId ∧ NextRunsTrue config changed.stored := by
  unfold changedOutcome at h
  split at h
  · cases h
  · split at h
    · cases h
    · rename_i moves hmoves
      have huser : ((body.apply settings).withMoves moves).userId = settings.userId :=
        userId_withMoves _ _
      have htrue : NextRunsTrue config ((body.apply settings).withMoves moves).stored := by
        intro op
        obtain ⟨hkept, hmoved⟩ := nextAt_withMoves hmoves op
        have hnext : ((body.apply settings).withMoves moves).stored.nextAt op =
            ((body.apply settings).withMoves moves).nextAt op := by cases op <;> rfl
        have hsource := sameSource_withMoves (body.apply settings) moves op
        cases htouched : (if created then fun _ => true else body.touches) op with
        | true => exact nextRunTrue_of_nextRun (hnext ▸ hmoved htouched) hsource
        | false =>
          have hcreated : created = false := by
            cases created with
            | false => rfl
            | true => cases htouched
          subst hcreated
          have hbefore := (hbefore.resolve_left Bool.false_ne_true) op
          apply NextRunTrue.congr hbefore ((sameSource_apply htouched settings).trans hsource)
          rw [hnext, hkept htouched]
          cases op <;> rfl
      generalize (body.apply settings).withMoves moves = moved at *
      cases h
      split
      · exact ⟨huser, htrue⟩
      · exact ⟨huser, htrue⟩

end Pure

/-! ## Both writers keep the next runs true -/

/-- The user's committed row is theirs and has the next runs of its settings. -/
def Following (config : SchedulerConfig) (userId : UserId) (rows : Rows UserId StoredSettings) :
    Prop :=
  ∀ row, rows userId = some row → row.userId = userId ∧ NextRunsTrue config row

/-- A flush is of the row of its row object. -/
theorem within_flushIf (changed : Bool) (settings : LoadedSettings) :
    Proc.Only (Within settings.userId) (fun r => r = .ok settings) (flushIf changed settings) := by
  cases changed with
  | false => exact only_pure rfl
  | true =>
    have hflush : Proc.Only (Within settings.userId) (fun r => r = .ok ())
        (flushSettings settings) := by
      apply only_bind (within_updateRow settings.userId fun _ => settings.stored)
      · intro _ _
        exact only_pure rfl
      · rintro e ⟨found, h⟩
        cases h
    apply only_bind hflush
    · intro _ _
      exact only_pure rfl
    · intro e h
      cases h

theorem only_calendarWork {α : Type} (ok : Stmt UserId StoredSettings → Prop)
    (x : Except CalendarError α) :
    Proc.Only ok (fun r => r = x.mapError ApiError.calendar) (calendarWork x) := by
  cases x with
  | error e => exact only_throw rfl
  | ok a => exact only_pure rfl

/-- The changes of a request are to the row of the settings it changes. -/
theorem within_changeSettings (config : SchedulerConfig) (now later : Moment) (body : ConfigPatch)
    (created : Bool) (settings : LoadedSettings) :
    Proc.Only (Within settings.userId) (fun _ => True)
      (changeSettings config now later body created settings) := by
  have hflush : ∀ changed (settings' : LoadedSettings), settings'.userId = settings.userId →
      Proc.Only (Within settings.userId) (fun r => r = .ok settings') (flushIf changed settings') :=
    fun changed settings' huser => huser ▸ within_flushIf changed settings'
  unfold changeSettings
  split
  · exact only_throw trivial
  · apply only_bind (hflush _ (body.apply settings) rfl)
    · rintro applied happlied
      cases happlied
      apply only_bind (only_calendarWork _ _)
      · intro moves _
        have huser := userId_withMoves (body.apply settings) moves
        apply only_bind (hflush _ ((body.apply settings).withMoves moves) huser)
        · rintro moved hmoved
          cases hmoved
          split
          · exact Proc.only_mono (hflush _ _ huser) (fun _ h => h) fun _ _ => trivial
          · exact only_pure trivial
        · simp
      · simp
    · simp

section Loading

variable {W C : Type} {S : Semantics (Stmt UserId StoredSettings) Reply C W} {K : Contract S}
  {i : Nat} {c : C} {l : Unit} {w : W}

theorem wp_calendarWork {α : Type} {x : Except CalendarError α}
    {Q : Except ApiError α → Unit → W → Prop} (hok : ∀ a, x = .ok a → Q (.ok a) l w)
    (herror : ∀ e, Q (.error e) l w) : (calendarWork x).Wp K i c Q l w := by
  cases x with
  | error e => exact herror _
  | ok a => exact hok a rfl

theorem wp_loadRow {row : StoredSettings} {Q : Except ApiError (Option LoadedSettings) → Unit → W → Prop}
    (hok : ∀ settings, row.load = .ok settings → Q (.ok (some settings)) l w)
    (herror : ∀ e, Q (.error e) l w) : (loadRow (some row)).Wp K i c Q l w :=
  wp_bind (wp_calendarWork hok herror)

end Loading

section Writers

variable {config : SchedulerConfig} {userId : UserId} {i : Nat} {c : SettingsCall}

/-- The lock of the settings answers settings that are followed, and holds their row. -/
theorem lockSettings_wp {w : Store UserId StoredSettings} (hclean : w.Clean i) :
    (lockSettings userId).Wp (contract SettingsCall (Following config userId)) i c
      (fun r _ w' => match r with
        | .ok none => w'.Clean i
        | .ok (some settings) => w'.Holds i userId (some settings.stored) ∧
            settings.userId = userId ∧ NextRunsTrue config settings.stored
        | .error _ => True) () w := by
  apply wp_bind
  apply wp_lockRow
  rintro w₁ hr ⟨hsound, hfollow⟩
  have hclean₁ := hr.clean hclean
  refine ⟨contract_guard nofun, fun _ => hclean₁, fun row hrow _ _ => ?_⟩
  have hheld := w₁.take_holds i userId
  rw [hrow] at hheld
  rw [hclean₁.view] at hrow
  obtain ⟨huser, htrue⟩ := hfollow row hrow
  refine wp_loadRow (fun settings hload => ?_) fun _ => trivial
  have hstored := stored_of_load hload
  rw [← hstored] at huser hheld htrue
  exact ⟨hheld, huser, htrue⟩

/-- The settings that a request changes are held: they were locked, or are inserted. -/
theorem chosenSettings_wp {fiat : Option String} {locked : Option LoadedSettings}
    {w : Store UserId StoredSettings}
    (h : match locked with
      | none => w.Clean i
      | some settings => w.Holds i userId (some settings.stored) ∧ settings.userId = userId ∧
          NextRunsTrue config settings.stored) :
    (chosenSettings userId fiat locked).Wp (contract SettingsCall (Following config userId)) i c
      (fun r _ w' => ∀ settings, r = .ok settings → w'.Holds i userId (some settings.stored) ∧
        settings.userId = userId ∧ (locked.isNone = true ∨ NextRunsTrue config settings.stored))
      () w := by
  have hraise : ∀ (e : ApiError) (w : Store UserId StoredSettings) (settings : LoadedSettings),
      (Except.error e : Except ApiError LoadedSettings) = .ok settings →
        w.Holds i userId (some settings.stored) ∧ settings.userId = userId ∧
          (locked.isNone = true ∨ NextRunsTrue config settings.stored) := by
    intro e w settings h
    cases h
  cases locked with
  | some settings =>
    simp only [chosenSettings]
    split
    · exact wp_throw (hraise _ w)
    · apply wp_pure
      intro settings' h'
      cases h'
      exact ⟨h.1, h.2.1, .inr h.2.2⟩
  | none =>
    cases fiat with
    | none => exact wp_throw (hraise _ w)
    | some fiat =>
      simp only [chosenSettings]
      split
      · apply wp_bind
        apply wp_insertRow
        intro w₁ _ _
        refine ⟨contract_guard (by rintro ⟨⟩), fun _ _ => hraise _ w₁, fun _ _ _ => ?_⟩
        intro settings' h'
        cases h'
        exact ⟨w₁.create_holds i userId _, rfl, .inl rfl⟩
      · exact wp_throw (hraise _ w)

/-- The changes, on a row that is held and was followed or is new. -/
theorem changeSettings_wp {now later : Moment} {body : ConfigPatch} {created : Bool}
    {settings : LoadedSettings} {w : Store UserId StoredSettings} (huser : settings.userId = userId)
    (hheld : w.Holds i userId (some settings.stored))
    (hbefore : created = true ∨ NextRunsTrue config settings.stored) :
    (changeSettings config now later body created settings).Wp
      (contract SettingsCall (Following config userId)) i c
      (fun r _ w' => ∀ changed, r = .ok changed → w'.Holds i userId (some changed.stored) ∧
        changed.userId = userId ∧ NextRunsTrue config changed.stored) () w := by
  subst huser
  obtain ⟨view', halone, hview'⟩ := @alone_changeSettings config now later body created settings
    (fun _ => none) (Function.update (fun _ => none) settings.userId (some settings.stored)) (by simp) ()
  have hseen : w.Holds i settings.userId
      (Function.update (fun _ => none) settings.userId (some settings.stored) settings.userId) := by
    simpa using hheld
  have hwp := @wp_of_held _ _ _ _ _ _ i c _
    (contract_keepsRows SettingsCall (Following config settings.userId))
    (fun o w ho _ hc => by subst hc; exact ho.elim) _
    (Program.only_mono (within_changeSettings config now later body created settings ())
      (fun _ h => h) fun _ _ => trivial) _ (fun _ => none) _ hseen
  rw [halone] at hwp
  refine Program.wp_mono hwp ?_
  rintro r w' ⟨rfl, hheld'⟩ changed hchanged
  obtain ⟨huser, htrue⟩ := changedOutcome_true hchanged hbefore
  dsimp only at hheld'
  rw [hview' changed hchanged, Function.update_self] at hheld'
  exact ⟨hheld', huser, htrue⟩

/-- `PATCH /config` keeps the next runs true: from the lock, or the insertion, to the commit the row
is its own. -/
theorem patch_wp (now later : Moment) (body : ConfigPatch) {w : Store UserId StoredSettings}
    (hclean : w.Clean i) :
    (transaction (settingsWork config userId (.patch now later body))).Wp
      (contract SettingsCall (Following config userId)) i c (fun _ _ _ => True) () w := by
  apply wp_transaction
  apply wp_bind
  unfold patchConfig
  apply wp_bind
  refine Proc.wp_mono (lockSettings_wp hclean) ?_
  rintro (e | locked) ⟨⟩ w₁ hlocked
  · exact fun w₂ _ _ => ⟨contract_guard nofun, fun _ => trivial⟩
  apply wp_bind
  refine Proc.wp_mono (chosenSettings_wp ?_) ?_
  · cases locked with
    | none => exact hlocked
    | some settings => exact hlocked
  rintro (e | settings) ⟨⟩ w₂ hchosen
  · exact fun w₃ _ _ => ⟨contract_guard nofun, fun _ => trivial⟩
  obtain ⟨hheld, huser, hbefore⟩ := hchosen settings rfl
  refine Proc.wp_mono (changeSettings_wp huser hheld hbefore) ?_
  rintro (e | changed) ⟨⟩ w₃ hchanged
  · exact fun w₄ _ _ => ⟨contract_guard nofun, fun _ => trivial⟩
  obtain ⟨hheld', huser', htrue⟩ := hchanged changed rfl
  intro w₄ hr _
  refine ⟨fun _ row hrow => ?_, fun _ => trivial⟩
  rw [(Kept.holds hr hheld').view] at hrow
  cases hrow
  exact ⟨huser', htrue⟩

end Writers

/-! ## The condition on `_advance` -/

abbrev SettingsHistory : Type :=
  Recorded (Stmt UserId StoredSettings) Reply SettingsCall (Store UserId StoredSettings)

/-- When the `UPDATE` of an `_advance` takes the row, the source of the next run is the one that its
`SELECT` read. -/
def KeepsSource (userId : UserId) (i : Nat) (c : SettingsCall) (s : Stmt UserId StoredSettings)
    (r : SettingsHistory) : Prop :=
  match c, s with
  | .advance op _, .lock _ =>
      ∀ e ∈ r.past, e.who = i → e.op.isSnapshot = true → ∀ row ∈ e.before.view i userId,
        ∀ row' ∈ r.now.rows userId, SameSource op row row'
  | _, _ => True

instance (userId : UserId) (i : Nat) (c : SettingsCall) (s : Stmt UserId StoredSettings)
    (r : SettingsHistory) : Decidable (KeepsSource userId i c s r) := by
  unfold KeepsSource
  split
  · infer_instance
  · infer_instance

/-- The runs in which it is. -/
abbrev sourceKept (userId : UserId) :
    Semantics (Stmt UserId StoredSettings) Reply SettingsCall SettingsHistory :=
  (semantics UserId StoredSettings SettingsCall).recorded.given (KeepsSource userId)

abbrev following (config : SchedulerConfig) (userId : UserId) : Contract (sourceKept userId) :=
  (contract SettingsCall (Following config userId)).withHistory (KeepsSource userId)

/-- A commit from here leaves a followed row. -/
def Commits (config : SchedulerConfig) (userId : UserId) (i : Nat) (w : Store UserId StoredSettings) :
    Prop :=
  ∀ w', Kept i w w' → Following config userId w'.rows → Following config userId (w'.view i)

section Advance

variable {config : SchedulerConfig} {userId : UserId} {i : Nat}

theorem commits_of_clean {w : Store UserId StoredSettings} (h : w.Clean i) :
    Commits config userId i w := by
  intro w' hk hf
  rw [(hk.clean h).view]
  exact hf

theorem commits_of_holds {w : Store UserId StoredSettings} {row : StoredSettings}
    (h : w.Holds i userId (some row)) (huser : row.userId = userId)
    (htrue : NextRunsTrue config row) : Commits config userId i w := by
  intro w' hk _ row' hrow'
  rw [(hk.holds h).view] at hrow'
  cases hrow'
  exact ⟨huser, htrue⟩

/-- The next run that was computed from one row, on another with its source. -/
theorem setNextAt_true {settings : LoadedSettings} {op : ScheduledOperation} {now : Moment}
    {next : Option Moment} {row : StoredSettings}
    (hnext : nextRun settings op now config = .ok next) (hsource : SameSource op settings.stored row)
    (htrue : NextRunsTrue config row) : NextRunsTrue config (row.setNextAt op next) := by
  intro op'
  by_cases hop : op' = op
  · subst hop
    have hwritten : SameSource op' row (row.setNextAt op' next) := by
      cases op' <;> exact ⟨rfl, rfl, fun _ => rfl⟩
    refine @nextRunTrue_of_nextRun _ op' now settings _ ?_ ?_
    · simpa using hnext
    · exact hsource.trans hwritten
  · apply NextRunTrue.congr (htrue op')
    · cases op <;> cases op' <;> exact ⟨rfl, rfl, fun _ => rfl⟩
    · simp [hop]

theorem advance_wp (op : ScheduledOperation) (now : Moment) {r : SettingsHistory}
    (hclean : r.now.Clean i) :
    (advance config userId op now).Wp (following config userId) i (.advance op now)
      (fun res _ r' => ∀ a, res = .ok a → Commits config userId i r'.now) () r := by
  have hraise : ∀ (e : ApiError) (r' : SettingsHistory) (a : Unit),
      (Except.error e : Except ApiError Unit) = .ok a → Commits config userId i r'.now := by
    intro e r' a h
    cases h
  apply wp_bind
  apply wp_bind
  apply wp_select_past
  refine fun r₁ hr₁ _ => ⟨contract_guard nofun, fun r₂ hnow hpast => ?_⟩
  have hclean₁ := Kept.clean hr₁.1 hclean
  have hclean₂ : r₂.now.Clean i := by rw [hnow]; exact hclean₁
  have hread : ⟨i, .advance op now, .snapshot, r₁.now.view i, r₁.now, r₁.now⟩ ∈ r₂.past := by
    rw [hpast]
    exact List.mem_cons_self
  clear hnow hpast
  cases hrow : r₁.now.view i userId with
  | none =>
    dsimp only
    rw [hrow]
    exact fun _ _ => commits_of_clean hclean₂
  | some row =>
    dsimp only
    rw [hrow]
    refine wp_loadRow (fun settings hload => ?_) fun e => hraise e r₂
    apply wp_bind
    refine wp_calendarWork (fun next hnext => ?_) fun e => hraise e r₂
    dsimp only
    by_cases hsame : settings.nextAt op = next
    · rw [if_pos hsame]
      exact fun _ _ => commits_of_clean hclean₂
    · rw [if_neg hsame]
      apply wp_bind
      apply wp_bind
      apply wp_lockRow_past
      rintro r₃ ⟨hk₃, es, hpast₃, -⟩ ⟨-, hfollow⟩
      refine ⟨contract_guard nofun, fun hallowed r₄ _ => ⟨fun _ _ => hraise _ r₄, ?_⟩⟩
      intro row' hrow' _ hnow₄
      have hclean₃ := Kept.clean hk₃ hclean₂
      rw [hclean₃.view] at hrow'
      obtain ⟨huser, htrue⟩ := hfollow row' hrow'
      have hsource : SameSource op row row' := by
        have hread₃ := List.mem_append_right es hread
        rw [← hpast₃] at hread₃
        exact hallowed _ hread₃ rfl rfl row hrow row' hrow'
      rw [← stored_of_load hload] at hsource
      apply wp_bind
      apply wp_writeRow_past
      refine fun r₅ _ _ => ⟨contract_guard nofun, fun r₆ hnow₆ _ _ _ => ?_⟩
      rw [hnow₆]
      apply commits_of_holds (r₅.now.draft_holds i userId _)
      · simpa using huser
      · exact setNextAt_true hnext hsource htrue

/-- Every call keeps the next runs true where the sources are kept. -/
theorem settingsCode_covers :
    (following config userId).Covers (settingsCode config userId) (fun i r => r.now.Clean i)
      fun _ _ _ _ => True where
  fresh_stable := fun i r r' hclean hr _ => Kept.clean hr.1 hclean
  post_stable := fun _ _ _ _ _ _ _ _ => trivial
  code_ok := by
    intro i c r _ hclean
    cases c with
    | patch now later body => exact wp_withHistory (patch_wp now later body hclean)
    | advance op now =>
      apply wp_transaction_past
      refine Proc.wp_mono (advance_wp op now hclean) ?_
      rintro (e | a) l r' hcommits r₁ hr hi
      · exact contract_guard nofun
      · exact fun _ _ => hcommits a rfl r₁.now hr.1 hi.2

end Advance

/-- In every run in which the `UPDATE` of each `_advance` finds the source of the next run as its
`SELECT` read it, the user's committed row has the next runs of its settings. -/
theorem next_runs_true (config : SchedulerConfig) (userId : UserId)
    {σ : Config (Stmt UserId StoredSettings) Reply SettingsCall SettingsHistory
      (Except ApiError Unit × Unit)}
    (h : Reaches (sourceKept userId) (settingsCode config userId)
      (.start ⟨Store.idle (fun _ => none) [], []⟩) σ)
    {row : StoredSettings} (hrow : σ.world.now.rows userId = some row) : NextRunsTrue config row := by
  have hcovers : (following config userId).Covers (settingsCode config userId) _ _ := settingsCode_covers
  obtain ⟨⟨-, hfollow⟩, -⟩ := Contract.sound hcovers (σ := σ)
    ⟨Store.idle_sound List.nodup_nil fun k h => absurd rfl h, fun row h => by cases h⟩
    (fun i k => rfl) h
  exact (hfollow row hrow).2

/-! ## A next run that is lost -/

/-- `n` statements of a thread. -/
def acts (i n : Nat) : List (Turn SettingsCall Unit) := List.replicate n (.act i ())

def investing : ConfigPatch where
  fiat := some "EUR"
  investCashEnabled := some true

def notInvesting : ConfigPatch where
  investCashEnabled := some false

/-- An hour after `someNow`. -/
def anHourLater : Moment := ⟨(1791288000 + 3600) * MICROSECONDS, by decide⟩

/-- The settings are created, and the scheduler moves the next investment. -/
def oneAfterTheOther : List (Turn SettingsCall Unit) :=
  [.spawn 0 (.patch someNow someNow investing)] ++ acts 0 7 ++
    [.spawn 1 (.advance .invest anHourLater)] ++ acts 1 4

theorem next_runs_true_oneAfterTheOther :
    ∃ row, NextRunsTrue defaultScheduler row ∧ row.nextInvestAt ≠ none := by
  obtain ⟨σ, hσ, hc⟩ := reaches_of_replay (settingsCode defaultScheduler someUser)
    (responder.recorded.given (KeepsSource someUser)) (.start ⟨Store.idle (fun _ => none) [], []⟩)
    oneAfterTheOther (fun σ => (σ.world.now.rows someUser).any fun row =>
      row.nextInvestAt.any fun t => decide (anHourLater.instant < t.instant)) (by decide +kernel)
  obtain ⟨row, hrow, hnext⟩ := (Option.any_eq_true _ _).mp hc
  refine ⟨row, next_runs_true defaultScheduler someUser hσ hrow, fun hnone => ?_⟩
  simp [hnone] at hnext

/-- An investment is switched off between the `SELECT` and the `UPDATE` of the scheduler. -/
def switchedOffBetween : List (Turn SettingsCall Unit) :=
  [.spawn 0 (.patch someNow someNow investing)] ++ acts 0 7 ++
    [.spawn 1 (.advance .invest anHourLater)] ++ acts 1 1 ++
      [.spawn 2 (.patch anHourLater anHourLater notInvesting)] ++ acts 2 6 ++ acts 1 3

/-- The next run that the scheduler computed from the settings before is written over the one of the
settings that were committed: an investment that is switched off has a next run. -/
theorem next_run_lost :
    ∃ σ, Reaches (semantics UserId StoredSettings SettingsCall) (settingsCode defaultScheduler someUser)
        (.start (Store.idle (fun _ => none) [])) σ ∧ (∀ i, (σ.threads i).ended = true) ∧
      ∃ row, σ.world.rows someUser = some row ∧ row.investCashEnabled = false ∧
        row.nextInvestAt ≠ none ∧ ¬NextRunsTrue defaultScheduler row := by
  obtain ⟨σ, hσ, hended, hc⟩ := reaches_ended_of_replay (settingsCode defaultScheduler someUser)
    responder (Store.idle (fun _ => none) []) switchedOffBetween
    (fun σ => (σ.world.rows someUser).any fun row =>
      !row.investCashEnabled && row.nextInvestAt.isSome) (by decide +kernel)
  obtain ⟨row, hrow, hcheck⟩ := (Option.any_eq_true _ _).mp hc
  simp only [Bool.and_eq_true, Bool.not_eq_true', Option.isSome_iff_ne_none] at hcheck
  refine ⟨σ, hσ, hended, row, hrow, hcheck.1, hcheck.2, fun htrue => ?_⟩
  exact hcheck.2 ((htrue .invest).2 fun hon => hon ⟨rfl, hcheck.1⟩)

end Coinpilot.Api
