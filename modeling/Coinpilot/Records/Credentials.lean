import Coinpilot.Core.Rotation
import Coinpilot.Lib.Commits

/-!
# No stored key is lost

Registrations, deletions and rotations of any number of users run side by side, statement by statement. Where
nothing that a registration draws is in a row of its user so far (`Fresh`), each record opens to what its user
registered last, or is gone if it was deleted last, or is what it was at first, as it was or sealed again
(`credentials_kept`). `validated_at` changes only on a registration, and what is registered was accepted.

A rotation that has returned has left nothing under another master key except what does not open, and reports
that (`rotation_complete`).
-/

set_option autoImplicit false

namespace Coinpilot.Records

open Coinpilot.Lib Coinpilot.Lib.Program Coinpilot.Lib.ReadCommitted Coinpilot.Exchange Coinpilot.Core
  Coinpilot.Core.Rotation

abbrev CredentialHistory : Type := StoreHistory UserId UserCredentials CredentialCall

abbrev CredentialEvent : Type := Answered UserId UserCredentials CredentialCall

abbrev CredentialRows : Type := Rows UserId UserCredentials

/-! ## What is stored -/

/-- The last registration of a user's key, or `none` if it was deleted since. -/
def lastChange (userId : UserId) : List CredentialEvent → Option (Option Registration)
  | [] => none
  | e :: older =>
      match e.call with
      | .register other given => if other = userId then some (some given) else lastChange userId older
      | .remove other =>
          if other = userId ∧ e.before.drafts e.who userId = some none then some none
          else lastChange userId older
      | .rotate _ => lastChange userId older

section Law

variable (aes : AesGcm) (cipher : CredentialCipher) (initial : CredentialRows)

/-- The record is under the active key and opens to these credentials, with no other key held. -/
structure Holds (userId : UserId) (row : UserCredentials) (credentials : Credentials) : Prop where
  active : row.keyVersion = cipher.active
  unseals : cipher.onlyActive.unseal aes userId row.sealed = some credentials

/-- The record is under another key, and opens. -/
def OpensElsewhere (userId : UserId) (row : UserCredentials) : Prop :=
  row.keyVersion ≠ cipher.active ∧ ∃ credentials, cipher.unseal aes userId row.sealed = some credentials

/-- The record is under another key, and does not open. -/
def Unreadable (userId : UserId) (row : UserCredentials) : Prop :=
  row.keyVersion ≠ cipher.active ∧ cipher.unseal aes userId row.sealed = none

/-- What a record that nobody registered or deleted may have become: itself, or the same sealed again. -/
structure SameKey (userId : UserId) (first row : UserCredentials) : Prop where
  validatedAt : row.validatedAt = first.validatedAt
  same : row = first ∨ first.keyVersion ≠ cipher.active ∧ ∃ credentials,
    cipher.unseal aes userId first.sealed = some credentials ∧ Holds aes cipher userId row credentials

/-- What the commits have left of the user's record. -/
def Stored (rows : CredentialRows) (cs : List CredentialEvent) (userId : UserId) : Prop :=
  match lastChange userId cs, initial userId with
  | some (some given), _ => ∃ row, rows userId = some row ∧ Holds aes cipher userId row given.credentials ∧
      row.validatedAt = given.now
  | some none, _ => rows userId = none
  | none, none => rows userId = none
  | none, some first => ∃ row, rows userId = some row ∧ SameKey aes cipher userId first row

/-- Kraken listed the permissions of the key, and they are as they must be. -/
def Accepted (answer : HttpOutcome) : Prop := ∃ granted, Grants answer granted ∧ MayBeStored granted

/-- The ciphertext, the nonce and the time of a registration are in no row that its user has had. -/
def Fresh (_ : Nat) (c : CredentialCall) (_ : Stmt UserId UserCredentials) (r : CredentialHistory) : Prop :=
  match c with
  | .register userId given => ∀ e ∈ r.past, ∀ row ∈ e.before.rows userId,
      (given.record aes cipher userId).ciphertext ≠ row.ciphertext ∧ given.nonce ≠ row.nonce ∧
        given.now ≠ row.validatedAt
  | _ => True

instance (i : Nat) (c : CredentialCall) (s : Stmt UserId UserCredentials) (r : CredentialHistory) :
    Decidable (Fresh aes cipher i c s r) := by
  unfold Fresh
  split
  · infer_instance
  · infer_instance

/-- Every record is what the commits have left, what was registered was accepted, and whatever is written is
under the active key. -/
def credentialLaw : CommitLaw UserId UserCredentials CredentialCall where
  ok rows cs := (∀ userId, Stored aes cipher initial rows cs userId) ∧
    ∀ e ∈ cs, ∀ userId given, e.call = .register userId given → Accepted given.answer
  onward a b := ∀ userId row, b.rows userId = some row →
    row.keyVersion = cipher.active ∨ a.rows userId = some row
  refl _ _ _ h := .inr h
  trans := by
    intro a b c hab hbc userId row hrow
    rcases hbc userId row hrow with hactive | hrow
    · exact .inl hactive
    · exact hab userId row hrow

abbrev credentialRules :
    Contract ((semantics UserId UserCredentials CredentialCall).recorded.given (Fresh aes cipher)) :=
  (credentialLaw aes cipher initial).rules (Fresh aes cipher)

end Law

section Commits

variable {aes : AesGcm} {cipher : CredentialCipher} {initial : CredentialRows} {i : Nat} {c : CredentialCall}
  {userId : UserId} {r : CredentialHistory}

/-- A record under another key is what it was at first. -/
theorem Stored.original {rows : CredentialRows} {cs : List CredentialEvent}
    (h : Stored aes cipher initial rows cs userId) {row : UserCredentials} (hrow : rows userId = some row)
    (hother : row.keyVersion ≠ cipher.active) :
    lastChange userId cs = none ∧ initial userId = some row := by
  rw [Stored] at h
  split at h
  · obtain ⟨row', hrow', hholds, -⟩ := h
    rw [hrow] at hrow'
    obtain rfl := Option.some.inj hrow'
    exact absurd hholds.active hother
  · rw [hrow] at h
    cases h
  · rw [hrow] at h
    cases h
  · rename_i first hlast hfirst
    obtain ⟨row', hrow', hsame⟩ := h
    rw [hrow] at hrow'
    obtain rfl := Option.some.inj hrow'
    rcases hsame.same with rfl | ⟨-, credentials, -, hholds⟩
    · exact ⟨hlast, hfirst⟩
    · exact absurd hholds.active hother

/-- What the commits have left of a record depends on the last change and on the record. -/
theorem Stored.congr {rows rows' : CredentialRows} {cs cs' : List CredentialEvent}
    (h : Stored aes cipher initial rows cs userId) (hlast : lastChange userId cs' = lastChange userId cs)
    (hrow : rows' userId = rows userId) : Stored aes cipher initial rows' cs' userId := by
  rw [Stored, hlast, hrow]
  exact h

/-- A commit that changes nothing of the user's changes nothing for the user. -/
theorem lastChange_unchanged {cs : List CredentialEvent} {w : Store UserId UserCredentials}
    (hdrafts : w.drafts i userId = none) (hcall : ∀ given, c ≠ .register userId given) :
    lastChange userId (commitOf i c w :: cs) = lastChange userId cs := by
  rw [lastChange, commitOf]
  cases c with
  | register user given => exact if_neg fun h => hcall given (by rw [h])
  | remove user =>
    refine if_neg fun h => ?_
    dsimp only at h
    rw [hdrafts] at h
    cases h.2
  | rotate nonces => rfl

/-- A commit of one record. -/
theorem respects_drafts {v : Option UserCredentials}
    (hok : (credentialLaw aes cipher initial).ok r.now.rows (commits r.past))
    (hdrafts : r.now.Drafts i userId v) (hactive : ∀ row, v = some row → row.keyVersion = cipher.active)
    (hstored : Stored aes cipher initial (Function.update r.now.rows userId v)
      (commitOf i c r.now :: commits r.past) userId)
    (hcall : ∀ other given, c = .register other given → other = userId ∧ Accepted given.answer) :
    (credentialLaw aes cipher initial).Respects i c r := by
  obtain ⟨hrows, haccepted⟩ := hok
  have hview := hdrafts.view
  refine ⟨fun other row hrow => ?_, fun other => ?_, fun e he other given hgiven => ?_⟩
  · rw [committing_rows, hview] at hrow
    by_cases hother : other = userId
    · subst hother
      rw [Function.update_self] at hrow
      exact .inl (hactive row hrow)
    · rw [Function.update_of_ne hother] at hrow
      exact .inr hrow
  · rw [hview]
    by_cases hother : other = userId
    · exact hother ▸ hstored
    · refine (hrows other).congr (lastChange_unchanged ?_ fun given hgiven => ?_) (Function.update_of_ne hother _ _)
      · rw [show r.now.drafts i = _ from hdrafts, Function.update_of_ne hother]
      · exact hother (hcall other given hgiven).1
  · rcases List.mem_cons.mp he with rfl | he
    · exact (hcall other given hgiven).2
    · exact haccepted e he other given hgiven

/-- A commit of nothing. -/
theorem respects_clean (hok : (credentialLaw aes cipher initial).ok r.now.rows (commits r.past))
    (hclean : r.now.Clean i) (hcall : ∀ other given, c ≠ .register other given) :
    (credentialLaw aes cipher initial).Respects i c r := by
  obtain ⟨hrows, haccepted⟩ := hok
  have hview := hclean.view
  refine ⟨fun other row hrow => .inr (by rwa [committing_rows, hview] at hrow), fun other => ?_, fun e he other given hgiven => ?_⟩
  · rw [hview]
    exact (hrows other).congr (lastChange_unchanged (hclean other) (hcall other)) rfl
  · rcases List.mem_cons.mp he with rfl | he
    · exact absurd hgiven (hcall other given)
    · exact haccepted e he other given hgiven

end Commits

/-! ## The calls -/

section Calls

variable {aes : AesGcm} {cipher : CredentialCipher} {initial : CredentialRows} {i : Nat} {c : CredentialCall}
  {userId : UserId} {r : CredentialHistory}

/-- The columns of a record that has nothing of what was loaded, over a row that came after it. -/
theorem changeColumns_fresh {given : Registration} {loaded row : UserCredentials}
    (hfresh : (given.record aes cipher userId).ciphertext ≠ loaded.ciphertext ∧ given.nonce ≠ loaded.nonce ∧
      given.now ≠ loaded.validatedAt)
    (honward : loaded.keyVersion = cipher.active → row.keyVersion = cipher.active) :
    changeColumns loaded (given.record aes cipher userId) row = given.record aes cipher userId := by
  obtain ⟨hciphertext, hnonce, hnow⟩ := hfresh
  rw [changeColumns, if_neg hciphertext, if_neg (show (given.record aes cipher userId).nonce ≠ _ from hnonce),
    if_neg (show (given.record aes cipher userId).validatedAt ≠ _ from hnow)]
  have hactive : (given.record aes cipher userId).keyVersion = cipher.active := rfl
  split
  · rename_i hsame
    rw [honward (hsame.symm.trans hactive)]
    rfl
  · rfl

/-- Saving leaves the record that is wanted, or finds it as it is. -/
theorem saveCredentials_wp {given : Registration} (hclean : r.now.Clean i) :
    (saveCredentials userId (given.record aes cipher userId)).Wp (credentialRules aes cipher initial) i
      (.register userId given) (fun res _ r' => res = .ok () →
        r'.now.Drafts i userId (some (given.record aes cipher userId)) ∨
          ∃ e ∈ r'.past, e.before.rows userId = some (given.record aes cipher userId)) () r := by
  refine wp_bind (CommitLaw.wp_select fun r₁ hleft r₂ hnow hpast => ?_)
  have hclean₁ : r₁.now.Clean i := hleft.1.1.kept.clean hclean
  have hclean₂ : r₂.now.Clean i := hnow ▸ hclean₁
  rw [hclean₁.view] at hpast ⊢
  dsimp only
  split
  · refine wp_bind (CommitLaw.wp_insertRow fun r₃ hleft₃ r₄ => ⟨fun _ h => ?_, fun _ hcreate _ _ => .inl ?_⟩)
    · cases h
    · rw [hcreate]
      exact (hleft₃.1.1.kept.clean hclean₂).draft userId _
  · rename_i loaded hloaded
    rw [flush]
    split
    · rename_i hsame
      refine fun _ => .inr ⟨_, hpast ▸ List.mem_cons_self, ?_⟩
      exact hsame ▸ hloaded
    · refine wp_bind (wp_bind (CommitLaw.wp_lockRow fun r₃ hleft₃ _ r₄ hpast₄ => ⟨fun _ _ h => ?_, ?_⟩))
      · cases h
      · intro row hrow hnow₄
        have hclean₃ : r₃.now.Clean i := hleft₃.1.1.kept.clean hclean₂
        rw [hclean₃.view] at hrow
        refine wp_bind (CommitLaw.wp_writeRow fun r₅ hleft₅ hallowed r₆ hnow₆ _ _ => .inl ?_)
        have hmem : (⟨i, .register userId given, .snapshot, r₁.now.rows, r₁.now, r₁.now⟩ : CredentialEvent) ∈ r₅.past := by
          refine hleft₅.1.1.mem_past (hpast₄ ▸ List.mem_cons_of_mem _ (hleft₃.1.1.mem_past ?_))
          exact hpast ▸ List.mem_cons_self
        have honward : loaded.keyVersion = cipher.active → row.keyVersion = cipher.active := fun hactive => by
          rcases hleft₃.1.2 userId row hrow with hrow | hrow
          · exact hrow
          · rw [committed_rows, hnow, hloaded] at hrow
            exact Option.some.inj hrow ▸ hactive
        rw [hnow₆, changeColumns_fresh (hallowed _ hmem loaded hloaded) honward]
        have hclean₄ : r₄.now.Clean i := hnow₄ ▸ hclean₃.take userId
        exact (hleft₅.1.1.kept.clean hclean₄).draft userId _

/-- The call has not returned the report of a rotation. -/
def NoReport (res : Except CredentialExn CredentialOutcome) : Prop := ∀ report, res ≠ .ok (.rotated report)

theorem noReport_error (e : CredentialExn) : NoReport (.error e) := by
  rintro report ⟨⟩

/-- A registration that commits leaves its record, which opens to what was registered. -/
theorem register_wp (hopens : aes.Opens) {given : Registration} (hclean : r.now.Clean i) :
    (credentialWork aes cipher (.register userId given)).Wp (credentialRules aes cipher initial) i
      (.register userId given) (fun res _ _ => NoReport res) () r := by
  refine wp_bind (CommitLaw.wp_transaction ?_)
  rw [register]
  split
  · exact fun _ _ _ _ => noReport_error _
  · rename_i result hresult
    split
    · exact fun _ _ _ _ => noReport_error _
    · split
      · exact fun _ _ _ _ => noReport_error _
      · split
        · exact fun _ _ _ _ => noReport_error _
        · rename_i haccepted
          have haccepted : Accepted given.answer := (accepted_iff hresult).mp (by simpa using haccepted)
          refine wp_bind (Proc.wp_mono (saveCredentials_wp hclean) ?_)
          rintro (e | u) ⟨⟩ r' hsaved r₁ hleft
          · exact fun _ _ => noReport_error _
          · intro hallowed
            have hdrafts : r₁.now.Drafts i userId (some (given.record aes cipher userId)) := by
              rcases hsaved rfl with hdrafts | ⟨e, he, hrow⟩
              · exact hleft.1.1.kept.drafted hdrafts
              · exact absurd rfl (hallowed e (hleft.1.1.mem_past he) _ hrow).1
            refine ⟨respects_drafts hleft.2.2 hdrafts (fun row hrow => ?_) ?_ fun other given' h => ?_,
              fun _ _ _ => by rintro report ⟨⟩⟩
            · cases hrow
              rfl
            · rw [Stored, lastChange, commitOf]
              dsimp only
              rw [if_pos rfl, Function.update_self]
              refine ⟨_, rfl, ⟨rfl, ?_⟩, rfl⟩
              rw [CredentialCipher.unseal_onlyActive rfl]
              exact CredentialCipher.unseal_seal hopens userId given.credentials given.nonce
            · cases h
              exact ⟨rfl, haccepted⟩

/-- A deletion that commits has deleted the record, or found none. -/
theorem remove_wp (hclean : r.now.Clean i) :
    (credentialWork aes cipher (.remove userId)).Wp (credentialRules aes cipher initial) i (.remove userId)
      (fun res _ _ => NoReport res) () r := by
  have hcall : ∀ other given, CredentialCall.remove userId ≠ .register other given := by
    rintro other given ⟨⟩
  -- what the body leaves: a deletion, or nothing
  have hbody : (remove userId).Wp (credentialRules aes cipher initial) i (.remove userId)
      (fun res _ r' => res = .ok () → r'.now.Clean i ∨ r'.now.Drafts i userId none) () r := by
    refine wp_bind (wp_bind (CommitLaw.wp_select fun r₁ hleft r₂ hnow _ => ?_))
    have hclean₂ : r₂.now.Clean i := hnow ▸ hleft.1.1.kept.clean hclean
    dsimp only
    split
    · exact fun h => by cases h
    · refine wp_bind (wp_bind (CommitLaw.wp_lockRow fun r₃ hleft₃ _ r₄ _ => ⟨fun _ hnow₄ _ => .inl ?_, ?_⟩))
      · rw [hnow₄]
        exact hleft₃.1.1.kept.clean hclean₂
      · intro row _ hnow₄
        refine wp_bind (CommitLaw.wp_writeRow fun r₅ hleft₅ _ r₆ hnow₆ _ _ => .inr ?_)
        have hclean₄ : r₄.now.Clean i := hnow₄ ▸ (hleft₃.1.1.kept.clean hclean₂).take userId
        rw [hnow₆]
        exact (hleft₅.1.1.kept.clean hclean₄).draft userId none
  refine wp_bind (CommitLaw.wp_transaction (Proc.wp_mono hbody ?_))
  rintro (e | u) ⟨⟩ r' hdone r₁ hleft
  · exact fun _ _ => noReport_error _
  · refine fun _ => ⟨?_, fun _ _ _ => by rintro report ⟨⟩⟩
    rcases hdone rfl with hclean' | hdrafts
    · exact respects_clean hleft.2.2 (hleft.1.1.kept.clean hclean') hcall
    · have hdrafts₁ := hleft.1.1.kept.drafted hdrafts
      refine respects_drafts hleft.2.2 hdrafts₁ (fun row h => by cases h) ?_ fun other given h =>
        absurd h (hcall other given)
      have hnone : r₁.now.drafts i userId = some none := by
        rw [show r₁.now.drafts i = _ from hdrafts₁, Function.update_self]
      rw [Stored, lastChange, commitOf]
      dsimp only
      rw [if_pos ⟨rfl, hnone⟩, Function.update_self]

end Calls

/-! ## Rotation -/

section Rotating

variable (aes : AesGcm) (cipher : CredentialCipher) (initial : CredentialRows)

/-- What an outcome says of the user's record, then and later. -/
def Told (userId : UserId) (rows : CredentialRows) : Rotation.Outcome → Prop
  | .resealed => (∀ row, rows userId = some row → row.keyVersion = cipher.active) ∧
      ∃ first, initial userId = some first ∧ OpensElsewhere aes cipher userId first
  | .unreadable => ∃ first, initial userId = some first ∧ Unreadable aes cipher userId first ∧
      ∀ row, rows userId = some row → row.keyVersion = cipher.active ∨ row = first
  | _ => ∀ row, rows userId = some row → row.keyVersion = cipher.active

/-- What a report says, where these owners are still to come. -/
structure Reported (rows : CredentialRows) (report : RotationReport) (rest : List UserId) : Prop where
  left : ∀ userId row, rows userId = some row → userId ∈ rest ∨ row.keyVersion = cipher.active ∨
    userId ∈ report.unreadable ∧ initial userId = some row ∧ Unreadable aes cipher userId row
  resealed : ∀ userId ∈ report.resealed, ∃ first, initial userId = some first ∧
    OpensElsewhere aes cipher userId first
  unreadable : ∀ userId ∈ report.unreadable, ∃ first, initial userId = some first ∧
    Unreadable aes cipher userId first

variable {aes cipher initial} {i : Nat} {nonces : UserId → List UInt8} {userId : UserId}
  {r : CredentialHistory}

theorem Told.onward {rows rows' : CredentialRows} {outcome : Rotation.Outcome}
    (h : Told aes cipher initial userId rows outcome)
    (honward : ∀ userId row, rows' userId = some row → row.keyVersion = cipher.active ∨ rows userId = some row) :
    Told aes cipher initial userId rows' outcome := by
  have hactive : (∀ row, rows userId = some row → row.keyVersion = cipher.active) →
      ∀ row, rows' userId = some row → row.keyVersion = cipher.active := by
    intro hall row hrow
    rcases honward userId row hrow with hactive | hrow
    · exact hactive
    · exact hall row hrow
  cases outcome with
  | resealed => exact ⟨hactive h.1, h.2⟩
  | unreadable =>
    obtain ⟨first, hfirst, hunreadable, hall⟩ := h
    refine ⟨first, hfirst, hunreadable, fun row hrow => ?_⟩
    rcases honward userId row hrow with hactive | hrow
    · exact .inl hactive
    · exact hall row hrow
  | current => exact hactive h
  | gone => exact hactive h

theorem Reported.onward {rows rows' : CredentialRows} {report : RotationReport} {rest : List UserId}
    (h : Reported aes cipher initial rows report rest)
    (honward : ∀ userId row, rows' userId = some row → row.keyVersion = cipher.active ∨ rows userId = some row) :
    Reported aes cipher initial rows' report rest := by
  refine ⟨fun userId row hrow => ?_, h.resealed, h.unreadable⟩
  rcases honward userId row hrow with hactive | hrow
  · exact .inr (.inl hactive)
  · exact h.left userId row hrow

/-- One more outcome. -/
theorem Reported.add {rows : CredentialRows} {report : RotationReport} {rest : List UserId}
    {outcome : Rotation.Outcome} (h : Reported aes cipher initial rows report (userId :: rest))
    (htold : Told aes cipher initial userId rows outcome) :
    Reported aes cipher initial rows (report.add userId outcome) rest := by
  have hleft : ∀ other row, rows other = some row → other ≠ userId → other ∈ rest ∨
      row.keyVersion = cipher.active ∨ other ∈ report.unreadable ∧ initial other = some row ∧
        Unreadable aes cipher other row := by
    intro other row hrow hother
    rcases h.left other row hrow with hmem | hrest
    · exact .inl ((List.mem_cons.mp hmem).resolve_left hother)
    · exact .inr hrest
  have hactive : (∀ row, rows userId = some row → row.keyVersion = cipher.active) → ∀ other row,
      rows other = some row → other ∈ rest ∨ row.keyVersion = cipher.active ∨
        other ∈ report.unreadable ∧ initial other = some row ∧ Unreadable aes cipher other row := by
    intro hall other row hrow
    by_cases hother : other = userId
    · subst hother
      exact .inr (.inl (hall row hrow))
    · exact hleft other row hrow hother
  cases outcome with
  | resealed =>
    refine ⟨hactive htold.1, fun other hother => ?_, h.unreadable⟩
    rcases List.mem_append.mp hother with hother | hother
    · exact h.resealed other hother
    · obtain rfl := List.mem_singleton.mp hother
      exact htold.2
  | unreadable =>
    obtain ⟨first, hfirst, hunreadable, hall⟩ := htold
    refine ⟨fun other row hrow => ?_, h.resealed, fun other hother => ?_⟩
    · by_cases hother : other = userId
      · subst hother
        rcases hall row hrow with hactive | rfl
        · exact .inr (.inl hactive)
        · exact .inr (.inr ⟨List.mem_append_right _ (List.mem_singleton_self _), hfirst, hunreadable⟩)
      · rcases hleft other row hrow hother with hmem | hactive | ⟨hmem, hrest⟩
        · exact .inl hmem
        · exact .inr (.inl hactive)
        · exact .inr (.inr ⟨List.mem_append_left _ hmem, hrest⟩)
    · rcases List.mem_append.mp hother with hother | hother
      · exact h.unreadable other hother
      · obtain rfl := List.mem_singleton.mp hother
        exact ⟨first, hfirst, hunreadable⟩
  | current => exact ⟨hactive htold, h.resealed, h.unreadable⟩
  | gone => exact ⟨hactive htold, h.resealed, h.unreadable⟩

theorem rotate_not_register {other : UserId} {given : Registration} :
    CredentialCall.rotate nonces ≠ .register other given := by
  rintro ⟨⟩

/-- One record, sealed again or left as it was. -/
theorem reseal_wp (hopens : aes.Opens) {nonce : List UInt8} (hclean : r.now.Clean i) :
    (transaction (reseal aes cipher userId nonce)).Wp (credentialRules aes cipher initial) i (.rotate nonces)
      (fun res _ r' => r'.now.Clean i ∧ ∀ outcome, res = .ok outcome →
        Told aes cipher initial userId r'.now.rows outcome) () r := by
  refine CommitLaw.wp_transaction (wp_bind (CommitLaw.wp_lockRow fun r₁ hleft _ r₂ _ => ?_))
  have hclean₁ : r₁.now.Clean i := hleft.1.1.kept.clean hclean
  rw [hclean₁.view]
  -- an outcome that changes nothing
  have hnothing : ∀ {r₃ : CredentialHistory} {outcome : Rotation.Outcome}, r₃.now.Clean i →
      Told aes cipher initial userId r₃.now.rows outcome → ∀ r₄,
      (credentialLaw aes cipher initial).Left (Fresh aes cipher) i r₃ r₄ →
      (credentialLaw aes cipher initial).Respects i (.rotate nonces) r₄ ∧ ∀ r₅ : CredentialHistory,
        r₅.now = r₄.now.commit i → r₅.past = commitOf i (.rotate nonces) r₄.now :: r₄.past →
        r₅.now.Clean i ∧ ∀ outcome',
          Except.ok outcome = (Except.ok outcome' : Except CredentialExn Rotation.Outcome) →
            Told aes cipher initial userId r₅.now.rows outcome' := by
    intro r₃ outcome hclean₃ htold r₄ hleft₄
    have hclean₄ := hleft₄.1.1.kept.clean hclean₃
    refine ⟨respects_clean hleft₄.2.2 hclean₄ fun _ _ => rotate_not_register, fun r₅ hnow₅ _ => ?_⟩
    rw [hnow₅]
    refine ⟨Store.clean_commit _ i, fun outcome' h => ?_⟩
    obtain rfl := Except.ok.inj h
    rw [show (r₄.now.commit i).rows = r₄.now.view i from rfl, hclean₄.view]
    exact htold.onward hleft₄.1.2
  refine ⟨fun hrow hnow₂ => ?_, fun record hrow hnow₂ => ?_⟩
  · have htold : Told aes cipher initial userId r₂.now.rows .gone := by
      intro row hrow'
      rw [hnow₂, hrow] at hrow'
      cases hrow'
    exact fun r₃ hleft₃ _ => hnothing (hnow₂ ▸ hclean₁) htold r₃ hleft₃
  · have hclean₂ : r₂.now.Clean i := hnow₂ ▸ hclean₁.take userId
    have hrow₂ : r₂.now.rows userId = some record := by
      rw [hnow₂]
      exact hrow
    dsimp only
    split
    · rename_i hactive
      have htold : Told aes cipher initial userId r₂.now.rows .current := by
        intro row hrow'
        rw [hrow₂] at hrow'
        exact Option.some.inj hrow' ▸ hactive
      exact fun r₃ hleft₃ _ => hnothing hclean₂ htold r₃ hleft₃
    · rename_i hother
      have hfirst : initial userId = some record := ((hleft.2.2.1 userId).original hrow hother).2
      split
      · rename_i hunseal
        have htold : Told aes cipher initial userId r₂.now.rows .unreadable := by
          refine ⟨record, hfirst, ⟨hother, hunseal⟩, fun row hrow' => .inr ?_⟩
          rw [hrow₂] at hrow'
          exact (Option.some.inj hrow').symm
        exact fun r₃ hleft₃ _ => hnothing hclean₂ htold r₃ hleft₃
      · rename_i credentials hunseal
        generalize hnew : record.withSealed (cipher.seal aes userId credentials nonce) = new
        have hactive : new.keyVersion = cipher.active := by
          rw [← hnew]
          rfl
        have hvalidated : new.validatedAt = record.validatedAt := by
          rw [← hnew]
          rfl
        have hholds : Holds aes cipher userId new credentials := by
          refine ⟨hactive, ?_⟩
          rw [CredentialCipher.unseal_onlyActive hactive, ← hnew]
          exact CredentialCipher.unseal_seal hopens userId credentials nonce
        have hchanges : new ≠ record := fun h => hother (h ▸ hactive)
        have hholds₂ : r₂.now.Holds i userId (some record) := by
          rw [hnow₂, ← hrow, ← hclean₁.view]
          exact r₁.now.take_holds i userId
        rw [flush, if_neg hchanges]
        refine wp_bind (wp_bind (wp_bind (CommitLaw.wp_lockRow fun r₃ hleft₃ _ r₄ _ => ⟨fun _ _ => ?_, ?_⟩)))
        · intro r₅ hleft₅ r₆ hnow₆
          rw [hnow₆]
          exact ⟨Store.clean_release _ i, fun _ h => by cases h⟩
        · intro row hrow₃ hnow₄
          have hrow₃' : row = record := by
            have hview := (hleft₃.1.1.kept.holds hholds₂).view
            rw [hrow₃] at hview
            exact Option.some.inj hview
          subst hrow₃'
          have hclean₄ : r₄.now.Clean i := hnow₄ ▸ (hleft₃.1.1.kept.clean hclean₂).take userId
          have hheld₄ : r₄.now.Holds i userId (some row) := by
            rw [hnow₄, ← hrow₃]
            exact r₃.now.take_holds i userId
          refine wp_bind (CommitLaw.wp_writeRow fun r₅ hleft₅ _ r₆ hnow₆ _ r₇ hleft₇ _ => ?_)
          rw [changeColumns_same] at hnow₆
          have hdrafts : r₇.now.Drafts i userId (some new) := by
            refine hleft₇.1.1.kept.drafted ?_
            rw [hnow₆]
            exact (hleft₅.1.1.kept.clean hclean₄).draft userId _
          have hrow₇ : r₇.now.rows userId = some row := by
            have hheld₅ := hleft₅.1.1.kept.holds hheld₄
            have hheld₆ : r₆.now.holder userId = some i := by
              rw [hnow₆]
              exact (r₅.now.draft_holds i userId _).holder
            rw [hleft₇.1.1.kept.rows userId hheld₆, hnow₆]
            have hview := hheld₅.view
            rwa [(hleft₅.1.1.kept.clean hclean₄).view] at hview
          obtain ⟨hlast, -⟩ := (hleft₇.2.2.1 userId).original hrow₇ hother
          refine ⟨respects_drafts hleft₇.2.2 hdrafts (fun row' h => ?_) ?_ fun _ _ h =>
            absurd h rotate_not_register, fun r₈ hnow₈ _ => ?_⟩
          · obtain rfl := Option.some.inj h
            exact hactive
          · rw [Stored, lastChange, commitOf]
            dsimp only
            rw [hlast, hfirst, Function.update_self]
            exact ⟨new, rfl, hvalidated, .inr ⟨hother, credentials, hunseal, hholds⟩⟩
          · rw [hnow₈]
            refine ⟨Store.clean_commit _ i, fun outcome h => ?_⟩
            obtain rfl := Except.ok.inj h
            refine ⟨fun row' hrow' => ?_, row, hfirst, hother, credentials, hunseal⟩
            rw [show (r₇.now.commit i).rows = r₇.now.view i from rfl, hdrafts.view, Function.update_self] at hrow'
            obtain rfl := Option.some.inj hrow'
            exact hactive

/-- The owners that are listed, one after another. -/
theorem resealEach_wp (hopens : aes.Opens) {owners : List UserId} {report : RotationReport}
    (hclean : r.now.Clean i) (hreported : Reported aes cipher initial r.now.rows report owners) :
    (resealEach aes cipher nonces owners report).Wp (credentialRules aes cipher initial) i (.rotate nonces)
      (fun res _ r' => ∀ report', res = .ok report' →
        Reported aes cipher initial r'.now.rows report' []) () r := by
  induction owners generalizing report r with
  | nil =>
    intro report' h
    obtain rfl := Except.ok.inj h
    exact hreported
  | cons userId rest ih =>
    refine wp_bind (Program.wp_mono (CommitLaw.wp_onward (reseal_wp hopens hclean)) ?_)
    rintro ⟨e | outcome, ⟨⟩⟩ r' ⟨⟨hclean', htold⟩, honward⟩
    · exact fun _ h => by cases h
    · exact ih hclean' ((hreported.onward honward).add (htold outcome rfl))

/-- A rotation, from the list of the owners to its report. -/
theorem rotate_wp (hopens : aes.Opens) (hclean : r.now.Clean i) :
    (credentialWork aes cipher (.rotate nonces)).Wp (credentialRules aes cipher initial) i (.rotate nonces)
      (fun res _ r' => ∀ report, res = .ok (.rotated report) →
        Reported aes cipher initial r'.now.rows report []) () r := by
  have hlisted : (transaction (credentialOwnersNotAt cipher.active)).Wp (credentialRules aes cipher initial) i
      (.rotate nonces) (fun res _ r' => ∀ owners, res = .ok owners → r'.now.Clean i ∧
        Reported aes cipher initial r'.now.rows ⟨[], []⟩ owners) () r := by
    refine CommitLaw.wp_transaction (wp_bind (CommitLaw.wp_selectAll fun r₁ hleft r₂ hnow _ r₃ hleft₃ _ => ?_))
    have hclean₁ : r₁.now.Clean i := hleft.1.1.kept.clean hclean
    have hclean₃ : r₃.now.Clean i := hleft₃.1.1.kept.clean (hnow ▸ hclean₁)
    refine ⟨respects_clean hleft₃.2.2 hclean₃ fun _ _ => rotate_not_register, fun r₄ hnow₄ _ => ?_⟩
    intro owners h
    obtain rfl := Except.ok.inj h
    rw [hnow₄]
    refine ⟨Store.clean_commit _ i, ?_⟩
    have hstart : Reported aes cipher initial r₁.now.rows ⟨[], []⟩
        (((r₁.now.listing i).filter fun e => e.2.keyVersion ≠ cipher.active).map Prod.fst |>.insertionSort
          fun a b => a.bytes ≤ b.bytes) := by
      refine ⟨fun userId row hrow => ?_, fun _ h => absurd h List.not_mem_nil, fun _ h => absurd h List.not_mem_nil⟩
      by_cases hactive : row.keyVersion = cipher.active
      · exact .inr (.inl hactive)
      · refine .inl ((List.mem_insertionSort _).mpr (List.mem_map.mpr ⟨(userId, row), ?_, rfl⟩))
        rw [List.mem_filter]
        refine ⟨hleft.2.1.mem_listing.mpr ?_, by simpa using hactive⟩
        rw [hclean₁.view]
        exact hrow
    rw [show (r₃.now.commit i).rows = r₃.now.view i from rfl, hclean₃.view]
    exact hstart.onward (hnow ▸ hleft₃.1.2)
  refine wp_bind (wp_bind (Proc.wp_mono hlisted ?_))
  rintro (e | owners) ⟨⟩ r' howners
  · exact fun _ h => by cases h
  · obtain ⟨hclean', hreported⟩ := howners owners rfl
    refine Proc.wp_mono (resealEach_wp hopens hclean' hreported) ?_
    rintro (e | report) ⟨⟩ r'' hreport
    · exact fun _ h => by cases h
    · intro report' h
      cases h
      exact hreport report rfl

/-- What a call has left when it has returned. -/
def Returned (aes : AesGcm) (cipher : CredentialCipher) (initial : CredentialRows)
    (res : Except CredentialExn CredentialOutcome) (rows : CredentialRows) : Prop :=
  ∀ report, res = .ok (.rotated report) → Reported aes cipher initial rows report []

theorem credentialCode_covers (hopens : aes.Opens) :
    (credentialRules aes cipher initial).Covers (credentialCode aes cipher) (fun i r => r.now.Clean i)
      fun _ _ res r => Returned aes cipher initial res.1 r.now.rows where
  fresh_stable := fun _ _ _ hclean hr _ => hr.1.kept.clean hclean
  post_stable := fun _ _ _ _ _ h hr _ report hreport => (h report hreport).onward hr.2
  code_ok := by
    intro i c r _ hclean
    cases c with
    | register userId given =>
      exact Program.wp_mono (register_wp hopens hclean) fun res _ h report heq => absurd heq (h report)
    | remove userId => exact Program.wp_mono (remove_wp hclean) fun res _ h report heq => absurd heq (h report)
    | rotate nonces => exact rotate_wp hopens hclean

end Rotating

/-! ## In every run -/

section Runs

variable {aes : AesGcm} {cipher : CredentialCipher} {initial : CredentialRows} {keys : List UserId}
  {σ : Config (Stmt UserId UserCredentials) Reply CredentialCall CredentialHistory
    (Except CredentialExn CredentialOutcome × Unit)}

theorem credentials_start (hnodup : keys.Nodup) (hkeys : ∀ userId, initial userId ≠ none → userId ∈ keys) :
    (credentialRules aes cipher initial).inv ⟨Store.idle initial keys, []⟩ := by
  refine ⟨Store.idle_sound hnodup hkeys, fun userId => ?_, fun e he => absurd he List.not_mem_nil⟩
  change Stored aes cipher initial initial [] userId
  rw [Stored, lastChange]
  cases hfirst : initial userId with
  | none => rfl
  | some first => exact ⟨first, rfl, rfl, .inl rfl⟩

/-- Whatever is registered, deleted and rotated side by side, and wherever a call dies: each record is what
its user registered last, or is gone if it was deleted last, or is what it was at first, and what was
registered was accepted. -/
theorem credentials_kept (hopens : aes.Opens) (hnodup : keys.Nodup)
    (hkeys : ∀ userId, initial userId ≠ none → userId ∈ keys)
    (h : Reaches ((semantics UserId UserCredentials CredentialCall).recorded.given (Fresh aes cipher))
      (credentialCode aes cipher) (.start ⟨Store.idle initial keys, []⟩) σ) :
    (∀ userId, Stored aes cipher initial σ.world.now.rows (commits σ.world.past) userId) ∧
      ∀ e ∈ commits σ.world.past, ∀ userId given, e.call = .register userId given → Accepted given.answer :=
  (Contract.sound (credentialCode_covers hopens) (credentials_start hnodup hkeys) (fun _ _ => rfl) h).1.2

/-- Once a rotation has returned, a record that is not under the active key does not open, is as it was at
first, and is reported; and what it reports sealed again was under another key, and opened. -/
theorem rotation_complete (hopens : aes.Opens) (hnodup : keys.Nodup)
    (hkeys : ∀ userId, initial userId ≠ none → userId ∈ keys)
    (h : Reaches ((semantics UserId UserCredentials CredentialCall).recorded.given (Fresh aes cipher))
      (credentialCode aes cipher) (.start ⟨Store.idle initial keys, []⟩) σ)
    {i : Nat} {nonces : UserId → List UInt8} {report : RotationReport}
    (hi : σ.threads i = .live (.rotate nonces) (.ret (.ok (.rotated report), ()))) :
    (∀ userId row, σ.world.now.rows userId = some row → row.keyVersion ≠ cipher.active →
      userId ∈ report.unreadable ∧ initial userId = some row ∧ Unreadable aes cipher userId row) ∧
    (report.ok = true → ∀ userId row, σ.world.now.rows userId = some row → row.keyVersion = cipher.active) ∧
    ∀ userId ∈ report.resealed, ∃ first, initial userId = some first ∧
      OpensElsewhere aes cipher userId first := by
  have hthread := (Contract.sound (credentialCode_covers hopens) (credentials_start hnodup hkeys)
    (fun _ _ => rfl) h).2 i
  rw [hi] at hthread
  obtain ⟨hleft, hresealed, -⟩ := hthread report rfl
  refine ⟨fun userId row hrow hother => ?_, fun hok userId row hrow => ?_, hresealed⟩
  · rcases hleft userId row hrow with hmem | hactive | hrest
    · exact absurd hmem List.not_mem_nil
    · exact absurd hactive hother
    · exact hrest
  · rcases hleft userId row hrow with hmem | hactive | ⟨hmem, -⟩
    · exact absurd hmem List.not_mem_nil
    · exact hactive
    · rw [List.isEmpty_iff.mp hok] at hmem
      exact absurd hmem List.not_mem_nil

end Runs

/-! ## A registration beside a rotation -/

/-- A text in three bytes for each character. -/
def writeText : List Char → List UInt8
  | [] => [0]
  | c :: rest =>
      1 :: UInt8.ofNat (c.toNat / 65536) :: UInt8.ofNat (c.toNat / 256) :: UInt8.ofNat c.toNat :: writeText rest

def readText : List UInt8 → Option (List Char × List UInt8)
  | 0 :: rest => some ([], rest)
  | 1 :: high :: middle :: low :: rest =>
      (readText rest).map fun text =>
        (Char.ofNat (high.toNat * 65536 + middle.toNat * 256 + low.toNat) :: text.1, text.2)
  | _ => none

theorem readText_writeText (text : List Char) (rest : List UInt8) :
    readText (writeText text ++ rest) = some (text, rest) := by
  induction text with
  | nil => rfl
  | cons c text ih =>
    have hvalid : c.toNat < 0x110000 := by
      rcases c.valid with h | h
      · exact h.trans (by decide)
      · exact h.2
    have hnat : (UInt8.ofNat (c.toNat / 65536)).toNat * 65536 + (UInt8.ofNat (c.toNat / 256)).toNat * 256 +
        (UInt8.ofNat c.toNat).toNat = c.toNat := by
      simp only [UInt8.toNat_ofNat']
      omega
    rw [writeText]
    simp only [List.cons_append, readText, ih, Option.map_some, hnat, Char.ofNat_toNat]

/-- A sealing that keeps what it seals behind the key, the nonce and the associated data. -/
def plainAes : AesGcm where
  encrypt key nonce payload associated :=
    (key ++ nonce ++ associated) ++ (writeText payload.apiKey.toList ++ writeText payload.apiSecret.toList)
  decrypt key nonce ciphertext associated :=
    if (key ++ nonce ++ associated).isPrefixOf ciphertext then do
      let apiKey ← readText (ciphertext.drop (key ++ nonce ++ associated).length)
      let apiSecret ← readText apiKey.2
      return ⟨String.ofList apiKey.1, String.ofList apiSecret.1⟩
    else none

theorem plainAes_opens : plainAes.Opens := by
  intro key nonce payload associated
  have hprefix : (key ++ nonce ++ associated).isPrefixOf
      (plainAes.encrypt key nonce payload associated) = true := by
    rw [List.isPrefixOf_iff_prefix]
    exact List.prefix_append _ _
  have hsecret := readText_writeText payload.apiSecret.toList []
  rw [List.append_nil] at hsecret
  rw [plainAes] at hprefix ⊢
  dsimp only at hprefix ⊢
  rw [if_pos hprefix, List.drop_left, readText_writeText]
  dsimp only [bind, Option.bind]
  rw [hsecret]
  simp [pure]

/-- Two master keys, and the second is active. -/
def twoKeys : Dict Int (List UInt8) :=
  ⟨[(1, List.replicate 32 7), (2, List.replicate 32 9)], by decide⟩

theorem twoKeys_sized : ∀ e ∈ twoKeys.entries, e.2.length = KEY_BYTES := by decide

def before : CredentialCipher := ⟨twoKeys, 1, twoKeys_sized, by decide⟩

def rotating : CredentialCipher := ⟨twoKeys, 2, twoKeys_sized, by decide⟩

def keyHolder : UserId := ⟨List.replicate 16 0x6B, List.length_replicate⟩

def grantedPermissions : HttpOutcome :=
  .answered (.obj [("error", .arr []), ("result", .obj
    [("permissions", .arr (REQUIRED_PERMISSIONS.map Json.str))])])

def firstKey : Registration := ⟨"first", "one", grantedPermissions, List.replicate 12 1, 1000⟩

def secondKey : Registration := ⟨"second", "two", grantedPermissions, List.replicate 12 2, 2000⟩

/-- A record under the first master key. -/
def registeredBefore : CredentialRows := fun userId =>
  if userId = keyHolder then some (firstKey.record plainAes before keyHolder) else none

theorem registeredBefore_keys (userId : UserId) (h : registeredBefore userId ≠ none) : userId ∈ [keyHolder] := by
  rw [registeredBefore] at h
  split at h
  · rename_i heq
    simp [heq]
  · exact absurd rfl h

def statementsOf (i n : Nat) : List (Turn CredentialCall Unit) := List.replicate n (.act i ())

/-- A registration loads the record, a rotation seals it again, and the registration writes over it. -/
def registeredMeanwhile : List (Turn CredentialCall Unit) :=
  [.spawn 0 (.rotate fun _ => List.replicate 12 3), .spawn 1 (.register keyHolder secondKey)] ++
    statementsOf 1 1 ++ statementsOf 0 6 ++ statementsOf 1 3

/-- The rotation has reported the record, and it opens to what was registered. -/
def keptMeanwhile (σ : Config (Stmt UserId UserCredentials) Reply CredentialCall CredentialHistory
    (Except CredentialExn CredentialOutcome × Unit)) : Bool :=
  (match σ.threads 0 with
    | .live (.rotate _) (.ret (.ok (.rotated report), ())) => decide (report = ⟨[keyHolder], []⟩)
    | _ => false) &&
  decide ((σ.world.now.rows keyHolder).map (rotating.unseal plainAes keyHolder ∘ UserCredentials.sealed) =
    some (some secondKey.credentials))

theorem registeredMeanwhile_reached :
    ∃ σ, Reaches ((semantics UserId UserCredentials CredentialCall).recorded.given (Fresh plainAes rotating))
      (credentialCode plainAes rotating) (.start ⟨Store.idle registeredBefore [keyHolder], []⟩) σ ∧
      keptMeanwhile σ = true :=
  reaches_of_replay (credentialCode plainAes rotating)
    (responder.recorded.given (Fresh plainAes rotating))
    (.start ⟨Store.idle registeredBefore [keyHolder], []⟩) registeredMeanwhile keptMeanwhile (by decide +kernel)

theorem credentials_kept_registeredMeanwhile :
    ∃ σ, Reaches ((semantics UserId UserCredentials CredentialCall).recorded.given (Fresh plainAes rotating))
      (credentialCode plainAes rotating) (.start ⟨Store.idle registeredBefore [keyHolder], []⟩) σ ∧
      (σ.world.now.rows keyHolder).map (rotating.unseal plainAes keyHolder ∘ UserCredentials.sealed) =
        some (some secondKey.credentials) ∧
      (∀ userId, Stored plainAes rotating registeredBefore σ.world.now.rows (commits σ.world.past) userId) ∧
      ∀ e ∈ commits σ.world.past, ∀ userId given, e.call = .register userId given → Accepted given.answer := by
  obtain ⟨σ, hσ, hkept⟩ := registeredMeanwhile_reached
  rw [keptMeanwhile, Bool.and_eq_true, decide_eq_true_eq] at hkept
  exact ⟨σ, hσ, hkept.2, credentials_kept plainAes_opens (List.nodup_singleton keyHolder)
    registeredBefore_keys hσ⟩

theorem rotation_complete_registeredMeanwhile :
    ∃ σ, Reaches ((semantics UserId UserCredentials CredentialCall).recorded.given (Fresh plainAes rotating))
      (credentialCode plainAes rotating) (.start ⟨Store.idle registeredBefore [keyHolder], []⟩) σ ∧
      (∃ nonces, σ.threads 0 = .live (.rotate nonces) (.ret (.ok (.rotated ⟨[keyHolder], []⟩), ()))) ∧
      ∀ userId row, σ.world.now.rows userId = some row → row.keyVersion = 2 := by
  obtain ⟨σ, hσ, hkept⟩ := registeredMeanwhile_reached
  rw [keptMeanwhile, Bool.and_eq_true] at hkept
  have hthread := hkept.1
  split at hthread
  · rename_i nonces report hlive
    obtain rfl := of_decide_eq_true hthread
    exact ⟨σ, hσ, ⟨nonces, hlive⟩, (rotation_complete plainAes_opens (List.nodup_singleton keyHolder)
      registeredBefore_keys hσ hlive).2.1 rfl⟩
  · cases hthread

end Coinpilot.Records
