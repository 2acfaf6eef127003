import Coinpilot.Records.Families

/-!
# What one operation does to the refresh tokens

Each operation of a history keeps the rows, perhaps used or revoked, and adds one at most (`shift_after`).
What it uses up, ends and issues is read off its answer. Only a sweep takes rows away.
-/

set_option autoImplicit false

namespace Coinpilot.Core.Refresh

variable {H : Type} [DecidableEq H] {hash : String → H}

/-! ## What is read off the answer -/

/-- `POST /auth/refresh` with what the request presents: its answer, or the exception that the framework
answers with a 500. -/
def refreshAnswer (hash : String → H) (table : RefreshTable H) (presented : String) (now : Moment)
    (value : String) (active : Bool) : Except RefreshExn RefreshAnswer :=
  (refresh hash table presented now value active).map Prod.fst

/-- The presented token is accepted, whatever becomes of the account. -/
def isAccepted : Except RefreshExn RefreshAnswer → Bool
  | .ok (.tokens _) => true
  | .ok .disabled => true
  | _ => false

/-- The value that an operation uses up. -/
def Happening.Spends (hash : String → H) (s : SignIns H) : Happening → String → Prop
  | .refresh presented now value active, v =>
      v = presented ∧ isAccepted (refreshAnswer hash s.table presented now value active) = true
  | _, _ => False

/-- The sign-in that an operation ends. -/
def Happening.Ends (hash : String → H) (s : SignIns H) : Happening → FamilyId → Prop
  | .refresh presented now value active, familyId =>
      familyOf hash s.table presented = some familyId ∧
        (refreshAnswer hash s.table presented now value active = .ok (.refused .reused) ∨
          refreshAnswer hash s.table presented now value active = .ok .disabled)
  | .revoke presented _, familyId => familyOf hash s.table presented = some familyId
  | _, _ => False

/-- The value that an operation issues, with its sign-in. -/
def Happening.Issues (hash : String → H) (s : SignIns H) : Happening → String → FamilyId → Prop
  | .startFamily userId now ttl newFamily value, v, familyId =>
      v = value ∧ familyId = newFamily ∧
        ∃ started, Refresh.startFamily hash s.table userId now ttl newFamily value = .ok started
  | .refresh presented now value active, v, familyId =>
      v = value ∧ familyOf hash s.table presented = some familyId ∧
        isAccepted (refreshAnswer hash s.table presented now value active) = true
  | _, _, _ => False

/-- A row was there, perhaps used or revoked since, or it is new; and none goes but by a sweep. -/
structure Shift (hash : String → H) (s : SignIns H) (e : Happening) (s' : SignIns H) : Prop where
  row : ∀ t' ∈ s'.table.rows,
    (∃ t ∈ s.table.rows, t'.tokenHash = t.tokenHash ∧ t'.familyId = t.familyId ∧
        (t'.usedAt = t.usedAt ∨ ∃ v, e.Spends hash s v ∧ t.tokenHash = hash v) ∧
        (t'.revokedAt = t.revokedAt ∨ e.Ends hash s t.familyId)) ∨
      ∃ v, e.Issues hash s v t'.familyId ∧ t'.tokenHash = hash v ∧ t'.usedAt = none ∧
        (t'.revokedAt = none ∨ e.Ends hash s t'.familyId)
  stays : ∀ t ∈ s.table.rows, t.familyId ∈ s'.swept ∨
    ∃ t' ∈ s'.table.rows, t'.tokenHash = t.tokenHash ∧ t'.familyId = t.familyId
  issues : ∀ v familyId, e.Issues hash s v familyId →
    ∃ t' ∈ s'.table.rows, t'.tokenHash = hash v ∧ t'.familyId = familyId
  swept : ∀ familyId ∈ s.swept, familyId ∈ s'.swept
  issued : ∀ v ∈ s.issued, v ∈ s'.issued
  families : ∀ familyId ∈ s.families.map Prod.fst, familyId ∈ s'.families.map Prod.fst

/-! ## Each operation is a shift of the rows -/

section Rows

omit [DecidableEq H] in
theorem mem_revokeFamily {table : RefreshTable H} {familyId : FamilyId} {now : Moment} {t' : RefreshToken H}
    (ht' : t' ∈ (revokeFamily table familyId now).rows) :
    ∃ t ∈ table.rows, t'.tokenHash = t.tokenHash ∧ t'.familyId = t.familyId ∧ t'.usedAt = t.usedAt ∧
      (t'.revokedAt = t.revokedAt ∨ t.familyId = familyId) := by
  obtain ⟨t, ht, rfl⟩ := List.mem_map.mp ht'
  refine ⟨t, ht, ?_⟩
  rw [revokeToken]
  split
  · rename_i hmine
    exact ⟨rfl, rfl, rfl, .inr hmine.1⟩
  · exact ⟨rfl, rfl, rfl, .inl rfl⟩

omit [DecidableEq H] in
theorem stays_revokeFamily {table : RefreshTable H} (familyId : FamilyId) (now : Moment) {t : RefreshToken H}
    (ht : t ∈ table.rows) :
    ∃ t' ∈ (revokeFamily table familyId now).rows,
      t'.tokenHash = t.tokenHash ∧ t'.familyId = t.familyId := by
  refine ⟨_, List.mem_map_of_mem ht, ?_⟩
  obtain ⟨hhash, hfamily, -, -⟩ := tames_revokeToken familyId now t
  exact ⟨hhash, hfamily⟩

theorem mem_markRefreshTokenUsed {table : RefreshTable H} {tokenHash : H} {now : Moment} {t' : RefreshToken H}
    (ht' : t' ∈ (markRefreshTokenUsed table tokenHash now).rows) :
    ∃ t ∈ table.rows, t'.tokenHash = t.tokenHash ∧ t'.familyId = t.familyId ∧
      t'.revokedAt = t.revokedAt ∧ (t'.usedAt = t.usedAt ∨ t.tokenHash = tokenHash) := by
  obtain ⟨t, ht, rfl⟩ := List.mem_map.mp ht'
  refine ⟨t, ht, ?_⟩
  rw [useToken]
  split
  · rename_i hmine
    exact ⟨rfl, rfl, rfl, .inr hmine⟩
  · exact ⟨rfl, rfl, rfl, .inl rfl⟩

theorem stays_markRefreshTokenUsed {table : RefreshTable H} (tokenHash : H) (now : Moment)
    {t : RefreshToken H} (ht : t ∈ table.rows) :
    ∃ t' ∈ (markRefreshTokenUsed table tokenHash now).rows,
      t'.tokenHash = t.tokenHash ∧ t'.familyId = t.familyId := by
  refine ⟨_, List.mem_map_of_mem ht, ?_⟩
  obtain ⟨hhash, hfamily, -, -⟩ := tames_useToken tokenHash now t
  exact ⟨hhash, hfamily⟩

omit [DecidableEq H] in
theorem RefreshToken.used_of_reused {token : RefreshToken H} {now : Moment}
    (h : token.refusal now = some .reused) : token.usedAt.isSome = true := by
  rw [refusal] at h
  cases hrevoked : token.revokedAt with
  | some moment => simp [hrevoked] at h
  | none =>
    cases hused : token.usedAt with
    | some moment => rfl
    | none => simp [hrevoked, hused] at h

/-- Every answer of `rotate`, with the row that it found. -/
theorem rotate_found {table table' : RefreshTable H} {presented : String} {now : Moment} {value : String}
    {answer : Except RefreshFailure IssuedRefresh}
    (h : rotate hash table presented now value = .ok (answer, table')) :
    (∃ failure, answer = .error failure ∧ failure ≠ .reused ∧ table' = table) ∨
      ∃ token ∈ table.rows, token.tokenHash = hash presented ∧
        ((answer = .error .reused ∧ token.usedAt.isSome = true ∧
            table' = revokeFamily table token.familyId now) ∨
          (token.refusal now = none ∧
            answer = .ok ⟨value, token.expiresAt, token.userId, token.familyId⟩ ∧
            table'.rows = (markRefreshTokenUsed table (hash presented) now).rows ++
              [⟨token.userId, token.familyId, hash value, now, token.expiresAt, none, none⟩])) := by
  rw [rotate] at h
  cases hget : getRefreshToken table (hash presented) with
  | none =>
    simp only [hget, Except.ok.injEq, Prod.mk.injEq] at h
    exact .inl ⟨.unknown, h.1.symm, by decide, h.2.symm⟩
  | some token =>
    obtain ⟨hmem, hhash⟩ := getRefreshToken_some hget
    simp only [hget] at h
    split at h
    · rename_i hreused
      simp only [Except.ok.injEq, Prod.mk.injEq] at h
      exact .inr ⟨token, hmem, hhash, .inl ⟨h.1.symm, RefreshToken.used_of_reused hreused, h.2.symm⟩⟩
    · rename_i failure hother hrefusal
      simp only [Except.ok.injEq, Prod.mk.injEq] at h
      exact .inl ⟨failure, h.1.symm, hother, h.2.symm⟩
    · rename_i hnone
      rw [hhash] at h
      cases hissue : issue hash (markRefreshTokenUsed table (hash presented) now) token.userId
          token.familyId now token.expiresAt value with
      | error e => simp [hissue, bind, Except.bind] at h
      | ok result =>
        obtain ⟨issued, added⟩ := result
        obtain ⟨rfl, hrows⟩ := issue_ok hissue
        simp only [hissue, bind, Except.bind, pure, Except.pure, Except.ok.injEq, Prod.mk.injEq] at h
        exact .inr ⟨token, hmem, hhash, .inr ⟨hnone, h.1.symm, h.2 ▸ hrows⟩⟩

/-- The answer of the route, from that of `rotate`. -/
def answerOf (active : Bool) : Except RefreshFailure IssuedRefresh → RefreshAnswer
  | .error failure => .refused failure
  | .ok issued => if active then .tokens issued else .disabled

theorem refresh_eq (table : RefreshTable H) (presented : String) (now : Moment) (value : String)
    (active : Bool) :
    refresh hash table presented now value active =
      (rotate hash table presented now value).map fun outcome =>
        (answerOf active outcome.1, afterRefresh active now outcome.1 outcome.2) := by
  rw [refresh]
  cases hrotate : rotate hash table presented now value with
  | error e => rfl
  | ok outcome =>
    obtain ⟨answer, table'⟩ := outcome
    cases answer with
    | error failure => rfl
    | ok issued => cases active <;> rfl

theorem refreshAnswer_eq (table : RefreshTable H) (presented : String) (now : Moment) (value : String)
    (active : Bool) :
    refreshAnswer hash table presented now value active =
      (rotate hash table presented now value).map fun outcome => answerOf active outcome.1 := by
  rw [refreshAnswer, refresh_eq]
  cases rotate hash table presented now value <;> rfl

variable {s : SignIns H} {e : Happening}

theorem Shift.unchanged (hissues : ∀ v f, ¬e.Issues hash s v f) : Shift hash s e s where
  row t ht := .inl ⟨t, ht, rfl, rfl, .inl rfl, .inl rfl⟩
  stays t ht := .inr ⟨t, ht, rfl, rfl⟩
  issues v f hv := (hissues v f hv).elim
  swept _ h := h
  issued _ h := h
  families _ h := h

/-- Then the sign-in that the operation ends is revoked. -/
theorem Shift.revoke {s' : SignIns H} (h : Shift hash s e s') {familyId : FamilyId}
    (hends : e.Ends hash s familyId) (now : Moment) :
    Shift hash s e { s' with table := revokeFamily s'.table familyId now } where
  row t' ht' := by
    obtain ⟨u, hu, huhash, hufamily, huused, hurevoked⟩ := mem_revokeFamily ht'
    rcases h.row u hu with ⟨t, ht, hthash, htfamily, hused, hrevoked⟩ | ⟨v, hv, hvhash, hunused, hlive⟩
    · refine .inl ⟨t, ht, huhash.trans hthash, hufamily.trans htfamily, huused ▸ hused, ?_⟩
      rcases hurevoked with hsame | hmine
      · exact hsame ▸ hrevoked
      · exact .inr (htfamily ▸ hmine ▸ hends)
    · rw [hufamily]
      refine .inr ⟨v, hv, huhash.trans hvhash, huused.trans hunused, ?_⟩
      rcases hurevoked with hsame | hmine
      · exact hsame ▸ hlive
      · exact .inr (hmine ▸ hends)
  stays t ht := by
    rcases h.stays t ht with hswept | ⟨u, hu, huhash, hufamily⟩
    · exact .inl hswept
    · obtain ⟨t', ht', hthash, htfamily⟩ := stays_revokeFamily familyId now hu
      exact .inr ⟨t', ht', hthash.trans huhash, htfamily.trans hufamily⟩
  issues v f hv := by
    obtain ⟨u, hu, huhash, hufamily⟩ := h.issues v f hv
    obtain ⟨t', ht', hthash, htfamily⟩ := stays_revokeFamily familyId now hu
    exact ⟨t', ht', hthash.trans huhash, htfamily.trans hufamily⟩
  swept := h.swept
  issued := h.issued
  families := h.families

theorem shift_startFamily (userId : UserId) (now : Moment) (ttl : Int) (familyId : FamilyId)
    (value : String) :
    Shift hash s (.startFamily userId now ttl familyId value)
      (s.after hash (.startFamily userId now ttl familyId value)) := by
  cases hstart : Refresh.startFamily hash s.table userId now ttl familyId value with
  | error e =>
    simp only [SignIns.after, hstart]
    refine Shift.unchanged ?_
    rintro v f ⟨-, -, started, hstarted⟩
    rw [hstart] at hstarted
    cases hstarted
  | ok outcome =>
    obtain ⟨issued, table⟩ := outcome
    obtain ⟨expiresAt, -, rfl, hrows⟩ := startFamily_ok hstart
    simp only [SignIns.after, hstart]
    have hnew : Happening.Issues hash s (.startFamily userId now ttl familyId value) value familyId :=
      ⟨rfl, rfl, _, hstart⟩
    constructor
    · intro t' ht'
      rcases List.mem_append.mp (hrows ▸ ht') with ht' | ht'
      · exact .inl ⟨t', ht', rfl, rfl, .inl rfl, .inl rfl⟩
      · rw [List.mem_singleton.mp ht']
        exact .inr ⟨value, hnew, rfl, rfl, .inl rfl⟩
    · intro t ht
      exact .inr ⟨t, hrows ▸ List.mem_append_left _ ht, rfl, rfl⟩
    · rintro v f ⟨rfl, rfl, -⟩
      exact ⟨_, hrows ▸ List.mem_append_right _ (List.mem_singleton_self _), rfl, rfl⟩
    · exact fun f hf => hf
    · exact fun v hv => List.mem_cons_of_mem _ hv
    · exact fun f hf => List.mem_cons_of_mem _ hf

/-- The token is used up and the next one of its sign-in is there. -/
theorem shift_rotated {presented value : String} {now : Moment} {active : Bool} {token : RefreshToken H}
    {table : RefreshTable H} (hmem : token ∈ s.table.rows) (hhash : token.tokenHash = hash presented)
    (haccepted : isAccepted (refreshAnswer hash s.table presented now value active) = true)
    (hrows : table.rows = (markRefreshTokenUsed s.table (hash presented) now).rows ++
      [⟨token.userId, token.familyId, hash value, now, token.expiresAt, none, none⟩]) :
    Shift hash s (.refresh presented now value active)
      { s with table, issued := value :: s.issued, accepted := presented :: s.accepted } := by
  have hfamily := familyOf_of_mem hmem hhash
  constructor
  · intro t' ht'
    rcases List.mem_append.mp (hrows ▸ ht') with ht' | ht'
    · obtain ⟨t, ht, hthash, htfamily, hrevoked, hused⟩ := mem_markRefreshTokenUsed ht'
      refine .inl ⟨t, ht, hthash, htfamily, ?_, .inl hrevoked⟩
      exact hused.imp_right fun h => ⟨presented, ⟨rfl, haccepted⟩, h⟩
    · rw [List.mem_singleton.mp ht']
      exact .inr ⟨value, ⟨rfl, hfamily, haccepted⟩, rfl, rfl, .inl rfl⟩
  · intro t ht
    obtain ⟨t', ht', hsame⟩ := stays_markRefreshTokenUsed (hash presented) now ht
    exact .inr ⟨t', hrows ▸ List.mem_append_left _ ht', hsame⟩
  · rintro v f ⟨rfl, hf, -⟩
    refine ⟨_, hrows ▸ List.mem_append_right _ (List.mem_singleton_self _), rfl, ?_⟩
    exact Option.some.inj (hfamily.symm.trans hf)
  · exact fun f hf => hf
  · exact fun v hv => List.mem_cons_of_mem _ hv
  · exact fun f hf => hf

theorem shift_refresh (presented : String) (now : Moment) (value : String) (active : Bool) :
    Shift hash s (.refresh presented now value active)
      (s.after hash (.refresh presented now value active)) := by
  have hanswer := @refreshAnswer_eq H _ hash s.table presented now value active
  cases hrotate : rotate hash s.table presented now value with
  | error e =>
    simp only [SignIns.after, hrotate]
    refine Shift.unchanged ?_
    rintro v f ⟨-, -, haccepted⟩
    rw [hanswer, hrotate] at haccepted
    cases haccepted
  | ok outcome =>
    obtain ⟨answer, table⟩ := outcome
    rw [hrotate] at hanswer
    simp only [SignIns.after, hrotate, refresh_eq, Except.map, SignIns.answered]
    have hrefused : ∀ failure, answer = .error failure →
        ∀ v f, ¬Happening.Issues hash s (.refresh presented now value active) v f := by
      rintro failure rfl v f ⟨-, -, haccepted⟩
      rw [hanswer] at haccepted
      cases haccepted
    rcases rotate_found hrotate with ⟨failure, rfl, -, rfl⟩ |
      ⟨token, hmem, hhash, ⟨rfl, -, rfl⟩ | ⟨-, rfl, hrows⟩⟩
    · exact Shift.unchanged (hrefused failure rfl)
    · exact (Shift.unchanged (hrefused .reused rfl)).revoke
        ⟨familyOf_of_mem hmem hhash, .inl hanswer⟩ now
    · cases active with
      | true => exact shift_rotated hmem hhash (by rw [hanswer]; rfl) hrows
      | false =>
        exact (shift_rotated hmem hhash (by rw [hanswer]; rfl) hrows).revoke
          ⟨familyOf_of_mem hmem hhash, .inr hanswer⟩ now

/-- The rows after an operation. -/
theorem shift_after (s : SignIns H) (e : Happening) : Shift hash s e (s.after hash e) := by
  cases e with
  | startFamily userId now ttl familyId value => exact shift_startFamily userId now ttl familyId value
  | refresh presented now value active => exact shift_refresh presented now value active
  | revoke presented now =>
    rw [SignIns.after, Refresh.revoke]
    cases hget : getRefreshToken s.table (hash presented) with
    | none => exact Shift.unchanged fun _ _ h => h
    | some token =>
      obtain ⟨hmem, hhash⟩ := getRefreshToken_some hget
      have hnone : ∀ v f, ¬Happening.Issues hash s (.revoke presented now) v f := fun _ _ h => h
      exact (Shift.unchanged hnone).revoke (familyOf_of_mem hmem hhash) now
  | sweep now =>
    constructor
    · intro t' ht'
      exact .inl ⟨t', (List.mem_filter.mp ht').1, rfl, rfl, .inl rfl, .inl rfl⟩
    · intro t ht
      by_cases hold : t.expiresAt.instant < now.instant
      · refine .inl (List.mem_append_left _ (List.mem_map_of_mem (List.mem_filter.mpr ⟨ht, ?_⟩)))
        exact decide_eq_true hold
      · exact .inr ⟨t, List.mem_filter.mpr ⟨ht, by simpa using hold⟩, rfl, rfl⟩
    · exact fun v f h => h.elim
    · exact fun f hf => List.mem_append_right _ hf
    · exact fun v hv => hv
    · exact fun f hf => hf

end Rows
end Coinpilot.Core.Refresh
