import Coinpilot.Core.Refresh
import Coinpilot.Lib.Dict
import Mathlib.Logic.Relation

/-!
# One usable refresh token for each sign-in

Sign-ins, refreshes, logouts and the retention sweep, one after another at any times. The live tokens of a
family are one at most, every row carries the expiry of its sign-in, and a value that was accepted once
belongs to a row that is used or gone (`Chained`). Every operation keeps that (`chained_after`), so it
holds after every history (`one_usable_token`).
-/

set_option autoImplicit false

namespace Coinpilot.Core.Refresh

variable {H : Type} {hash : String → H}

/-! ## Histories -/

/-- The table, and what has happened: the values that were issued, the sign-ins with their expiries, the
values that were accepted, and the families of which the sweep has deleted a row. -/
structure SignIns (H : Type) where
  table : RefreshTable H
  issued : List String
  families : List (FamilyId × Moment)
  accepted : List String
  swept : List FamilyId

def SignIns.empty : SignIns H := ⟨⟨[], List.nodup_nil⟩, [], [], [], []⟩

inductive Happening where
  | startFamily (userId : UserId) (now : Moment) (ttl : Int) (familyId : FamilyId) (value : String)
  | refresh (presented : String) (now : Moment) (value : String) (active : Bool)
  | revoke (presented : String) (now : Moment)
  | sweep (now : Moment)

/-- The random values that are drawn are new. -/
def Fresh (s : SignIns H) : Happening → Prop
  | .startFamily _ _ _ familyId value => familyId ∉ s.families.map Prod.fst ∧ value ∉ s.issued
  | .refresh _ _ value _ => value ∉ s.issued
  | .revoke _ _ => True
  | .sweep _ => True

/-! ## The invariant -/

/-- Each family is a chain of used tokens with one live one at its end, at most. -/
structure Chained (hash : String → H) (s : SignIns H) : Prop where
  one_live : ∀ t ∈ s.table.rows, ∀ u ∈ s.table.rows, t.familyId = u.familyId → t.Live → u.Live → t = u
  stored : ∀ t ∈ s.table.rows, ∃ value ∈ s.issued, t.tokenHash = hash value
  expiry : ∀ t ∈ s.table.rows, (t.familyId, t.expiresAt) ∈ s.families
  families : (s.families.map Prod.fst).Nodup
  accepted_issued : ∀ value ∈ s.accepted, value ∈ s.issued
  accepted_used : ∀ value ∈ s.accepted, ∀ t ∈ s.table.rows, t.tokenHash = hash value → ¬t.Live
  accepted_once : s.accepted.Nodup
  swept : ∀ t ∈ s.table.rows, t.familyId ∉ s.swept
  swept_known : ∀ familyId ∈ s.swept, familyId ∈ s.families.map Prod.fst

theorem chained_empty : Chained hash (.empty : SignIns H) where
  one_live := by simp [SignIns.empty]
  stored := by simp [SignIns.empty]
  expiry := by simp [SignIns.empty]
  families := by simp [SignIns.empty]
  accepted_issued := by simp [SignIns.empty]
  accepted_used := by simp [SignIns.empty]
  accepted_once := by simp [SignIns.empty]
  swept := by simp [SignIns.empty]
  swept_known := by simp [SignIns.empty]

/-- A change of rows that revives none. -/
def Tames (f : RefreshToken H → RefreshToken H) : Prop :=
  ∀ t, (f t).tokenHash = t.tokenHash ∧ (f t).familyId = t.familyId ∧ (f t).expiresAt = t.expiresAt ∧
    ((f t).Live → f t = t)

theorem tames_revokeToken (familyId : FamilyId) (now : Moment) :
    Tames (H := H) (revokeToken familyId now) := by
  intro t
  rw [revokeToken]
  split
  · exact ⟨rfl, rfl, rfl, fun hlive => by cases hlive.2⟩
  · exact ⟨rfl, rfl, rfl, fun _ => rfl⟩

/-- Rows that are changed so, or deleted, keep the chains. -/
theorem Chained.of_tamed {s : SignIns H} {table : RefreshTable H} {f : RefreshToken H → RefreshToken H}
    (h : Chained hash s) (hf : Tames f) (hrows : ∀ t ∈ table.rows, ∃ u ∈ s.table.rows, t = f u) :
    Chained hash { s with table } where
  one_live := by
    intro t ht u hu hfamily htl hul
    obtain ⟨t', ht', rfl⟩ := hrows t ht
    obtain ⟨u', hu', rfl⟩ := hrows u hu
    rw [(hf t').2.2.2 htl, (hf u').2.2.2 hul] at *
    exact h.one_live t' ht' u' hu' hfamily htl hul
  stored := by
    intro t ht
    obtain ⟨u, hu, rfl⟩ := hrows t ht
    rw [(hf u).1]
    exact h.stored u hu
  expiry := by
    intro t ht
    obtain ⟨u, hu, rfl⟩ := hrows t ht
    rw [(hf u).2.1, (hf u).2.2.1]
    exact h.expiry u hu
  families := h.families
  accepted_issued := h.accepted_issued
  accepted_used := by
    intro value hvalue t ht hhash hlive
    obtain ⟨u, hu, rfl⟩ := hrows t ht
    rw [(hf u).2.2.2 hlive] at hhash hlive
    exact h.accepted_used value hvalue u hu hhash hlive
  accepted_once := h.accepted_once
  swept := by
    intro t ht
    obtain ⟨u, hu, rfl⟩ := hrows t ht
    rw [(hf u).2.1]
    exact h.swept u hu
  swept_known := h.swept_known

theorem Chained.revokeFamily {s : SignIns H} (h : Chained hash s) (familyId : FamilyId) (now : Moment) :
    Chained hash { s with table := Refresh.revokeFamily s.table familyId now } := by
  refine h.of_tamed (tames_revokeToken familyId now) fun t ht => ?_
  obtain ⟨u, hu, rfl⟩ := List.mem_map.mp ht
  exact ⟨u, hu, rfl⟩

/-- A new token of a family without a live one, under a new value. -/
theorem Chained.issue {s : SignIns H} {table : RefreshTable H} {token : RefreshToken H} {value : String}
    (hinjective : Function.Injective hash) (h : Chained hash s) (hvalue : value ∉ s.issued)
    (hrows : table.rows = s.table.rows ++ [token]) (hhash : token.tokenHash = hash value)
    (hlive : ∀ t ∈ s.table.rows, t.familyId = token.familyId → ¬t.Live)
    (hexpiry : (token.familyId, token.expiresAt) ∈ s.families) (hswept : token.familyId ∉ s.swept) :
    Chained hash { s with table, issued := value :: s.issued } := by
  have hmem : ∀ t ∈ table.rows, t ∈ s.table.rows ∨ t = token := by
    intro t ht
    simpa [hrows] using ht
  constructor
  · intro t ht u hu hfamily htl hul
    rcases hmem t ht with ht | rfl
    · rcases hmem u hu with hu | rfl
      · exact h.one_live t ht u hu hfamily htl hul
      · exact absurd htl (hlive t ht hfamily)
    · rcases hmem u hu with hu | rfl
      · exact absurd hul (hlive u hu hfamily.symm)
      · rfl
  · intro t ht
    rcases hmem t ht with ht | rfl
    · obtain ⟨v, hv, hvt⟩ := h.stored t ht
      exact ⟨v, List.mem_cons_of_mem _ hv, hvt⟩
    · exact ⟨value, List.mem_cons_self, hhash⟩
  · intro t ht
    rcases hmem t ht with ht | rfl
    · exact h.expiry t ht
    · exact hexpiry
  · exact h.families
  · exact fun v hv => List.mem_cons_of_mem _ (h.accepted_issued v hv)
  · intro v hv t ht hvt
    rcases hmem t ht with ht | rfl
    · exact h.accepted_used v hv t ht hvt
    · -- the value of the new token is new, and the hash tells values apart
      have heq : value = v := hinjective (hhash.symm.trans hvt)
      exact absurd (h.accepted_issued v hv) (heq ▸ hvalue)
  · exact h.accepted_once
  · intro t ht
    rcases hmem t ht with ht | rfl
    · exact h.swept t ht
    · exact hswept
  · exact h.swept_known

/-- A family that is new has no rows. -/
theorem Chained.signIn {s : SignIns H} (h : Chained hash s) {familyId : FamilyId} (expiresAt : Moment)
    (hnew : familyId ∉ s.families.map Prod.fst) :
    Chained hash { s with families := (familyId, expiresAt) :: s.families } where
  one_live := h.one_live
  stored := h.stored
  expiry t ht := List.mem_cons_of_mem _ (h.expiry t ht)
  families := List.nodup_cons.mpr ⟨hnew, h.families⟩
  accepted_issued := h.accepted_issued
  accepted_used := h.accepted_used
  accepted_once := h.accepted_once
  swept := h.swept
  swept_known f hf := List.mem_cons_of_mem _ (h.swept_known f hf)

/-- A value of which no live token is left has been accepted. -/
theorem Chained.accept {s : SignIns H} (h : Chained hash s) {presented : String}
    (hissued : presented ∈ s.issued)
    (hused : ∀ t ∈ s.table.rows, t.tokenHash = hash presented → ¬t.Live)
    (hnew : presented ∉ s.accepted) : Chained hash { s with accepted := presented :: s.accepted } where
  one_live := h.one_live
  stored := h.stored
  expiry := h.expiry
  families := h.families
  accepted_issued := by
    intro value hvalue
    rcases List.mem_cons.mp hvalue with rfl | hvalue
    · exact hissued
    · exact h.accepted_issued value hvalue
  accepted_used := by
    intro value hvalue
    rcases List.mem_cons.mp hvalue with rfl | hvalue
    · exact hused
    · exact h.accepted_used value hvalue
  accepted_once := List.nodup_cons.mpr ⟨hnew, h.accepted_once⟩
  swept := h.swept
  swept_known := h.swept_known

/-- The rows of a family expire together. -/
theorem Chained.same_expiry {s : SignIns H} (h : Chained hash s) {t u : RefreshToken H}
    (ht : t ∈ s.table.rows) (hu : u ∈ s.table.rows) (hfamily : t.familyId = u.familyId) :
    t.expiresAt = u.expiresAt := by
  have hpair := List.inj_on_of_nodup_map h.families (h.expiry t ht) (h.expiry u hu) hfamily
  exact (Prod.mk.inj hpair).2

/-- The sweep deletes every row of a family that it deletes one of. -/
theorem Chained.sweep {s : SignIns H} (h : Chained hash s) (now : Moment) :
    Chained hash { s with
      table := deleteExpiredRefreshTokens s.table now
      swept := (s.table.rows.filter fun token => token.expiresAt.instant < now.instant).map
        RefreshToken.familyId ++ s.swept } := by
  have hkept : ∀ t ∈ (deleteExpiredRefreshTokens s.table now).rows,
      t ∈ s.table.rows ∧ ¬t.expiresAt.instant < now.instant := by
    intro t ht
    simpa [deleteExpiredRefreshTokens] using ht
  have htamed : Chained hash { s with table := deleteExpiredRefreshTokens s.table now } :=
    h.of_tamed (f := id) (fun t => ⟨rfl, rfl, rfl, fun _ => rfl⟩) fun t ht => ⟨t, (hkept t ht).1, rfl⟩
  constructor
  · exact htamed.one_live
  · exact htamed.stored
  · exact htamed.expiry
  · exact htamed.families
  · exact htamed.accepted_issued
  · exact htamed.accepted_used
  · exact htamed.accepted_once
  · intro t ht hswept
    obtain ⟨hmem, hlate⟩ := hkept t ht
    rcases List.mem_append.mp hswept with hgone | hgone
    · obtain ⟨u, hu, hfamily⟩ := List.mem_map.mp hgone
      obtain ⟨hu, hearly⟩ := List.mem_filter.mp hu
      rw [h.same_expiry hmem hu hfamily.symm] at hlate
      exact hlate (of_decide_eq_true hearly)
    · exact h.swept t hmem hgone
  · intro f hf
    rcases List.mem_append.mp hf with hf | hf
    · obtain ⟨u, hu, rfl⟩ := List.mem_map.mp hf
      exact List.mem_map.mpr ⟨_, h.expiry u (List.mem_filter.mp hu).1, rfl⟩
    · exact h.swept_known f hf

/-! ## The operations -/

variable [DecidableEq H]

/-- What the history remembers of an answer. -/
def SignIns.answered (s : SignIns H) (presented : String) (answer : Except RefreshFailure IssuedRefresh)
    (table : RefreshTable H) : SignIns H :=
  match answer with
  | .error _ => { s with table }
  | .ok issued => { s with table, issued := issued.value :: s.issued, accepted := presented :: s.accepted }

/-- One operation. One that raises changes nothing. -/
def SignIns.after (hash : String → H) (s : SignIns H) : Happening → SignIns H
  | .startFamily userId now ttl familyId value =>
      match startFamily hash s.table userId now ttl familyId value with
      | .error _ => s
      | .ok (issued, table) =>
          { s with table, issued := issued.value :: s.issued
                   families := (issued.familyId, issued.expiresAt) :: s.families }
  | .refresh presented now value active =>
      match rotate hash s.table presented now value, refresh hash s.table presented now value active with
      | .ok (answer, _), .ok (_, table) => s.answered presented answer table
      | _, _ => s
  | .revoke presented now => { s with table := (revoke hash s.table presented now).2 }
  | .sweep now =>
      { s with table := deleteExpiredRefreshTokens s.table now
               swept := (s.table.rows.filter fun token => token.expiresAt.instant < now.instant).map
                  RefreshToken.familyId ++ s.swept }

/-- One operation of a history. -/
def Happens (hash : String → H) (s s' : SignIns H) : Prop := ∃ e, Fresh s e ∧ s' = s.after hash e

/-- Every history. -/
abbrev History (hash : String → H) : SignIns H → SignIns H → Prop := Relation.ReflTransGen (Happens hash)

/-! ## What `rotate` accepts -/

/-- Presented now, the value is accepted. -/
def Accepts (hash : String → H) (table : RefreshTable H) (presented : String) (now : Moment) : Prop :=
  ∃ value issued table', rotate hash table presented now value = .ok (.ok issued, table')

theorem getRefreshToken_some {table : RefreshTable H} {h : H} {token : RefreshToken H}
    (hget : getRefreshToken table h = some token) : token ∈ table.rows ∧ token.tokenHash = h :=
  ⟨List.mem_of_find?_eq_some hget, by simpa using List.find?_some hget⟩

theorem addRefreshToken_ok {table table' : RefreshTable H} {token : RefreshToken H}
    (h : addRefreshToken table token = .ok table') : table'.rows = table.rows ++ [token] := by
  rw [addRefreshToken] at h
  split at h
  · cases h
  · cases h
    rfl

theorem issue_ok {table table' : RefreshTable H} {userId : UserId} {familyId : FamilyId}
    {now expiresAt : Moment} {value : String} {issued : IssuedRefresh}
    (h : issue hash table userId familyId now expiresAt value = .ok (issued, table')) :
    issued = ⟨value, expiresAt, userId, familyId⟩ ∧
      table'.rows = table.rows ++ [⟨userId, familyId, hash value, now, expiresAt, none, none⟩] := by
  rw [issue] at h
  cases hadd : addRefreshToken table ⟨userId, familyId, hash value, now, expiresAt, none, none⟩ with
  | error e => simp [hadd, bind, Except.bind] at h
  | ok added =>
    simp only [hadd, bind, Except.bind, pure, Except.pure, Except.ok.injEq, Prod.mk.injEq] at h
    exact ⟨h.1.symm, h.2 ▸ addRefreshToken_ok hadd⟩

/-- Every answer of `rotate` that does not raise. -/
theorem rotate_cases {table table' : RefreshTable H} {presented : String} {now : Moment} {value : String}
    {answer : Except RefreshFailure IssuedRefresh}
    (h : rotate hash table presented now value = .ok (answer, table')) :
    (∃ failure, answer = .error failure ∧ table' = table) ∨
      (∃ token : RefreshToken H, answer = .error .reused ∧ table' = revokeFamily table token.familyId now) ∨
      ∃ token ∈ table.rows, token.tokenHash = hash presented ∧ token.refusal now = none ∧
        answer = .ok ⟨value, token.expiresAt, token.userId, token.familyId⟩ ∧
        table'.rows = (markRefreshTokenUsed table (hash presented) now).rows ++
          [⟨token.userId, token.familyId, hash value, now, token.expiresAt, none, none⟩] := by
  rw [rotate] at h
  cases hget : getRefreshToken table (hash presented) with
  | none =>
    simp only [hget, Except.ok.injEq, Prod.mk.injEq] at h
    exact .inl ⟨_, h.1.symm, h.2.symm⟩
  | some token =>
    obtain ⟨hmem, hhash⟩ := getRefreshToken_some hget
    simp only [hget] at h
    split at h
    · simp only [Except.ok.injEq, Prod.mk.injEq] at h
      exact .inr (.inl ⟨token, h.1.symm, h.2.symm⟩)
    · simp only [Except.ok.injEq, Prod.mk.injEq] at h
      exact .inl ⟨_, h.1.symm, h.2.symm⟩
    · rename_i hnone
      rw [hhash] at h
      cases hissue : issue hash (markRefreshTokenUsed table (hash presented) now) token.userId
          token.familyId now token.expiresAt value with
      | error e => simp [hissue, bind, Except.bind] at h
      | ok result =>
        obtain ⟨issued, added⟩ := result
        obtain ⟨rfl, hrows⟩ := issue_ok hissue
        simp only [hissue, bind, Except.bind, pure, Except.pure, Except.ok.injEq, Prod.mk.injEq] at h
        exact .inr (.inr ⟨token, hmem, hhash, hnone, h.1.symm, h.2 ▸ hrows⟩)

/-- Only a live token whose sign-in has not expired is accepted. -/
theorem accepts_live {table : RefreshTable H} {presented : String} {now : Moment}
    (h : Accepts hash table presented now) :
    ∃ token ∈ table.rows, token.tokenHash = hash presented ∧ token.Live ∧
      now.instant < token.expiresAt.instant := by
  obtain ⟨value, issued, table', h⟩ := h
  rcases rotate_cases h with ⟨failure, ha, -⟩ | ⟨token, ha, -⟩ | ⟨token, hmem, hhash, hnone, -, -⟩
  · cases ha
  · cases ha
  · obtain ⟨hlive, hexpiry⟩ := RefreshToken.refusal_none.mp hnone
    exact ⟨token, hmem, hhash, hlive, hexpiry⟩

theorem tames_useToken (tokenHash : H) (now : Moment) : Tames (useToken tokenHash now) := by
  intro t
  rw [useToken]
  split
  · exact ⟨rfl, rfl, rfl, fun hlive => by cases hlive.1⟩
  · exact ⟨rfl, rfl, rfl, fun _ => rfl⟩

/-! ## Every operation keeps the chains -/

section Steps

variable {s : SignIns H}

/-- The token that was presented is used, the next one is the only live one of the family. -/
theorem Chained.rotated (hinjective : Function.Injective hash) (h : Chained hash s) {presented value : String}
    {now : Moment} {token : RefreshToken H} {table : RefreshTable H} (hvalue : value ∉ s.issued)
    (hmem : token ∈ s.table.rows) (hhash : token.tokenHash = hash presented) (hlive : token.Live)
    (hrows : table.rows = (markRefreshTokenUsed s.table (hash presented) now).rows ++
      [⟨token.userId, token.familyId, hash value, now, token.expiresAt, none, none⟩]) :
    Chained hash { s with table, issued := value :: s.issued, accepted := presented :: s.accepted } := by
  have hold : ∀ t ∈ (markRefreshTokenUsed s.table (hash presented) now).rows,
      ∃ u ∈ s.table.rows, t = useToken (hash presented) now u := by
    intro t ht
    obtain ⟨u, hu, rfl⟩ := List.mem_map.mp ht
    exact ⟨u, hu, rfl⟩
  have hspent : ∀ t ∈ (markRefreshTokenUsed s.table (hash presented) now).rows,
      t.tokenHash = hash presented → ¬t.Live := by
    rintro t ht hthash ⟨hunused, -⟩
    obtain ⟨u, -, rfl⟩ := hold t ht
    rw [useToken_tokenHash] at hthash
    rw [useToken, if_pos hthash] at hunused
    cases hunused
  have hused : Chained hash { s with table := markRefreshTokenUsed s.table (hash presented) now } :=
    h.of_tamed (tames_useToken (hash presented) now) hold
  have hnone : ∀ t ∈ (markRefreshTokenUsed s.table (hash presented) now).rows,
      t.familyId = token.familyId → ¬t.Live := by
    intro t ht hfamily htl
    obtain ⟨u, hu, rfl⟩ := hold t ht
    have hsame := (tames_useToken (hash presented) now u).2.2.2 htl
    rw [hsame] at ht hfamily htl
    rw [h.one_live u hu token hmem hfamily htl hlive] at ht htl
    exact hspent token ht hhash htl
  have hpresented : presented ∈ s.issued := by
    obtain ⟨v, hv, hvt⟩ := h.stored token hmem
    exact hinjective (hhash.symm.trans hvt) ▸ hv
  have hissued := hused.issue hinjective hvalue hrows rfl hnone (h.expiry token hmem) (h.swept token hmem)
  refine hissued.accept (List.mem_cons_of_mem _ hpresented) ?_ fun haccepted =>
    h.accepted_used presented haccepted token hmem hhash hlive
  intro t ht hthash
  rcases List.mem_append.mp (hrows ▸ ht) with ht | ht
  · exact hspent t ht hthash
  · rw [List.mem_singleton.mp ht] at hthash
    exact absurd hpresented (hinjective hthash ▸ hvalue)

/-- The table that a refresh leaves: the family of a disabled account is revoked. -/
def afterRefresh (active : Bool) (now : Moment) (answer : Except RefreshFailure IssuedRefresh)
    (table : RefreshTable H) : RefreshTable H :=
  match answer with
  | .error _ => table
  | .ok issued => if active then table else Refresh.revokeFamily table issued.familyId now

theorem refresh_of_rotate {table table' : RefreshTable H} {presented value : String} {now : Moment}
    {answer : Except RefreshFailure IssuedRefresh} (active : Bool)
    (h : rotate hash table presented now value = .ok (answer, table')) :
    ∃ result, refresh hash table presented now value active =
      .ok (result, afterRefresh active now answer table') := by
  simp only [refresh, h, bind, Except.bind]
  cases answer with
  | error failure => exact ⟨_, rfl⟩
  | ok issued => cases active <;> exact ⟨_, rfl⟩

theorem startFamily_ok {table table' : RefreshTable H} {userId : UserId} {now : Moment} {ttl : Int}
    {familyId : FamilyId} {value : String} {issued : IssuedRefresh}
    (h : startFamily hash table userId now ttl familyId value = .ok (issued, table')) :
    ∃ expiresAt, now.add ttl = .ok expiresAt ∧ issued = ⟨value, expiresAt, userId, familyId⟩ ∧
      table'.rows = table.rows ++ [⟨userId, familyId, hash value, now, expiresAt, none, none⟩] := by
  rw [startFamily] at h
  cases hadd : now.add ttl with
  | error e => simp [hadd, Except.mapError, bind, Except.bind] at h
  | ok expiresAt =>
    simp only [hadd, Except.mapError, bind, Except.bind] at h
    obtain ⟨rfl, hrows⟩ := issue_ok h
    exact ⟨expiresAt, rfl, rfl, hrows⟩

theorem chained_after_refresh (hinjective : Function.Injective hash) (h : Chained hash s) (presented : String)
    (now : Moment) {value : String} (active : Bool) (hvalue : value ∉ s.issued) :
    Chained hash (s.after hash (.refresh presented now value active)) := by
  cases hrotate : rotate hash s.table presented now value with
  | error e => simpa [SignIns.after, hrotate] using h
  | ok outcome =>
    obtain ⟨answer, table⟩ := outcome
    obtain ⟨result, hrefresh⟩ := refresh_of_rotate active hrotate
    simp only [SignIns.after, hrotate, hrefresh, SignIns.answered]
    rcases rotate_cases hrotate with ⟨failure, rfl, rfl⟩ | ⟨token, rfl, rfl⟩ |
      ⟨token, hmem, hhash, hnone, rfl, hrows⟩
    · exact h
    · exact h.revokeFamily token.familyId now
    · obtain ⟨hlive, -⟩ := RefreshToken.refusal_none.mp hnone
      have hnext := h.rotated hinjective hvalue hmem hhash hlive hrows
      cases active with
      | true => exact hnext
      | false => exact hnext.revokeFamily token.familyId now

theorem chained_after (hinjective : Function.Injective hash) (h : Chained hash s) {e : Happening}
    (hfresh : Fresh s e) : Chained hash (s.after hash e) := by
  cases e with
  | startFamily userId now ttl familyId value =>
    obtain ⟨hfamily, hvalue⟩ := hfresh
    cases hstart : startFamily hash s.table userId now ttl familyId value with
    | error e => simpa [SignIns.after, hstart] using h
    | ok outcome =>
      obtain ⟨issued, table⟩ := outcome
      obtain ⟨expiresAt, -, rfl, hrows⟩ := startFamily_ok hstart
      simp only [SignIns.after, hstart]
      refine (h.signIn expiresAt hfamily).issue hinjective hvalue hrows rfl ?_ List.mem_cons_self ?_
      · intro t ht hsame
        exact absurd (List.mem_map.mpr ⟨_, h.expiry t ht, hsame⟩) hfamily
      · exact fun hswept => hfamily (h.swept_known familyId hswept)
  | refresh presented now value active => exact chained_after_refresh hinjective h presented now active hfresh
  | revoke presented now =>
    rw [SignIns.after, revoke]
    split
    · exact h
    · exact h.revokeFamily _ now
  | sweep now => exact h.sweep now

end Steps

/-! ## Every history -/

/-- The family of a presented value. -/
def familyOf (hash : String → H) (table : RefreshTable H) (presented : String) : Option FamilyId :=
  (getRefreshToken table (hash presented)).map RefreshToken.familyId

/-- At most one value of a family is accepted, each once, before the expiry of the sign-in, and none of a
family that the sweep has deleted from. -/
structure OneUsable (hash : String → H) (s : SignIns H) : Prop where
  one : ∀ v w now now', Accepts hash s.table v now → Accepts hash s.table w now' →
    familyOf hash s.table v = familyOf hash s.table w → v = w
  once : s.accepted.Nodup
  expiry : ∀ t ∈ s.table.rows, ∀ expiry, (t.familyId, expiry) ∈ s.families ↔ t.expiresAt = expiry
  not_expired : ∀ v now, Accepts hash s.table v now → ∃ familyId expiry,
    familyOf hash s.table v = some familyId ∧ (familyId, expiry) ∈ s.families ∧
      now.instant < expiry.instant
  not_swept : ∀ v now familyId, Accepts hash s.table v now → familyOf hash s.table v = some familyId →
    familyId ∉ s.swept

/-- A row is found by the hash of its value. -/
theorem getRefreshToken_of_mem {table : RefreshTable H} {t : RefreshToken H} (ht : t ∈ table.rows) :
    getRefreshToken table t.tokenHash = some t := by
  refine Coinpilot.Lib.find?_eq_some_of_unique ht (by simp) fun u hu hhash => ?_
  exact List.inj_on_of_nodup_map table.unique hu ht (by simpa using hhash)

theorem familyOf_of_mem {table : RefreshTable H} {presented : String} {t : RefreshToken H}
    (ht : t ∈ table.rows) (hhash : t.tokenHash = hash presented) :
    familyOf hash table presented = some t.familyId := by
  rw [familyOf, ← hhash, getRefreshToken_of_mem ht]
  rfl

/-- After every history of sign-ins, refreshes, logouts and sweeps, with new random values and a hash that
tells values apart, each sign-in has one usable token at most. -/
theorem one_usable_token (hinjective : Function.Injective hash) {s : SignIns H}
    (h : History hash .empty s) : OneUsable hash s := by
  have hchained : Chained hash s := by
    induction h with
    | refl => exact chained_empty
    | tail _ hs ih =>
      obtain ⟨e, hfresh, rfl⟩ := hs
      exact chained_after hinjective ih hfresh
  constructor
  · intro v w now now' hv hw hfamily
    obtain ⟨t, ht, hthash, htl, -⟩ := accepts_live hv
    obtain ⟨u, hu, huhash, hul, -⟩ := accepts_live hw
    rw [familyOf_of_mem ht hthash, familyOf_of_mem hu huhash] at hfamily
    have heq := hchained.one_live t ht u hu (Option.some.inj hfamily) htl hul
    rw [heq] at hthash
    exact hinjective (hthash.symm.trans huhash)
  · exact hchained.accepted_once
  · intro t ht expiry
    constructor
    · intro hmem
      exact (Prod.mk.inj (List.inj_on_of_nodup_map hchained.families (hchained.expiry t ht) hmem rfl)).2
    · rintro rfl
      exact hchained.expiry t ht
  · intro v now hv
    obtain ⟨t, ht, hthash, -, hexpiry⟩ := accepts_live hv
    exact ⟨t.familyId, t.expiresAt, familyOf_of_mem ht hthash, hchained.expiry t ht, hexpiry⟩
  · intro v now familyId hv hfamily
    obtain ⟨t, ht, hthash, -, -⟩ := accepts_live hv
    rw [familyOf_of_mem ht hthash] at hfamily
    exact Option.some.inj hfamily ▸ hchained.swept t ht

/-! ## A token that comes back -/

def someone : UserId := ⟨List.replicate 16 0x2A, List.length_replicate⟩

def atLogin : Moment := ⟨1760000000000000, by decide⟩

def onPhone : FamilyId := ⟨0x517, by decide⟩

/-- A sign-in for an hour, a refresh, and the first token presented again. -/
def replayed : List Happening :=
  [.startFamily someone atLogin 3600000000 onPhone "first", .refresh "first" atLogin "second" true,
    .refresh "first" atLogin "third" true]

instance (s : SignIns H) (e : Happening) : Decidable (Fresh s e) := by
  unfold Fresh
  split <;> infer_instance

/-- Events that are each fresh when they happen are a history. -/
theorem history_of_fresh (s : SignIns H) (events : List Happening)
    (h : ∀ n (hn : n < events.length), Fresh ((events.take n).foldl (SignIns.after hash) s) events[n]) :
    History hash s (events.foldl (SignIns.after hash) s) := by
  induction events generalizing s with
  | nil => exact .refl
  | cons e events ih =>
    have hfirst : Happens hash s (s.after hash e) := ⟨e, h 0 (by simp), rfl⟩
    refine .head hfirst (ih _ fun n hn => ?_)
    exact h (n + 1) (by simpa using hn)

theorem one_usable_token_replayed :
    ∃ s, History id .empty s ∧ s.issued = ["second", "first"] ∧ s.accepted = ["first"] ∧
      OneUsable (H := String) id s := by
  have hfresh : ∀ n (hn : n < replayed.length),
      Fresh ((replayed.take n).foldl (SignIns.after id) (.empty : SignIns String)) replayed[n] := by
    decide +kernel
  have hhistory := history_of_fresh .empty replayed hfresh
  exact ⟨_, hhistory, by decide +kernel, by decide +kernel,
    one_usable_token Function.injective_id hhistory⟩

end Coinpilot.Core.Refresh
