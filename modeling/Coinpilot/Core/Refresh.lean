import Coinpilot.Core.Cadence
import Mathlib.Data.List.Nodup

/-!
# The life of a refresh token

Issued at sign-in, rotated on every use, revoked at logout. The tokens of one sign-in form a family, and
each is good for one use. The table keeps the hash of each value, once. A function that raises leaves no
change, as its transaction is rolled back.
-/

set_option autoImplicit false

namespace Coinpilot.Core.Refresh

/-- A uuid. -/
abbrev FamilyId : Type := Fin (2 ^ 128)

/-- One refresh token. Only the hash of its value is stored. -/
structure RefreshToken (H : Type) where
  userId : UserId
  familyId : FamilyId
  tokenHash : H
  issuedAt : Moment
  expiresAt : Moment
  usedAt : Option Moment
  revokedAt : Option Moment
  deriving DecidableEq, Repr

inductive RefreshFailure where
  | unknown
  | expired
  | revoked
  | reused
  deriving DecidableEq, Repr

structure IssuedRefresh where
  value : String
  expiresAt : Moment
  userId : UserId
  familyId : FamilyId
  deriving DecidableEq, Repr

/-- What raises: a `datetime` out of range, or a hash that is there already. -/
inductive RefreshExn where
  | calendar (error : CalendarError)
  | integrity
  deriving DecidableEq, Repr

/-- Why a token that was found is refused, or `none`. -/
def RefreshToken.refusal {H : Type} (token : RefreshToken H) (now : Moment) : Option RefreshFailure :=
  if token.revokedAt.isSome then some .revoked
  else if token.usedAt.isSome then some .reused
  else if token.expiresAt.instant ≤ now.instant then some .expired
  else none

/-- Neither used nor revoked. -/
def RefreshToken.Live {H : Type} (token : RefreshToken H) : Prop :=
  token.usedAt = none ∧ token.revokedAt = none

theorem RefreshToken.refusal_none {H : Type} {token : RefreshToken H} {now : Moment} :
    token.refusal now = none ↔ token.Live ∧ now.instant < token.expiresAt.instant := by
  unfold refusal Live
  cases token.revokedAt <;> cases token.usedAt <;> simp

/-! ## The table -/

/-- The table `refresh_tokens`. -/
structure RefreshTable (H : Type) where
  rows : List (RefreshToken H)
  unique : (rows.map RefreshToken.tokenHash).Nodup

section Table

variable {H : Type}

/-- A change of rows that leaves their hashes alone. -/
def RefreshTable.update (table : RefreshTable H) (f : RefreshToken H → RefreshToken H)
    (hf : ∀ token, (f token).tokenHash = token.tokenHash) : RefreshTable H where
  rows := table.rows.map f
  unique := by
    have hsame : RefreshToken.tokenHash ∘ f = RefreshToken.tokenHash := funext hf
    rw [List.map_map, hsame]
    exact table.unique

/-- Revoke every live token of one sign-in. -/
def revokeToken (familyId : FamilyId) (revokedAt : Moment) (token : RefreshToken H) : RefreshToken H :=
  if token.familyId = familyId ∧ token.revokedAt = none then { token with revokedAt := some revokedAt }
  else token

theorem revokeToken_tokenHash (familyId : FamilyId) (revokedAt : Moment) (token : RefreshToken H) :
    (revokeToken familyId revokedAt token).tokenHash = token.tokenHash := by
  rw [revokeToken]
  split
  · rfl
  · rfl

def revokeFamily (table : RefreshTable H) (familyId : FamilyId) (revokedAt : Moment) : RefreshTable H :=
  table.update (revokeToken familyId revokedAt) (revokeToken_tokenHash familyId revokedAt)

/-- Retention, across every user at once. -/
def deleteExpiredRefreshTokens (table : RefreshTable H) (before : Moment) : RefreshTable H where
  rows := table.rows.filter fun token => ¬token.expiresAt.instant < before.instant
  unique := table.unique.sublist (List.filter_sublist.map _)

variable [DecidableEq H]

/-- The row of a hash. -/
def getRefreshToken (table : RefreshTable H) (tokenHash : H) : Option (RefreshToken H) :=
  table.rows.find? fun token => token.tokenHash = tokenHash

def addRefreshToken (table : RefreshTable H) (token : RefreshToken H) :
    Except RefreshExn (RefreshTable H) :=
  if h : token.tokenHash ∈ table.rows.map RefreshToken.tokenHash then .error .integrity
  else .ok ⟨table.rows ++ [token], by
    rw [List.map_append, List.map_singleton, ← List.concat_eq_append]
    exact List.Nodup.concat h table.unique⟩

/-- `token.used_at = used_at`. -/
def useToken (tokenHash : H) (usedAt : Moment) (token : RefreshToken H) : RefreshToken H :=
  if token.tokenHash = tokenHash then { token with usedAt := some usedAt } else token

theorem useToken_tokenHash (tokenHash : H) (usedAt : Moment) (token : RefreshToken H) :
    (useToken tokenHash usedAt token).tokenHash = token.tokenHash := by
  rw [useToken]
  split
  · rfl
  · rfl

def markRefreshTokenUsed (table : RefreshTable H) (tokenHash : H) (usedAt : Moment) : RefreshTable H :=
  table.update (useToken tokenHash usedAt) (useToken_tokenHash tokenHash usedAt)

end Table

/-! ## The rules -/

section Rules

variable {H : Type} [DecidableEq H] (hash : String → H)

/-- `value` is the random value of the new token. -/
def issue (table : RefreshTable H) (userId : UserId) (familyId : FamilyId) (now expiresAt : Moment)
    (value : String) : Except RefreshExn (IssuedRefresh × RefreshTable H) := do
  let table ← addRefreshToken table ⟨userId, familyId, hash value, now, expiresAt, none, none⟩
  return (⟨value, expiresAt, userId, familyId⟩, table)

def startFamily (table : RefreshTable H) (userId : UserId) (now : Moment) (ttl : Int)
    (familyId : FamilyId) (value : String) : Except RefreshExn (IssuedRefresh × RefreshTable H) := do
  let expiresAt ← (now.add ttl).mapError .calendar
  issue hash table userId familyId now expiresAt value

/-- Uses up the token and issues the next one of its family, with the family's expiry. -/
def rotate (table : RefreshTable H) (presented : String) (now : Moment) (value : String) :
    Except RefreshExn (Except RefreshFailure IssuedRefresh × RefreshTable H) :=
  match getRefreshToken table (hash presented) with
  | none => .ok (.error .unknown, table)
  | some token =>
      match token.refusal now with
      | some .reused => .ok (.error .reused, revokeFamily table token.familyId now)
      | some failure => .ok (.error failure, table)
      | none => do
          let used := markRefreshTokenUsed table token.tokenHash now
          -- the expiry is inherited
          let (issued, table) ← issue hash used token.userId token.familyId now token.expiresAt value
          return (.ok issued, table)

/-- Ends the sign-in the token belongs to. False when the token is unknown. -/
def revoke (table : RefreshTable H) (presented : String) (now : Moment) : Bool × RefreshTable H :=
  match getRefreshToken table (hash presented) with
  | none => (false, table)
  | some token => (true, revokeFamily table token.familyId now)

/-- What `POST /auth/refresh` answers. -/
inductive RefreshAnswer where
  | refused (failure : RefreshFailure)
  | disabled
  | tokens (issued : IssuedRefresh)

/-- `POST /auth/refresh` with a token. `active` says whether the account is there and active. -/
def refresh (table : RefreshTable H) (presented : String) (now : Moment) (value : String)
    (active : Bool) : Except RefreshExn (RefreshAnswer × RefreshTable H) := do
  let (outcome, table) ← rotate hash table presented now value
  match outcome with
  | .error failure => return (.refused failure, table)
  | .ok issued =>
      if active then return (.tokens issued, table)
      else return (.disabled, revokeFamily table issued.familyId now)

end Rules

end Coinpilot.Core.Refresh
