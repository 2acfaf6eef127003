import Coinpilot.Core.Refresh
import Coinpilot.Lib.ReadCommitted

/-!
# Refresh tokens, statement by statement

A token is locked before it is looked at, so two requests with the same token take turns. A family is revoked
by one `UPDATE`, which finds its rows when it starts: a token that another request adds meanwhile is none of
them. A sign-in, a refresh, a logout and the sweep are one transaction each.
-/

set_option autoImplicit false

namespace Coinpilot.Core.RefreshTokens

open Coinpilot.Lib Coinpilot.Lib.Program Coinpilot.Lib.ReadCommitted
open Coinpilot.Core.Refresh (FamilyId IssuedRefresh RefreshAnswer RefreshExn RefreshFailure RefreshToken)

/-- The code of a session on the table `refresh_tokens`, in which a hash is there once. -/
abbrev TokenWork (H : Type) : Type → Type := Proc (Stmt H (RefreshToken H)) Reply Unit RefreshExn

section Table

variable {H : Type}

/-- `INSERT`. A hash that is there already is an `IntegrityError`. -/
def addRefreshToken (token : RefreshToken H) : TokenWork H Unit := do
  if ← insertRow token.tokenHash token then return () else throw .integrity

/-- The row, locked until the transaction ends. -/
def getRefreshTokenForUpdate (tokenHash : H) : TokenWork H (Option (RefreshToken H)) := lockRow tokenHash

/-- The flush of a row that is locked. -/
def markRefreshTokenUsed (token : RefreshToken H) (usedAt : Moment) : TokenWork H Unit :=
  writeRow token.tokenHash (some { token with usedAt := some usedAt })

/-- Revokes every live token of one sign-in. Returns how many were still live. -/
def revokeFamily (familyId : FamilyId) (revokedAt : Moment) : TokenWork H Nat :=
  changeWhere (fun token => token.familyId = familyId ∧ token.revokedAt = none)
    fun token => some { token with revokedAt := some revokedAt }

/-- Retention, across every user at once. Returns how many went. -/
def deleteExpiredRefreshTokens (before : Moment) : TokenWork H Nat :=
  changeWhere (fun token => token.expiresAt.instant < before.instant) fun _ => none

end Table

/-! ## The rules -/

section Rules

variable {H : Type} (hash : String → H)

/-- `value` is the random value of the new token. -/
def issue (userId : UserId) (familyId : FamilyId) (now expiresAt : Moment) (value : String) :
    TokenWork H IssuedRefresh := do
  addRefreshToken ⟨userId, familyId, hash value, now, expiresAt, none, none⟩
  return ⟨value, expiresAt, userId, familyId⟩

def startFamily (userId : UserId) (now : Moment) (ttl : Int) (familyId : FamilyId) (value : String) :
    TokenWork H IssuedRefresh := do
  let expiresAt ← fromExcept ((now.add ttl).mapError .calendar)
  issue hash userId familyId now expiresAt value

/-- Uses up the token and issues the next one of its family, with the family's expiry. -/
def rotate (presented : String) (now : Moment) (value : String) :
    TokenWork H (Except RefreshFailure IssuedRefresh) := do
  match ← getRefreshTokenForUpdate (hash presented) with
  | none => return .error .unknown
  | some token =>
      match token.refusal now with
      | some .reused => do
          let _ ← revokeFamily token.familyId now
          return .error .reused
      | some failure => return .error failure
      | none => do
          markRefreshTokenUsed token now
          let issued ← issue hash token.userId token.familyId now token.expiresAt value
          return .ok issued

/-- Ends the sign-in the token belongs to. False when the token is unknown. -/
def revoke (presented : String) (now : Moment) : TokenWork H Bool := do
  match ← getRefreshTokenForUpdate (hash presented) with
  | none => return false
  | some token => do
      let _ ← revokeFamily token.familyId now
      return true

/-- `POST /auth/refresh` with a token. `active` says whether the account is there and active. -/
def refresh (presented : String) (now : Moment) (value : String) (active : Bool) :
    TokenWork H RefreshAnswer := do
  match ← rotate hash presented now value with
  | .error failure => return .refused failure
  | .ok issued =>
      if active then return .tokens issued
      else do
        let _ ← revokeFamily issued.familyId now
        return .disabled

end Rules

/-! ## The calls -/

/-- `signIn` is the end of the callback, where the account is active. -/
inductive SignInCall where
  | signIn (userId : UserId) (now : Moment) (ttl : Int) (familyId : FamilyId) (value : String)
  | refresh (presented : String) (now : Moment) (value : String) (active : Bool)
  | logout (presented : String) (now : Moment)
  | sweep (before : Moment)
  deriving DecidableEq

def SignInCall.isSignIn : SignInCall → Bool
  | .signIn .. => true
  | _ => false

deriving instance DecidableEq for RefreshAnswer

inductive SignInOutcome where
  | signedIn (issued : IssuedRefresh)
  | refreshed (answer : RefreshAnswer)
  | loggedOut (known : Bool)
  | swept (count : Nat)
  deriving DecidableEq

section Calls

variable {H : Type} (hash : String → H)

def tokenWork : SignInCall → TokenWork H SignInOutcome
  | .signIn userId now ttl familyId value => do
      return .signedIn (← transaction (startFamily hash userId now ttl familyId value))
  | .refresh presented now value active => do
      return .refreshed (← transaction (refresh hash presented now value active))
  | .logout presented now => do return .loggedOut (← transaction (revoke hash presented now))
  | .sweep before => do return .swept (← transaction (deleteExpiredRefreshTokens before))

def tokenCode (call : SignInCall) :
    Prog (Stmt H (RefreshToken H)) Reply (Except RefreshExn SignInOutcome × Unit) :=
  (tokenWork hash call).exec ()

end Calls

end Coinpilot.Core.RefreshTokens
