import Coinpilot.Core.Crypto
import Coinpilot.Exchange.Keys
import Coinpilot.Lib.ReadCommitted
import Mathlib.Data.List.Sort

/-!
# The stored keys, statement by statement

`register` validates a key and saves it over the record that its session has loaded, `remove` deletes the
record, and `rotate` seals every record again under the active master key, one transaction each. A session
writes only the columns that it changed from what it loaded (`changeColumns`), so what another transaction
commits between the load and the `UPDATE` is overwritten column by column.
-/

set_option autoImplicit false

namespace Coinpilot.Core.Rotation

open Coinpilot.Lib Coinpilot.Lib.Program Coinpilot.Lib.ReadCommitted Coinpilot.Exchange

/-- One row of `user_credentials`. -/
structure UserCredentials where
  ciphertext : List UInt8
  nonce : List UInt8
  keyVersion : Int
  validatedAt : Int
  deriving DecidableEq, Repr

/-- `Sealed(record.ciphertext, record.nonce, record.key_version)`. -/
def UserCredentials.sealed (record : UserCredentials) : Sealed :=
  ⟨record.ciphertext, record.nonce, record.keyVersion⟩

/-- The record with what was sealed in place of what it had. -/
def UserCredentials.withSealed (record : UserCredentials) (new : Sealed) : UserCredentials where
  ciphertext := new.ciphertext
  nonce := new.nonce
  keyVersion := new.keyVersion
  validatedAt := record.validatedAt

/-- What the calls raise. -/
inductive CredentialExn where
  | database
  | python (e : PyError)
  | http (status : Nat) (detail : String)
  | rejected (status : Nat) (result : KeyValidation)
  deriving DecidableEq, Repr

abbrev CredentialWork : Type → Type := Proc (Stmt UserId UserCredentials) Reply Unit CredentialExn

/-! ## The table -/

/-- `row`, with the columns that differ between `loaded` and `new` as `new` has them. -/
def changeColumns (loaded new row : UserCredentials) : UserCredentials where
  ciphertext := if new.ciphertext = loaded.ciphertext then row.ciphertext else new.ciphertext
  nonce := if new.nonce = loaded.nonce then row.nonce else new.nonce
  keyVersion := if new.keyVersion = loaded.keyVersion then row.keyVersion else new.keyVersion
  validatedAt := if new.validatedAt = loaded.validatedAt then row.validatedAt else new.validatedAt

@[simp] theorem changeColumns_same (loaded new : UserCredentials) : changeColumns loaded new loaded = new := by
  cases new
  simp only [changeColumns, UserCredentials.mk.injEq]
  refine ⟨?_, ?_, ?_, ?_⟩ <;> split <;> simp_all

/-- `session.flush()`: the `UPDATE` of the columns that were changed, if any was. -/
def flush (userId : UserId) (loaded new : UserCredentials) : CredentialWork Unit :=
  if new = loaded then return ()
  else do
    if ← updateRow userId (changeColumns loaded new) then return () else throw .database

def saveCredentials (userId : UserId) (new : UserCredentials) : CredentialWork Unit := do
  let rows ← select
  match rows userId with
  | none => if ← insertRow userId new then return () else throw .database
  | some record => flush userId record new

/-- `DELETE` of a row that has gone meanwhile deletes none, and only warns. -/
def deleteCredentials (userId : UserId) : CredentialWork Bool := do
  let rows ← select
  match rows userId with
  | none => return false
  | some _ =>
      let _ ← deleteRow userId
      return true

def lockCredentials (userId : UserId) : CredentialWork (Option UserCredentials) := lockRow userId

/-- The users whose record is sealed under another master key, in the order of their ids. -/
def credentialOwnersNotAt (version : Int) : CredentialWork (List UserId) := do
  let rows ← selectAll
  return ((rows.filter fun e => e.2.keyVersion ≠ version).map Prod.fst).insertionSort
    fun a b => a.bytes ≤ b.bytes

/-! ## Rotation -/

inductive Outcome where
  | resealed
  | current
  | gone
  | unreadable
  deriving DecidableEq, Repr

structure RotationReport where
  resealed : List UserId
  unreadable : List UserId
  deriving DecidableEq

def RotationReport.ok (report : RotationReport) : Bool := report.unreadable.isEmpty

section Calls

variable (aes : AesGcm) (cipher : CredentialCipher)

/-- One record. Nothing is validated again, so `validated_at` is kept. -/
def reseal (userId : UserId) (nonce : List UInt8) : CredentialWork Outcome := do
  match ← lockCredentials userId with
  | none => return .gone
  | some record =>
      if record.keyVersion = cipher.active then return .current
      else
        match cipher.unseal aes userId record.sealed with
        | none => return .unreadable
        | some credentials => do
            flush userId record (record.withSealed (cipher.seal aes userId credentials nonce))
            return .resealed

/-- The report with one more outcome. -/
def RotationReport.add (report : RotationReport) (userId : UserId) : Outcome → RotationReport
  | .resealed => { report with resealed := report.resealed ++ [userId] }
  | .unreadable => { report with unreadable := report.unreadable ++ [userId] }
  | _ => report

/-- The loop over the owners. `nonces` are the ones that are drawn for them. -/
def resealEach (nonces : UserId → List UInt8) : List UserId → RotationReport → CredentialWork RotationReport
  | [], report => return report
  | userId :: rest, report => do
      let outcome ← transaction (reseal aes cipher userId (nonces userId))
      resealEach nonces rest (report.add userId outcome)

/-- Every record not under the active key, one transaction each. -/
def rotate (nonces : UserId → List UInt8) : CredentialWork RotationReport := do
  let owners ← transaction (credentialOwnersNotAt cipher.active)
  resealEach aes cipher nonces owners ⟨[], []⟩

/-! ## The routes -/

structure KeyAccepted where
  validatedAt : Int
  permissions : List String
  ipAllowlist : List String
  unnecessary : List String
  deriving DecidableEq

/-- What a registration is given: the key and the secret, what Kraken answers to `GetApiKeyInfo`, the nonce
that is drawn, and the time. -/
structure Registration where
  apiKey : String
  apiSecret : String
  answer : HttpOutcome
  nonce : List UInt8
  now : Int

def Registration.credentials (given : Registration) : Credentials := ⟨given.apiKey, given.apiSecret⟩

/-- The record that a registration wants. -/
def Registration.record (given : Registration) (userId : UserId) : UserCredentials :=
  let sealed := cipher.seal aes userId given.credentials given.nonce
  ⟨sealed.ciphertext, sealed.nonce, sealed.keyVersion, given.now⟩

/-- `POST /credentials`. -/
def register (userId : UserId) (given : Registration) : CredentialWork KeyAccepted :=
  match validateKey given.answer with
  | .error e => throw (.python e)
  | .ok result =>
      if result.rejection = some .unreachable then
        throw (.http 503 "kraken could not be reached; the key was not stored")
      else if result.rejection = some .lockedOut then
        throw (.http 429
          ("kraken has locked the account out after repeated invalid keys; wait a few minutes" ++
            " before trying again, since every attempt restarts the lockout"))
      else if result.accepted = false then throw (.rejected 422 result)
      else do
        saveCredentials userId (given.record aes cipher userId)
        return ⟨given.now, result.permissions, result.ipAllowlist, result.unnecessary⟩

/-- `DELETE /credentials`. -/
def remove (userId : UserId) : CredentialWork Unit := do
  if ← deleteCredentials userId then return () else throw (.http 404 "no key is registered")

/-! ## The calls -/

inductive CredentialCall where
  | register (userId : UserId) (given : Registration)
  | remove (userId : UserId)
  | rotate (nonces : UserId → List UInt8)

inductive CredentialOutcome where
  | registered (out : KeyAccepted)
  | removed
  | rotated (report : RotationReport)

def credentialWork : CredentialCall → CredentialWork CredentialOutcome
  | .register userId given => do return .registered (← transaction (register aes cipher userId given))
  | .remove userId => do
      transaction (remove userId)
      return .removed
  | .rotate nonces => do return .rotated (← rotate aes cipher nonces)

def credentialCode (call : CredentialCall) :
    Prog (Stmt UserId UserCredentials) Reply (Except CredentialExn CredentialOutcome × Unit) :=
  (credentialWork aes cipher call).exec ()

end Calls

end Coinpilot.Core.Rotation
