import Coinpilot.Core.Cadence
import Coinpilot.Core.Db.Models
import Coinpilot.Exchange.Limits

/-!
# Encryption at rest

A user's key and secret are one payload, sealed under one nonce with the active master key and opened with
any version that is held. The user's id is the associated data. What is sealed opens to what was sealed, under
the active key alone (`unseal_seal`, `unseal_onlyActive`).
-/

set_option autoImplicit false

namespace Coinpilot.Core

open Coinpilot.Lib Coinpilot.Exchange

def KEY_BYTES : Nat := 32

/-- `AESGCM(key)`, on payloads of credentials. `decrypt` answers `none` where it raises `InvalidTag`. -/
structure AesGcm where
  encrypt : (key nonce : List UInt8) → (payload : Credentials) → (associated : List UInt8) → List UInt8
  decrypt : (key nonce ciphertext associated : List UInt8) → Option Credentials

/-- What was sealed opens under the same key, nonce and associated data. -/
def AesGcm.Opens (aes : AesGcm) : Prop :=
  ∀ key nonce payload associated,
    aes.decrypt key nonce (aes.encrypt key nonce payload associated) associated = some payload

/-- The master keys, of which one is active. -/
structure CredentialCipher where
  keys : Dict Int (List UInt8)
  active : Int
  sized : ∀ e ∈ keys.entries, e.2.length = KEY_BYTES
  held : (keys.get? active).isSome

/-- `CredentialCipher(keys, active_version)`. -/
def CredentialCipher.make (keys : Dict Int (List UInt8)) (active : Int) : Except PyError CredentialCipher :=
  if sized : ∀ e ∈ keys.entries, e.2.length = KEY_BYTES then
    if held : (keys.get? active).isSome then .ok ⟨keys, active, sized, held⟩ else .error .valueError
  else .error .valueError

/-- The cipher that holds the active key only. -/
def CredentialCipher.onlyActive (cipher : CredentialCipher) : CredentialCipher where
  keys := cipher.keys.filterMap fun version key => if version = cipher.active then some key else none
  active := cipher.active
  sized := by
    intro e he
    obtain ⟨key, hkey, hkept⟩ := Dict.mem_filterMap.mp he
    split at hkept
    · obtain rfl := Option.some.inj hkept
      exact cipher.sized _ hkey
    · cases hkept
  held := by
    rw [Dict.get?_filterMap]
    simpa using cipher.held

section Ciphers

variable (aes : AesGcm) (cipher : CredentialCipher)

def CredentialCipher.activeKey : List UInt8 := (cipher.keys.get? cipher.active).get cipher.held

/-- The nonce is drawn at random. -/
def CredentialCipher.seal (userId : UserId) (credentials : Credentials) (nonce : List UInt8) : Sealed where
  ciphertext := aes.encrypt cipher.activeKey nonce credentials userId.bytes
  nonce := nonce
  keyVersion := cipher.active

/-- `none` is `CredentialsUnreadable`: another user's row, a changed byte, or a missing key. -/
def CredentialCipher.unseal (userId : UserId) (record : Sealed) : Option Credentials :=
  (cipher.keys.get? record.keyVersion).bind fun key =>
    aes.decrypt key record.nonce record.ciphertext userId.bytes

variable {aes cipher}

theorem CredentialCipher.get?_active : cipher.keys.get? cipher.active = some cipher.activeKey := by
  rw [CredentialCipher.activeKey, Option.some_get]

/-- What is sealed opens. -/
theorem CredentialCipher.unseal_seal (hopens : aes.Opens) (userId : UserId) (credentials : Credentials)
    (nonce : List UInt8) :
    cipher.unseal aes userId (cipher.seal aes userId credentials nonce) = some credentials := by
  rw [CredentialCipher.unseal, CredentialCipher.seal]
  dsimp only
  rw [CredentialCipher.get?_active]
  exact hopens _ _ _ _

/-- A record under the active key needs no other. -/
theorem CredentialCipher.unseal_onlyActive {userId : UserId} {record : Sealed}
    (h : record.keyVersion = cipher.active) :
    cipher.onlyActive.unseal aes userId record = cipher.unseal aes userId record := by
  have hkeys : cipher.onlyActive.keys.get? cipher.active = cipher.keys.get? cipher.active := by
    rw [CredentialCipher.onlyActive, Dict.get?_filterMap]
    simp
  rw [CredentialCipher.unseal, CredentialCipher.unseal, h, hkeys]

end Ciphers

end Coinpilot.Core
