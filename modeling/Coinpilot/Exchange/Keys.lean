import Coinpilot.Exchange.Client
import Mathlib.Data.List.Dedup
import Mathlib.Data.List.Sort
import Mathlib.Data.String.Basic

/-!
# Whether a key may be stored

`validateKey` reads the permissions of a key from what `GetApiKeyInfo` answered, and never calls anything to
find out whether it is allowed. A key that cannot be read is rejected. It is accepted exactly where Kraken
listed its permissions, every required one among them and no forbidden one (`accepted_iff`).
-/

set_option autoImplicit false

namespace Coinpilot.Exchange

/-! ## Reading the answer -/

/-- Why `api_key_info` raises. -/
inductive KeyRefusal where
  | keyRefused
  | keyLockedOut
  deriving DecidableEq, Repr

def LOCKOUT_ERROR : String := "EGeneral:Temporary lockout"

/-- A nonce error is left out on purpose. -/
def REFUSED_KEY_ERRORS : List String := ["EAPI:Invalid key", "EAPI:Invalid signature"]

def isRefusal (errors : List Json) : Bool :=
  errors.any fun error => REFUSED_KEY_ERRORS.any fun code => startsWith error.pyStr code

def isLockout (errors : List Json) : Bool := errors.any fun error => startsWith error.pyStr LOCKOUT_ERROR

/-- `api_key_info`: a refusal and a lockout are raised, and every other failure is `none`. -/
def apiKeyInfo (answer : HttpOutcome) : Except KeyRefusal (Option Json) :=
  match callPrivate answer with
  | .ok result => .ok result.notNone
  | .error .secretUnreadable => .error .keyRefused
  | .error (.krakenError errors) =>
      if isRefusal errors then .error .keyRefused
      else if isLockout errors then .error .keyLockedOut
      else .ok none
  | .error .other => .ok none

/-- `str(entry) for entry in info.get(key, [])`. -/
def textsOf (info : Json) (key : String) : Except PyError (List String) := do
  let entries ← info.get key
  let entries ← (entries.getD (.arr [])).iterate
  return entries.map Json.pyStr

/-! ## Validating -/

def REQUIRED_PERMISSIONS : List String :=
  ["query-funds", "modify-trades", "query-open-trades", "query-closed-trades"]

def FORBIDDEN_PERMISSIONS : List String :=
  ["withdraw-funds", "add-withdraw-address", "update-withdraw-address"]

inductive KeyRejection where
  | forbiddenPermissions
  | invalidKey
  | lockedOut
  | missingPermissions
  | unreachable
  deriving DecidableEq, Repr

structure KeyValidation where
  accepted : Bool
  rejection : Option KeyRejection
  permissions : List String
  missing : List String
  forbidden : List String
  ipAllowlist : List String
  unnecessary : List String
  deriving DecidableEq, Repr

/-- `sorted` of a set. -/
def sortedSet (entries : List String) : List String := entries.dedup.insertionSort (· ≤ ·)

theorem mem_sortedSet {entries : List String} {entry : String} : entry ∈ sortedSet entries ↔ entry ∈ entries := by
  simp [sortedSet]

theorem sortedSet_eq_nil {entries : List String} : sortedSet entries = [] ↔ entries = [] := by
  simp only [List.eq_nil_iff_forall_not_mem, mem_sortedSet]

/-- A key that was not read. -/
def refused (rejection : KeyRejection) : KeyValidation where
  accepted := false
  rejection := some rejection
  permissions := []
  missing := []
  forbidden := []
  ipAllowlist := []
  unnecessary := []

/-- The reason that is named. The security one comes first. -/
def rejectionOf (missing forbidden : List String) : Option KeyRejection :=
  if forbidden ≠ [] then some .forbiddenPermissions
  else if missing ≠ [] then some .missingPermissions
  else none

/-- Whether a key may be stored, from what `GetApiKeyInfo` answered. -/
def validateKey (answer : HttpOutcome) : Except PyError KeyValidation :=
  match apiKeyInfo answer with
  | .error .keyRefused => .ok (refused .invalidKey)
  | .error .keyLockedOut => .ok (refused .lockedOut)
  | .ok none => .ok (refused .unreachable)
  | .ok (some info) => do
      let granted ← textsOf info "permissions"
      let missing := sortedSet (REQUIRED_PERMISSIONS.filter (· ∉ granted))
      let forbidden := sortedSet (FORBIDDEN_PERMISSIONS.filter (· ∈ granted))
      let unnecessary := sortedSet
        (granted.filter fun entry => entry ∉ REQUIRED_PERMISSIONS ∧ entry ∉ FORBIDDEN_PERMISSIONS)
      let ipAllowlist ← textsOf info "ipAllowlist"
      return { accepted := (rejectionOf missing forbidden).isNone, rejection := rejectionOf missing forbidden
               permissions := sortedSet granted, missing, forbidden, ipAllowlist, unnecessary }

/-- Kraken listed these permissions. -/
def Grants (answer : HttpOutcome) (granted : List String) : Prop :=
  ∃ info, apiKeyInfo answer = .ok (some info) ∧ textsOf info "permissions" = .ok granted

/-- A key that may trade, read what an evaluation reads, and not withdraw. -/
structure MayBeStored (granted : List String) : Prop where
  required : ∀ entry ∈ REQUIRED_PERMISSIONS, entry ∈ granted
  forbidden : ∀ entry ∈ FORBIDDEN_PERMISSIONS, entry ∉ granted

theorem rejectionOf_none {granted : List String} :
    rejectionOf (sortedSet (REQUIRED_PERMISSIONS.filter (· ∉ granted)))
      (sortedSet (FORBIDDEN_PERMISSIONS.filter (· ∈ granted))) = none ↔ MayBeStored granted := by
  have hmissing : sortedSet (REQUIRED_PERMISSIONS.filter (· ∉ granted)) = [] ↔
      ∀ entry ∈ REQUIRED_PERMISSIONS, entry ∈ granted := by
    rw [sortedSet_eq_nil, List.filter_eq_nil_iff]
    simp
  have hforbidden : sortedSet (FORBIDDEN_PERMISSIONS.filter (· ∈ granted)) = [] ↔
      ∀ entry ∈ FORBIDDEN_PERMISSIONS, entry ∉ granted := by
    rw [sortedSet_eq_nil, List.filter_eq_nil_iff]
    simp
  rw [rejectionOf]
  constructor
  · intro h
    split at h
    · cases h
    · rename_i hnone
      split at h
      · cases h
      · exact ⟨hmissing.mp (not_not.mp ‹_›), hforbidden.mp (not_not.mp hnone)⟩
  · rintro ⟨hrequired, hnone⟩
    rw [if_neg (not_not_intro (hforbidden.mpr hnone)), if_neg (not_not_intro (hmissing.mpr hrequired))]

/-- A key is accepted exactly where its permissions are known, and are as they must be. -/
theorem accepted_iff {answer : HttpOutcome} {v : KeyValidation} (h : validateKey answer = .ok v) :
    v.accepted = true ↔ ∃ granted, Grants answer granted ∧ MayBeStored granted := by
  rw [validateKey] at h
  have hrefused : ∀ {rejection}, (∀ info, apiKeyInfo answer ≠ .ok (some info)) → refused rejection = v →
      (v.accepted = true ↔ ∃ granted, Grants answer granted ∧ MayBeStored granted) := by
    rintro rejection hnone rfl
    constructor
    · intro haccepted
      cases haccepted
    · rintro ⟨granted, ⟨info, hinfo, -⟩, -⟩
      exact absurd hinfo (hnone info)
  split at h
  · exact hrefused (by simp [*]) (Except.ok.inj h)
  · exact hrefused (by simp [*]) (Except.ok.inj h)
  · exact hrefused (by simp [*]) (Except.ok.inj h)
  · rename_i info hinfo
    cases hgranted : textsOf info "permissions" with
    | error e => rw [hgranted] at h; cases h
    | ok granted =>
      rw [hgranted] at h
      cases hips : textsOf info "ipAllowlist" with
      | error e => rw [hips] at h; cases h
      | ok ipAllowlist =>
        rw [hips] at h
        obtain rfl := Except.ok.inj h
        rw [Option.isNone_iff_eq_none, rejectionOf_none]
        constructor
        · exact fun hstored => ⟨granted, ⟨info, hinfo, hgranted⟩, hstored⟩
        · rintro ⟨granted', ⟨info', hinfo', hgranted'⟩, hstored⟩
          rw [hinfo] at hinfo'
          obtain rfl := Option.some.inj (Except.ok.inj hinfo')
          rw [hgranted] at hgranted'
          obtain rfl := Except.ok.inj hgranted'
          exact hstored

end Coinpilot.Exchange
