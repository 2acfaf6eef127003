import Coinpilot.Exchange.Client
import Coinpilot.Lib.Program
import Mathlib.Data.Rat.Defs
import Mathlib.Algebra.Order.Ring.Rat

/-!
# Pacing, nonces and one signed call

`KeyLimiter` keeps how recently each bucket called and its last nonce. Each of its operations holds
the guard; nothing holds it from one operation to the next. A signed call waits for its turn, takes a
nonce, signs and posts, in that order.

The readings of the clocks are rationals, and sums and products of them are exact: which nonce a
reading gives plays no part, only that it is an integer.
-/

set_option autoImplicit false

namespace Coinpilot.Exchange

open Coinpilot.Lib Coinpilot.Lib.Program

/-! ## The limiter -/

/-- Paces calls and hands out nonces, separately for each key. -/
structure KeyLimiter where
  minInterval : Rat
  lastCall : String → Option Rat
  lastNonce : String → Option Int

/-- A limiter that no key has used. -/
def KeyLimiter.fresh (minInterval : Rat) : KeyLimiter := ⟨minInterval, fun _ => none, fun _ => none⟩

/-- How long this bucket has to wait, and its slot. -/
def KeyLimiter.waitTurn (limiter : KeyLimiter) (now : Rat) (bucket : String) : Rat × KeyLimiter :=
  let wait := match limiter.lastCall bucket with
    | none => 0
    | some previous => previous + limiter.minInterval - now
  (wait, { limiter with lastCall := Function.update limiter.lastCall bucket (some (now + max wait 0)) })

/-- The last nonce this bucket used. -/
def KeyLimiter.previousNonce (limiter : KeyLimiter) (bucket : String) : Int :=
  (limiter.lastNonce bucket).getD 0

/-- The clock in microseconds, or one more than the last nonce. -/
def KeyLimiter.nextNonce (limiter : KeyLimiter) (clock : Rat) (bucket : String) : Int × KeyLimiter :=
  let candidate := (clock * 1000000).num.tdiv (clock * 1000000).den
  let previous := limiter.previousNonce bucket
  let nonce := if candidate ≤ previous then previous + 1 else candidate
  (nonce, { limiter with lastNonce := Function.update limiter.lastNonce bucket (some nonce) })

theorem KeyLimiter.waitTurn_lastNonce (limiter : KeyLimiter) (now : Rat) (bucket : String) :
    (limiter.waitTurn now bucket).2.lastNonce = limiter.lastNonce := rfl

/-- A nonce is strictly greater than the last one its bucket used, whatever the clock says. -/
theorem KeyLimiter.previousNonce_lt_nextNonce (limiter : KeyLimiter) (clock : Rat) (bucket : String) :
    limiter.previousNonce bucket < (limiter.nextNonce clock bucket).1 := by
  rw [nextNonce]
  dsimp only
  split
  · omega
  · omega

/-- A nonce is the last one of its bucket, and no other bucket's. -/
theorem KeyLimiter.previousNonce_nextNonce (limiter : KeyLimiter) (clock : Rat) (bucket b : String) :
    (limiter.nextNonce clock bucket).2.previousNonce b =
      if b = bucket then (limiter.nextNonce clock bucket).1 else limiter.previousNonce b := by
  rw [previousNonce, nextNonce]
  dsimp only
  by_cases h : b = bucket
  · subst h
    simp
  · simp [h, previousNonce]

/-! ## One signed call -/

/-- A Kraken API key. -/
structure Credentials where
  apiKey : String
  apiSecret : String
  deriving DecidableEq

/-- One identity against Kraken. `bucket` is what the limiter counts it under: the user, when there is
one. -/
structure Identity where
  credentials : Option Credentials
  bucket : Option String
  deriving DecidableEq

/-- `self._bucket or credentials.api_key`: an empty bucket counts as none. -/
def Identity.bucketFor (client : Identity) (credentials : Credentials) : String :=
  match client.bucket with
  | none => credentials.apiKey
  | some bucket => if bucket = "" then credentials.apiKey else bucket

/-- A request as it is posted. `fields` are those of the form. -/
structure SignedRequest where
  path : String
  nonce : Int
  fields : List (String × String)
  apiKey : String
  signature : String

/-- The value of the `API-Sign` header, from the path, the nonce, the fields of the form and the
secret. There is none where the secret does not decode. -/
abbrev Signer : Type := String → String → List (String × String) → String → Option String

/-- The request of a call under a nonce. -/
def signedRequest (sign : Signer) (credentials : Credentials) (call : PrivateCall) (nonce : Int) :
    Option SignedRequest :=
  let path := "/0/private/" ++ call.endpoint
  let fields := ("nonce", toString nonce) :: call.payload
  (sign path (toString nonce) fields credentials.apiSecret).map fun signature =>
    ⟨path, nonce, fields, credentials.apiKey, signature⟩

/-- Every request carries the nonce it was made with. -/
theorem signedRequest_nonce {sign : Signer} {credentials : Credentials} {call : PrivateCall}
    {nonce : Int} {request : SignedRequest}
    (h : signedRequest sign credentials call nonce = some request) : request.nonce = nonce := by
  obtain ⟨signature, -, rfl⟩ := Option.map_eq_some_iff.mp h
  rfl

/-- What a signed call asks of the limiter, of the clock and of the transport. `post` names the bucket
the request is counted under. -/
inductive WireOp where
  | waitTurn (bucket : String)
  | sleep (seconds : Rat)
  | nextNonce (bucket : String)
  | post (bucket : String) (request : SignedRequest)

/-- A post is answered with a JSON body, or fails: an exception of the transport, an HTTP error status,
or a body of another form. -/
abbrev WireAns : WireOp → Type
  | .waitTurn _ => Rat
  | .sleep _ => Unit
  | .nextNonce _ => Int
  | .post _ _ => Option Json

inductive PrivateFailure where
  | missingCredentials
  | failed (failure : CallFailure)

abbrev Wire : Type → Type := Proc WireOp WireAns Unit PrivateFailure

/-- A private call of one client. -/
structure SignedCall where
  client : Identity
  call : PrivateCall

/-- The answer to a post. -/
def readBody : Option Json → Except PrivateFailure Json
  | none => .error (.failed .other)
  | some body => (unwrap body).mapError .failed

/-- The wait happens outside the guard. -/
def pause (wait : Rat) : Wire Unit := if 0 < wait then perform (WireOp.sleep wait) else pure ()

/-- From the nonce on. -/
def postSigned (sign : Signer) (bucket : String) (credentials : Credentials) (call : PrivateCall)
    (nonce : Int) : Wire Json :=
  match signedRequest sign credentials call nonce with
  | none => throw (.failed .secretUnreadable)
  | some request => attempt (.post bucket request) readBody

/-- `_call_private`: one signed call. -/
def signedCall (sign : Signer) (c : SignedCall) : Wire Json :=
  match c.client.credentials with
  | none => throw .missingCredentials
  | some credentials => do
      let bucket := c.client.bucketFor credentials
      let wait ← perform (WireOp.waitTurn bucket)
      pause wait
      let nonce ← perform (WireOp.nextNonce bucket)
      postSigned sign bucket credentials c.call nonce

/-- From the nonce on, a call returns what `callPrivate` reads off an HTTP exchange. -/
theorem postSigned_reads (sign : Signer) (bucket : String) (credentials : Credentials)
    (call : PrivateCall) (nonce : Int) :
    (postSigned sign bucket credentials call nonce).Only (fun _ => True) fun r =>
      ∃ answer, r = (callPrivate answer).mapError .failed := by
  rw [postSigned]
  cases signedRequest sign credentials call nonce with
  | none => exact only_throw ⟨.unsigned, rfl⟩
  | some request =>
    refine only_attempt trivial fun body => ?_
    cases body with
    | none => exact ⟨.failed, rfl⟩
    | some body => exact ⟨.answered body, rfl⟩

/-- One signed call has no key, or returns what `callPrivate` reads off an HTTP exchange. -/
theorem signedCall_reads (sign : Signer) (c : SignedCall) :
    (signedCall sign c).Only (fun _ => True) fun r =>
      (c.client.credentials = none ∧ r = .error .missingCredentials) ∨
        ∃ answer, r = (callPrivate answer).mapError .failed := by
  rw [signedCall]
  cases c.client.credentials with
  | none => exact only_throw (.inl ⟨rfl, rfl⟩)
  | some credentials =>
    -- neither the limiter nor the clock raises
    refine only_bind (R := fun r => ∃ wait, r = .ok wait) (only_perform trivial fun b => ⟨b, rfl⟩) ?_ ?_
    · intro wait _
      refine only_bind (R := fun r => r = .ok ()) ?_ (fun _ _ => ?_) ?_
      · rw [pause]
        split
        · exact fun _ => ⟨trivial, fun _ => ⟨rfl, rfl⟩⟩
        · exact only_pure rfl
      · refine only_bind (R := fun r => ∃ nonce, r = .ok nonce)
          (only_perform trivial fun b => ⟨b, rfl⟩) (fun nonce _ => ?_) ?_
        · exact Proc.only_mono (postSigned_reads sign _ credentials c.call nonce) (fun _ h => h)
            fun _ h => .inr h
        · rintro e ⟨nonce, h⟩
          cases h
      · intro e h
        cases h
    · rintro e ⟨wait, h⟩
      cases h

end Coinpilot.Exchange
