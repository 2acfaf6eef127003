import Coinpilot.Core.Cadence
import Coinpilot.Exchange.Limits
import Coinpilot.Lib.Replay
import Coinpilot.Lib.Tickets
import Mathlib.Data.Int.ConditionallyCompleteOrder

/-!
# The nonces of one key, as they are posted

Any number of signed calls run at once over one limiter. Taking a nonce and posting it are two
operations, and others run between them. The nonces of a bucket are posted in increasing order in every
run in which no request is posted past a smaller nonce of its bucket that another call has taken and
will post (`posted_in_nonce_order`). A request that is posted past one can always be followed by that
one, out of order (`overtaken_breaks_order`).
-/

set_option autoImplicit false

namespace Coinpilot.Safety

open Coinpilot.Lib Coinpilot.Lib.Program Coinpilot.Exchange
open Coinpilot.Core (UserId)

/-! ## The clients of a user -/

/-- `str(user_id)`. -/
def uuidText (userId : UserId) : String :=
  let digits (low high : Nat) := String.ofList ((userId.bytes.extract low high).flatMap fun byte =>
    [Nat.digitChar (byte.toNat / 16), Nat.digitChar (byte.toNat % 16)])
  digits 0 4 ++ "-" ++ digits 4 6 ++ "-" ++ digits 6 8 ++ "-" ++ digits 8 10 ++ "-" ++ digits 10 16

/-- A client for one request. The limiter counts per user. -/
def krakenIdentity (userId : UserId) (credentials : Credentials) : Identity :=
  ⟨some credentials, some (uuidText userId)⟩

/-- Every client of a user is counted under that user, whatever its key. -/
theorem bucketFor_krakenIdentity (userId : UserId) (credentials : Credentials) :
    (krakenIdentity userId credentials).bucketFor credentials = uuidText userId := by
  have hne : uuidText userId ≠ "" := by
    simp [uuidText]
  simp [krakenIdentity, Identity.bucketFor, hne]

/-! ## The wire -/

/-- A nonce that a call has taken and not posted yet. -/
structure Taken where
  who : Nat
  bucket : String
  nonce : Int
  deriving DecidableEq

/-- The limiter, the nonces taken and not posted yet, and those posted with their buckets, first to
last. -/
structure Traffic where
  limiter : KeyLimiter
  taken : List Taken
  posted : List (String × Int)

namespace Traffic

/-- Before the first call. -/
def idle (limiter : KeyLimiter) : Traffic := ⟨limiter, [], []⟩

/-- What a call has taken. -/
def takenBy (w : Traffic) (i : Nat) : List Taken := w.taken.filter (·.who = i)

/-- A call that ends takes its nonce with it. -/
def lose (w : Traffic) (i : Nat) : Traffic := { w with taken := w.taken.filter (·.who ≠ i) }

/-- A call reserves its slot. -/
def wait (w : Traffic) (now : Rat) (bucket : String) : Traffic :=
  { w with limiter := (w.limiter.waitTurn now bucket).2 }

/-- A call takes a nonce. One that cannot sign will not post it. -/
def take (sign : Signer) (w : Traffic) (i : Nat) (c : SignedCall) (clock : Rat) (bucket : String) :
    Traffic :=
  let next := w.limiter.nextNonce clock bucket
  let signed := c.client.credentials.bind fun credentials => signedRequest sign credentials c.call next.1
  { w with limiter := next.2, taken := if signed.isSome then ⟨i, bucket, next.1⟩ :: w.taken else w.taken }

/-- A call posts. -/
def post (w : Traffic) (i : Nat) (bucket : String) (request : SignedRequest) : Traffic :=
  { w.lose i with posted := w.posted ++ [(bucket, request.nonce)] }

/-- The nonces posted for a bucket, first to last. -/
def postedFor (w : Traffic) (b : String) : List Int := (w.posted.filter (·.1 = b)).map Prod.snd

end Traffic

/-- Any reading of the clocks, and any answer of Kraken. -/
def wire (sign : Signer) : Semantics WireOp WireAns SignedCall Traffic where
  step i c
    | .waitTurn bucket, w, seconds, w' =>
        ∃ now, seconds = (w.limiter.waitTurn now bucket).1 ∧ w' = w.wait now bucket
    | .sleep _, w, _, w' => w' = w
    | .nextNonce bucket, w, nonce, w' =>
        ∃ clock, nonce = (w.limiter.nextNonce clock bucket).1 ∧ w' = w.take sign i c clock bucket
    | .post bucket request, w, _, w' => w' = w.post i bucket request
  env w w' := w' = w
  died i w := w.lose i

def wireCode (sign : Signer) (c : SignedCall) : Prog WireOp WireAns (Except PrivateFailure Json × Unit) :=
  (signedCall sign c).exec ()

/-- A request of the bucket is posted when no smaller nonce of the bucket is taken and still to be
posted. -/
def InTurn (b : String) (_ : Nat) (_ : SignedCall) : WireOp → Traffic → Prop
  | .post bucket request, w => bucket = b → ∀ t ∈ w.taken, t.bucket = b → request.nonce ≤ t.nonce
  | _, _ => True

instance (b : String) (i : Nat) (c : SignedCall) (o : WireOp) (w : Traffic) :
    Decidable (InTurn b i c o w) := by
  unfold InTurn
  split
  · infer_instance
  · infer_instance

abbrev WireConfig : Type :=
  Config WireOp WireAns SignedCall Traffic (Except PrivateFailure Json × Unit)

/-! ## What one call relies on -/

section Taking

variable {sign : Signer} {w : Traffic} {i j : Nat} {c : SignedCall}

theorem takenBy_lose_self (w : Traffic) (i : Nat) : (w.lose i).takenBy i = [] := by
  simp [Traffic.takenBy, Traffic.lose, List.filter_filter]

theorem takenBy_lose (w : Traffic) (h : j ≠ i) : (w.lose i).takenBy j = w.takenBy j := by
  simp only [Traffic.takenBy, Traffic.lose, List.filter_filter]
  refine List.filter_congr fun t _ => ?_
  by_cases ht : t.who = j
  · simp [ht, h]
  · simp [ht]

theorem takenBy_take (w : Traffic) (clock : Rat) (bucket : String) (h : j ≠ i) :
    (w.take sign i c clock bucket).takenBy j = w.takenBy j := by
  rw [Traffic.take, Traffic.takenBy]
  dsimp only
  split
  · simp [Traffic.takenBy, Ne.symm h]
  · rfl

/-- Each thread is left what it has taken. A thread posts what it has taken, and has taken nothing
before. -/
abbrev calls (sign : Signer) : Contract (wire sign) where
  inv _ := True
  rely i w w' := w'.takenBy i = w.takenBy i
  guard i _ o w := match o with
    | .post bucket request => w.takenBy i = [⟨i, bucket, request.nonce⟩]
    | _ => w.takenBy i = []
  rely_refl _ _ := rfl
  rely_trans h₁ h₂ := h₂.trans h₁
  env_ok _ h := ⟨trivial, fun i => by rw [show _ = _ from h]⟩
  died_ok _ := ⟨trivial, fun j hj => takenBy_lose _ hj⟩
  step_ok := by
    intro i c o w b w' _ _ hs
    refine ⟨trivial, fun j hj => ?_⟩
    cases o with
    | waitTurn bucket =>
      obtain ⟨now, -, rfl⟩ := hs
      rfl
    | sleep seconds => rw [show w' = w from hs]
    | nextNonce bucket =>
      obtain ⟨clock, -, rfl⟩ := hs
      exact takenBy_take w clock bucket hj
    | post bucket request =>
      rw [show w' = w.post i bucket request from hs]
      exact takenBy_lose w hj

/-- A call that has nothing in hand. -/
def Idle (i : Nat) (w : Traffic) : Prop := w.takenBy i = []

theorem idle_stable (i : Nat) : (calls sign).Stable i (Idle i) := fun h hr _ => hr.trans h

theorem wp_wait {bucket : String} {Q : Except PrivateFailure Rat → Unit → Traffic → Prop} {l : Unit}
    (h : Idle i w) (hQ : ∀ seconds w', Idle i w' → Q (.ok seconds) l w') :
    (perform (WireOp.waitTurn bucket) : Wire Rat).Wp (calls sign) i c Q l w := by
  refine fun w₁ hr _ => ⟨hr.trans h, ?_⟩
  rintro seconds w₂ ⟨now, -, rfl⟩ _
  exact hQ seconds _ (hr.trans h)

theorem wp_pause {seconds : Rat} {Q : Except PrivateFailure Unit → Unit → Traffic → Prop} {l : Unit}
    (h : Idle i w) (hQ : ∀ w', Idle i w' → Q (.ok ()) l w') :
    (pause seconds).Wp (calls sign) i c Q l w := by
  rw [pause]
  split
  · refine fun w₁ hr _ => ⟨hr.trans h, ?_⟩
    rintro _ w₂ rfl _
    exact hQ _ (hr.trans h)
  · exact hQ w h

/-- From the nonce on: a call that can sign holds its nonce until it posts it. -/
theorem wp_postSigned {bucket : String} {credentials : Credentials} {nonce : Int} {l : Unit}
    (hsigned : ∀ request, signedRequest sign credentials c.call nonce = some request →
      w.takenBy i = [⟨i, bucket, nonce⟩])
    (hunsigned : signedRequest sign credentials c.call nonce = none → Idle i w) :
    (postSigned sign bucket credentials c.call nonce).Wp (calls sign) i c (fun _ _ => Idle i) l w := by
  rw [postSigned]
  cases h : signedRequest sign credentials c.call nonce with
  | none => exact hunsigned h
  | some request =>
    refine wp_attempt fun w₁ hr _ => ⟨?_, ?_⟩
    · show w₁.takenBy i = [⟨i, bucket, request.nonce⟩]
      rw [show w₁.takenBy i = w.takenBy i from hr, hsigned request h, signedRequest_nonce h]
    · rintro body w₂ rfl _
      exact takenBy_lose_self w₁ i

/-- Every call posts the nonce it has taken, and ends with nothing in hand. -/
theorem wp_signedCall (c : SignedCall) (h : Idle i w) :
    (signedCall sign c).Wp (calls sign) i c (fun _ _ => Idle i) () w := by
  rw [signedCall]
  cases hc : c.client.credentials with
  | none => exact h
  | some credentials =>
    apply wp_bind
    refine wp_wait h fun seconds w₁ h₁ => ?_
    apply wp_bind
    refine wp_pause h₁ fun w₂ h₂ => ?_
    apply wp_bind
    refine fun w₃ hr _ => ⟨hr.trans h₂, ?_⟩
    rintro nonce w₄ ⟨clock, rfl, rfl⟩ _
    have h₃ : w₃.takenBy i = [] := hr.trans h₂
    apply wp_postSigned
    · intro request hrequest
      simpa [Traffic.take, Traffic.takenBy, hc, hrequest] using h₃
    · intro hnone
      simpa [Idle, Traffic.take, Traffic.takenBy, hc, hnone] using h₃

/-- Before the first call nothing is in hand. -/
theorem idle_start (limiter : KeyLimiter) (i : Nat) : Idle i (.idle limiter) := rfl

theorem calls_covers (sign : Signer) :
    (calls sign).Covers (wireCode sign) Idle fun i _ _ w => Idle i w where
  fresh_stable i := idle_stable i
  post_stable i _ _ := idle_stable i
  code_ok _ c _ _ h := wp_signedCall c h

end Taking

/-! ## The order of one bucket -/

section Order

variable {sign : Signer} {b : String} {w : Traffic} {i : Nat}

/-- The nonces of one bucket. -/
def Traffic.tickets (w : Traffic) (b : String) : Tickets Nat Int where
  last := w.limiter.previousNonce b
  held := (w.taken.filter (·.bucket = b)).map fun t => (t.who, t.nonce)
  used := w.postedFor b

theorem tickets_lose (w : Traffic) (i : Nat) (b : String) :
    (w.lose i).tickets b = (w.tickets b).drop i := by
  have hheld : ((w.lose i).tickets b).held = ((w.tickets b).drop i).held := by
    simp only [Traffic.tickets, Traffic.lose, Tickets.drop, List.filter_map, List.filter_filter]
    congr 1
    refine List.filter_congr fun t _ => ?_
    simp [Bool.and_comm]
  exact congrArg (fun held => (⟨_, held, _⟩ : Tickets Nat Int)) hheld

/-- A post for a bucket uses its nonce. -/
theorem tickets_post (w : Traffic) (i : Nat) (bucket : String) (request : SignedRequest) :
    (w.post i bucket request).tickets bucket = (w.tickets bucket).use i request.nonce := by
  have hheld : ((w.post i bucket request).tickets bucket).held = ((w.tickets bucket).drop i).held := by
    rw [← tickets_lose]
    rfl
  have hposted : (w.post i bucket request).postedFor bucket = w.postedFor bucket ++ [request.nonce] := by
    simp [Traffic.post, Traffic.postedFor]
  exact congrArg₂ (fun held used => (⟨_, held, used⟩ : Tickets Nat Int)) hheld hposted

/-- A post for another bucket uses none. -/
theorem tickets_post_of_ne (w : Traffic) (i : Nat) {bucket : String} (request : SignedRequest)
    (h : bucket ≠ b) : (w.post i bucket request).tickets b = (w.tickets b).drop i := by
  have hposted : (w.post i bucket request).postedFor b = (w.lose i).postedFor b := by
    simp [Traffic.post, Traffic.postedFor, Traffic.lose, h]
  rw [← tickets_lose]
  exact congrArg (fun used => (⟨_, _, used⟩ : Tickets Nat Int)) hposted

/-- Whatever the clock says, a nonce that is taken keeps the order. -/
theorem inOrder_take (h : (w.tickets b).InOrder) (c : SignedCall) (clock : Rat) (bucket : String) :
    ((w.take sign i c clock bucket).tickets b).InOrder := by
  have hlast := w.limiter.previousNonce_nextNonce clock bucket b
  by_cases hb : b = bucket
  · subst hb
    rw [if_pos rfl] at hlast
    have hgreater : (w.tickets b).last < (w.limiter.nextNonce clock b).1 :=
      w.limiter.previousNonce_lt_nextNonce clock b
    have hskip := h.skip hgreater
    have htake := h.take i hgreater
    rw [Traffic.take, Traffic.tickets]
    dsimp only
    rw [hlast]
    split
    · simpa [Traffic.tickets, Tickets.take, Traffic.postedFor] using htake
    · exact hskip
  · rw [if_neg hb] at hlast
    rw [Traffic.take, Traffic.tickets]
    dsimp only
    rw [hlast]
    split
    · simpa [Traffic.tickets, Traffic.postedFor, Ne.symm hb] using h
    · exact h

theorem inOrder_post {bucket : String} {request : SignedRequest} {c : SignedCall}
    (h : (w.tickets b).InOrder) (hturn : InTurn b i c (.post bucket request) w)
    (hheld : w.takenBy i = [⟨i, bucket, request.nonce⟩]) :
    ((w.post i bucket request).tickets b).InOrder := by
  by_cases hb : bucket = b
  · subst hb
    have hmem : (⟨i, bucket, request.nonce⟩ : Taken) ∈ w.taken := by
      have htaken : (⟨i, bucket, request.nonce⟩ : Taken) ∈ w.takenBy i := by
        rw [hheld]
        exact List.mem_singleton_self _
      exact (List.mem_filter.mp htaken).1
    rw [tickets_post]
    apply h.use
    · exact List.mem_map.mpr ⟨_, List.mem_filter.mpr ⟨hmem, by simp⟩, rfl⟩
    · intro p hp
      obtain ⟨t, ht, rfl⟩ := List.mem_map.mp hp
      obtain ⟨ht, htb⟩ := List.mem_filter.mp ht
      exact hturn rfl t ht (of_decide_eq_true htb)
  · rw [tickets_post_of_ne w i request hb]
    exact h.drop i

/-- A call that has ended has nothing in hand. -/
theorem idle_of_gone {σ : WireConfig}
    {limiter : KeyLimiter} (h : Reaches (wire sign) (wireCode sign) (.start (.idle limiter)) σ)
    {j : Nat} {c : SignedCall} (hj : σ.threads j = .gone c) : Idle j σ.world := by
  induction h with
  | refl => cases hj
  | tail hab hs ih =>
    obtain ⟨-, ht⟩ := Contract.sound (calls_covers sign) trivial (idle_start limiter) hab
    cases hs with
    | env he =>
      rw [show _ = _ from he]
      exact ih hj
    | spawn i c' hu =>
      by_cases hji : j = i
      · subst hji
        simp at hj
      · exact ih (by simpa [hji] using hj)
    | @act i c' o k answer w' hl hst =>
      by_cases hji : j = i
      · subst hji
        simp at hj
      · have hguard := Contract.guard_of_act (K := calls sign) trivial (ht i) hl
        have hkept := ((calls sign).step_ok trivial hguard hst).2 j hji
        exact Eq.trans hkept (ih (by simpa [hji] using hj))
    | @die i c' p hl =>
      by_cases hji : j = i
      · subst hji
        exact takenBy_lose_self _ j
      · exact (takenBy_lose _ hji).trans (ih (by simpa [hji] using hj))

/-- A nonce that is taken is about to be posted. -/
theorem posts_taken {σ : WireConfig}
    {limiter : KeyLimiter} (h : Reaches (wire sign) (wireCode sign) (.start (.idle limiter)) σ)
    {t : Taken} (ht : t ∈ σ.world.taken) :
    ∃ c request k, σ.threads t.who = .live c (.call (.post t.bucket request) k) ∧
      request.nonce = t.nonce := by
  obtain ⟨-, hthreads⟩ := Contract.sound (calls_covers sign) trivial (idle_start limiter) h
  have hmem : t ∈ σ.world.takenBy t.who := List.mem_filter.mpr ⟨ht, by simp⟩
  have hbusy : ¬Idle t.who σ.world := fun hidle => by
    rw [show σ.world.takenBy t.who = [] from hidle] at hmem
    cases hmem
  have hown := hthreads t.who
  cases hlive : σ.threads t.who with
  | unborn =>
    rw [hlive] at hown
    exact absurd hown hbusy
  | gone c => exact absurd (idle_of_gone h hlive) hbusy
  | live c p =>
    cases p with
    | ret a =>
      rw [hlive] at hown
      exact absurd hown hbusy
    | call o k =>
      have hguard := Contract.guard_of_act (K := calls sign) trivial hown hlive
      cases o with
      | post bucket request =>
        rw [show σ.world.takenBy t.who = [⟨t.who, bucket, request.nonce⟩] from hguard,
          List.mem_singleton] at hmem
        exact ⟨c, request, k, by rw [hmem], by rw [hmem]⟩
      | waitTurn bucket => exact absurd hguard hbusy
      | sleep seconds => exact absurd hguard hbusy
      | nextNonce bucket => exact absurd hguard hbusy

/-- A request that is posted past a smaller nonce that is still to be posted: the next step can post that
one, out of order. -/
theorem overtaken_breaks_order {σ : WireConfig}
    {limiter : KeyLimiter} (h : Reaches (wire sign) (wireCode sign) (.start (.idle limiter)) σ)
    {i : Nat} {c : SignedCall} {request : SignedRequest}
    {k : Option Json → Prog WireOp WireAns (Except PrivateFailure Json × Unit)}
    (hi : σ.threads i = .live c (.call (.post b request) k))
    (hturn : ¬InTurn b i c (.post b request) σ.world) :
    ∃ τ, Reaches (wire sign) (wireCode sign) σ τ ∧ ¬(τ.world.postedFor b).Pairwise (· < ·) := by
  have hsmaller : ∃ t ∈ σ.world.taken, t.bucket = b ∧ t.nonce < request.nonce := by
    by_contra hnone
    refine hturn fun _ t ht hb => ?_
    by_contra hlt
    exact hnone ⟨t, ht, hb, by omega⟩
  obtain ⟨t, ht, rfl, hlt⟩ := hsmaller
  obtain ⟨c', request', k', hj, hnonce⟩ := posts_taken h ht
  have hne : t.who ≠ i := by
    intro heq
    rw [heq, hi] at hj
    cases hj
    omega
  have hfirst : Step (wire sign) (wireCode sign) σ ⟨σ.world.post i t.bucket request,
      Function.update σ.threads i (.live c (k none))⟩ := .act hi rfl
  have hj' : Function.update σ.threads i (.live c (k none)) t.who =
      .live c' (.call (.post t.bucket request') k') := by
    rw [Function.update_of_ne hne]
    exact hj
  refine ⟨_, (Relation.ReflTransGen.single hfirst).tail (.act (b := none) hj' rfl), ?_⟩
  have htickets : ((σ.world.post i t.bucket request).post t.who t.bucket request').tickets t.bucket =
      ((σ.world.tickets t.bucket).use i request.nonce).use t.who t.nonce := by
    rw [tickets_post, tickets_post, hnonce]
  rw [show Traffic.postedFor _ t.bucket = _ from congrArg Tickets.used htickets]
  exact Tickets.not_sorted_of_overtaken hlt

/-- The requests of a bucket are posted in the order of their nonces, in every run in which each is posted
when no other call has a smaller nonce of the bucket still to post. Calls of other buckets are under no
condition. -/
theorem posted_in_nonce_order (sign : Signer) (limiter : KeyLimiter) (b : String)
    {σ : WireConfig}
    (h : Reaches ((wire sign).given (InTurn b)) (wireCode sign) (.start (.idle limiter)) σ) :
    (σ.world.postedFor b).Pairwise (· < ·) := by
  have hstart : ((Traffic.idle limiter).tickets b).InOrder := Tickets.inOrder_idle _
  refine (Contract.keeps_given (P := fun w : Traffic => (w.tickets b).InOrder)
    (calls_covers sign) trivial (idle_start limiter) hstart ?_ ?_ ?_ h).sorted
  · rintro w w' - hw rfl
    exact hw
  · intro i w hw
    rw [show (wire sign).died i w = w.lose i from rfl, tickets_lose]
    exact hw.drop i
  · rintro i c o w answer w' - hguard hturn hw hs
    cases o with
    | waitTurn bucket =>
      obtain ⟨now, -, rfl⟩ := hs
      exact hw
    | sleep seconds =>
      rw [show w' = w from hs]
      exact hw
    | nextNonce bucket =>
      obtain ⟨clock, -, rfl⟩ := hs
      exact inOrder_take hw c clock bucket
    | post bucket request =>
      rw [show w' = w.post i bucket request from hs]
      exact inOrder_post hw hturn hguard

end Order

/-! ## Runs on given readings -/

/-- Kraken's answer to every post. -/
def emptyAnswer : Json := .obj [("error", .arr []), ("result", .obj [])]

/-- The clock that an operation reads shows `reading`. -/
def wireReply (sign : Signer) (reading : Rat) (i : Nat) (c : SignedCall) :
    (o : WireOp) → Traffic → WireAns o × Traffic
  | .waitTurn bucket, w => ((w.limiter.waitTurn reading bucket).1, w.wait reading bucket)
  | .sleep _, w => ((), w)
  | .nextNonce bucket, w =>
      ((w.limiter.nextNonce reading bucket).1, w.take sign i c reading bucket)
  | .post bucket request, w => (some emptyAnswer, w.post i bucket request)

def wireResponder (sign : Signer) : Responder (wire sign) Rat where
  respond reading i c o w := some (wireReply sign reading i c o w)
  responds {reading i c o w b w'} h := by
    have heq : wireReply sign reading i c o w = (b, w') := Option.some.inj h
    cases o with
    | waitTurn bucket =>
      cases heq
      exact ⟨reading, rfl, rfl⟩
    | sleep seconds =>
      cases heq
      rfl
    | nextNonce bucket =>
      cases heq
      exact ⟨reading, rfl, rfl⟩
    | post bucket request =>
      cases heq
      rfl

/-- A signer for a secret that decodes. -/
def plainSigner : Signer := fun path nonce _ _ => some (path ++ nonce)

def thisUser : UserId := ⟨List.replicate 16 0x5A, List.length_replicate⟩

/-- The balance of a user, as an evaluation and a refresh both read it. -/
def balanceCall : SignedCall := ⟨krakenIdentity thisUser ⟨"KEY", "c2VjcmV0"⟩, .balance⟩

/-- Two calls of one user, one after the other, and a clock that jumps backwards between them. -/
def oneAtATime : List (Turn SignedCall Rat) :=
  [.spawn 0 balanceCall, .act 0 100, .act 0 1700000000, .act 0 100,
    .spawn 1 balanceCall, .act 1 100, .act 1 101, .act 1 1600000000, .act 1 101]

theorem posted_in_nonce_order_oneAtATime :
    ∃ σ, Reaches ((wire plainSigner).given (InTurn (uuidText thisUser))) (wireCode plainSigner)
        (.start (.idle (.fresh 1))) σ ∧
      σ.world.postedFor (uuidText thisUser) = [1700000000000000, 1700000000000001] ∧
      (σ.world.postedFor (uuidText thisUser)).Pairwise (· < ·) := by
  obtain ⟨σ, hσ, hc⟩ := reaches_of_replay (wireCode plainSigner)
    ((wireResponder plainSigner).given (InTurn (uuidText thisUser))) (.start (.idle (.fresh 1)))
    oneAtATime (fun σ => decide (σ.world.postedFor (uuidText thisUser) =
      [1700000000000000, 1700000000000001])) (by decide +kernel)
  refine ⟨σ, hσ, of_decide_eq_true hc, ?_⟩
  exact posted_in_nonce_order plainSigner (.fresh 1) (uuidText thisUser) hσ

/-- Two calls of one user. The second takes its nonce after the first, and posts before it. -/
def overtaking : List (Turn SignedCall Rat) :=
  [.spawn 0 balanceCall, .spawn 1 balanceCall, .act 0 100, .act 0 1700000000,
    .act 1 100, .act 1 101, .act 1 1700000001, .act 1 101, .act 0 101]

/-- The first call's request arrives with a nonce below the one that its user has used. -/
theorem nonce_overtaken :
    ∃ σ, Reaches (wire plainSigner) (wireCode plainSigner) (.start (.idle (.fresh 1))) σ ∧
      σ.world.postedFor (uuidText thisUser) = [1700000001000000, 1700000000000000] ∧
      ¬(σ.world.postedFor (uuidText thisUser)).Pairwise (· < ·) := by
  obtain ⟨σ, hσ, hc⟩ := reaches_of_replay (wireCode plainSigner) (wireResponder plainSigner)
    (.start (.idle (.fresh 1))) overtaking
    (fun σ => decide (σ.world.postedFor (uuidText thisUser) = [1700000001000000, 1700000000000000]))
    (by decide +kernel)
  have hposted := of_decide_eq_true hc
  refine ⟨σ, hσ, hposted, ?_⟩
  rw [hposted]
  decide

end Coinpilot.Safety
