import Coinpilot.Exchange.Limits
import Coinpilot.Lib.Handler
import Coinpilot.Lib.Pacing
import Mathlib.Data.List.Perm.Subperm

/-!
# The pace of one bucket

Any number of calls run at once over one limiter, signed ones and public ones. A call reserves its
slot, sleeps outside the guard and then sends, and the scheduler may hold it up anywhere. A bucket never
sends faster than its slots come (`calls_paced`), and no call waits for another bucket: it waits for the
calls of its own that are still to come.
-/

set_option autoImplicit false

namespace Coinpilot.Safety.Pace

open Coinpilot.Lib Coinpilot.Lib.Program Coinpilot.Exchange

/-! ## The two ways in -/

/-- Every unauthenticated call shares this bucket. -/
def PUBLIC_BUCKET : String := "__public__"

/-- A request without a key. -/
structure PublicCall where
  endpoint : String
  params : List (String × String)

/-- What a call asks of the limiter, of the clock and of the transport. A request without a key is got,
one with a key is posted. -/
abbrev NetOp : Type := WireOp ⊕ PublicCall

abbrev NetAns : NetOp → Type := Sum.elim WireAns fun _ => Option Json

abbrev Net : Type → Type := Proc NetOp NetAns Unit PrivateFailure

/-- An operation of a signed call. -/
abbrev onWire : Handler WireAns NetAns := leftward fun _ : PublicCall => Option Json

/-- `_public`, up to `_safely`. -/
def publicCall (c : PublicCall) : Net Json := do
  let wait ← (perform (WireOp.waitTurn PUBLIC_BUCKET) : Wire Rat).through onWire
  (pause wait).through onWire
  attempt (Sum.inr c : NetOp) readBody

/-- One call of some client. -/
inductive NetCall where
  | signed (c : SignedCall)
  | plain (c : PublicCall)

def netCode (sign : Signer) : NetCall → Prog NetOp NetAns (Except PrivateFailure Json × Unit)
  | .signed c => ((signedCall sign c).through onWire).exec ()
  | .plain c => (publicCall c).exec ()

/-! ## Slots and clocks -/

/-- A slot that a call has reserved. -/
structure Reserved where
  who : Nat
  bucket : String
  slot : Rat

/-- A request, and when it was sent. -/
structure Sent where
  who : Nat
  bucket : String
  time : Rat

/-- The limiter and the monotonic clock, when the last operation of each call ended, and what was
reserved and sent, first to last. -/
structure Airtime where
  limiter : KeyLimiter
  time : Rat
  since : Nat → Rat
  reserved : List Reserved
  sent : List Sent

namespace Airtime

/-- Before the first call. -/
def idle (limiter : KeyLimiter) (start : Rat) : Airtime := ⟨limiter, start, fun _ => start, [], []⟩

/-- An operation of a call ends. -/
def elapse (w : Airtime) (i : Nat) (t : Rat) : Airtime :=
  { w with time := t, since := Function.update w.since i t }

/-- A call reserves its slot. -/
def reserve (w : Airtime) (i : Nat) (bucket : String) : Airtime :=
  let turn := w.limiter.waitTurn w.time bucket
  { w with limiter := turn.2, reserved := w.reserved ++ [⟨i, bucket, w.time + max turn.1 0⟩] }

/-- A call takes a nonce. -/
def numbered (w : Airtime) (clock : Rat) (bucket : String) : Airtime :=
  { w with limiter := (w.limiter.nextNonce clock bucket).2 }

/-- A call sends its request. -/
def send (w : Airtime) (i : Nat) (bucket : String) : Airtime :=
  { w with sent := w.sent ++ [⟨i, bucket, w.time⟩] }

/-- The slots of a bucket, first to last. -/
def slots (w : Airtime) (b : String) : List Rat := (w.reserved.filter (·.bucket = b)).map Reserved.slot

/-- When the requests of a bucket were sent, first to last. -/
def sentFor (w : Airtime) (b : String) : List Rat := (w.sent.filter (·.bucket = b)).map Sent.time

end Airtime

/-- Any delays and any answers. The monotonic clock does not go back, and a sleep lasts as long as it was
asked to at least. -/
def clocked : Semantics NetOp NetAns NetCall Airtime where
  step i _ o w b w' := ∃ t, w.time ≤ t ∧
    match o, b with
    | .inl (.waitTurn bucket), wait =>
        wait = (w.limiter.waitTurn t bucket).1 ∧ w' = (w.elapse i t).reserve i bucket
    | .inl (.sleep seconds), _ => w.since i + seconds ≤ t ∧ w' = w.elapse i t
    | .inl (.nextNonce bucket), nonce =>
        ∃ clock, nonce = (w.limiter.nextNonce clock bucket).1 ∧ w' = (w.elapse i t).numbered clock bucket
    | .inl (.post bucket _), _ => w' = (w.elapse i t).send i bucket
    | .inr _, _ => w' = (w.elapse i t).send i PUBLIC_BUCKET
  env w w' := ∃ t, w.time ≤ t ∧ w' = { w with time := t }
  died _ w := w

/-! ## The invariant -/

/-- The limiter and what was sent, against the slots. -/
structure Timetable (interval start : Rat) (w : Airtime) : Prop where
  begun : start ≤ w.time
  kept : w.limiter.minInterval = interval
  last : ∀ b, w.limiter.lastCall b = (w.slots b).getLast?
  paced : ∀ b, Paced interval start (w.slots b)
  prompt : ∀ b, Prompt interval w.time (w.slots b)
  once : (w.sent.map Sent.who).Nodup
  held : ∀ x ∈ w.sent, x.time ≤ w.time ∧
    ∃ r ∈ w.reserved, r.who = x.who ∧ r.bucket = x.bucket ∧ r.slot ≤ x.time
  sentPaced : ∀ b, Paced interval start (w.sentFor b)

/-- A call that has sent nothing. -/
def Unsent (i : Nat) (w : Airtime) : Prop := ∀ x ∈ w.sent, x.who ≠ i

/-- The slot of a call has come. -/
def Due (i : Nat) (b : String) (w : Airtime) : Prop :=
  ∃ r ∈ w.reserved, r.who = i ∧ r.bucket = b ∧ r.slot ≤ w.time

section Keeping

variable {interval start : Rat} {w : Airtime} {i : Nat}

theorem timetable_idle (limiter : KeyLimiter) (hfresh : ∀ b, limiter.lastCall b = none) (start : Rat) :
    Timetable limiter.minInterval start (.idle limiter start) where
  begun := le_rfl
  kept := rfl
  last := hfresh
  paced _ := paced_nil
  prompt _ := prompt_nil
  once := List.nodup_nil
  held := by simp [Airtime.idle]
  sentPaced _ := paced_nil

/-- Time passes, and the limiter keeps its slots. -/
theorem Timetable.later (h : Timetable interval start w) {w' : Airtime} (ht : w.time ≤ w'.time)
    (hinterval : w'.limiter.minInterval = w.limiter.minInterval)
    (hlast : w'.limiter.lastCall = w.limiter.lastCall) (hreserved : w'.reserved = w.reserved)
    (hsent : w'.sent = w.sent) : Timetable interval start w' := by
  have hslots : ∀ b, w'.slots b = w.slots b := fun b => by rw [Airtime.slots, hreserved, Airtime.slots]
  have hfor : ∀ b, w'.sentFor b = w.sentFor b := fun b => by rw [Airtime.sentFor, hsent, Airtime.sentFor]
  constructor
  · exact le_trans h.begun ht
  · exact hinterval.trans h.kept
  · intro b
    rw [hlast, hslots]
    exact h.last b
  · intro b
    rw [hslots]
    exact h.paced b
  · intro b
    rw [hslots]
    exact (h.prompt b).later ht
  · rw [hsent]
    exact h.once
  · intro x hx
    rw [hsent] at hx
    obtain ⟨hpast, hheld⟩ := h.held x hx
    rw [hreserved]
    exact ⟨le_trans hpast ht, hheld⟩
  · intro b
    rw [hfor]
    exact h.sentPaced b

theorem Timetable.elapse (h : Timetable interval start w) {t : Rat} (ht : w.time ≤ t) :
    Timetable interval start (w.elapse i t) :=
  h.later ht rfl rfl rfl rfl

/-- The slot that the limiter gives is the next one of its bucket. -/
theorem slot_eq (h : Timetable interval start w) (b : String) :
    w.time + max (w.limiter.waitTurn w.time b).1 0 = nextSlotAt interval w.time (w.slots b).getLast? := by
  rw [← h.last b, KeyLimiter.waitTurn]
  dsimp only
  cases w.limiter.lastCall b with
  | none => simp [nextSlotAt]
  | some previous =>
    rw [h.kept, nextSlotAt, max_comm (w.time), ← max_add_add_left]
    congr 1
    · ring
    · ring

theorem slots_reserve (h : Timetable interval start w) (i : Nat) (bucket b : String) :
    (w.reserve i bucket).slots b =
      if b = bucket then w.slots b ++ [nextSlotAt interval w.time (w.slots b).getLast?] else w.slots b := by
  let next : Reserved := ⟨i, bucket, w.time + max (w.limiter.waitTurn w.time bucket).1 0⟩
  have hslots : (w.reserve i bucket).slots b =
      ((w.reserved ++ [next]).filter (·.bucket = b)).map Reserved.slot := rfl
  have hnext : next = ⟨i, bucket, nextSlotAt interval w.time (w.slots bucket).getLast?⟩ :=
    congrArg (Reserved.mk i bucket) (slot_eq h bucket)
  rw [hslots, hnext, List.filter_append, List.map_append]
  by_cases hb : b = bucket
  · subst hb
    rw [if_pos rfl]
    simp [Airtime.slots]
  · rw [if_neg hb]
    simp [Airtime.slots, Ne.symm hb]

/-- A slot more, at its pace. -/
theorem Timetable.reserve (h : Timetable interval start w) (hinterval : 0 ≤ interval) (i : Nat)
    (bucket : String) : Timetable interval start (w.reserve i bucket) := by
  have hlimiter : ∀ b, (w.reserve i bucket).limiter.lastCall b =
      if b = bucket then some (w.time + max (w.limiter.waitTurn w.time bucket).1 0)
      else w.limiter.lastCall b := by
    intro b
    by_cases hb : b = bucket
    · subst hb
      simp [Airtime.reserve, KeyLimiter.waitTurn]
    · simp [Airtime.reserve, KeyLimiter.waitTurn, hb]
  constructor
  · exact h.begun
  · exact h.kept
  · intro b
    rw [hlimiter, slots_reserve h]
    by_cases hb : b = bucket
    · subst hb
      rw [if_pos rfl, if_pos rfl, List.getLast?_concat, slot_eq h]
    · rw [if_neg hb, if_neg hb]
      exact h.last b
  · intro b
    rw [slots_reserve h]
    split
    · exact paced_reserve (h.paced b) h.begun
    · exact h.paced b
  · intro b
    rw [slots_reserve h]
    split
    · exact prompt_reserve (h.prompt b) hinterval
    · exact h.prompt b
  · exact h.once
  · intro x hx
    obtain ⟨hpast, r, hr, hheld⟩ := h.held x hx
    exact ⟨hpast, r, List.mem_append_left _ hr, hheld⟩
  · exact h.sentPaced

/-- As many slots of a bucket have come as it has sent requests, and one more when another is due. -/
theorem sent_lt_slots (h : Timetable interval start w) {b : String} (hunsent : Unsent i w) (hdue : Due i b w) :
    (w.sentFor b).length < (w.slots b).countP fun s => s ≤ w.time := by
  obtain ⟨own, hown, hwho, hbucket, hcome⟩ := hdue
  let due := w.reserved.filter fun r => r.bucket = b ∧ r.slot ≤ w.time
  let users := i :: (w.sent.filter (·.bucket = b)).map Sent.who
  have hcount : (w.slots b).countP (fun s => s ≤ w.time) = due.length := by
    rw [Airtime.slots, List.countP_map, List.countP_eq_length_filter, List.filter_filter]
    congr 1
    refine List.filter_congr fun r _ => ?_
    simp [Bool.and_comm]
  have hnodup : users.Nodup := by
    refine List.nodup_cons.mpr ⟨?_, h.once.sublist (List.filter_sublist.map _)⟩
    intro hi
    obtain ⟨x, hx, hxi⟩ := List.mem_map.mp hi
    exact hunsent x (List.mem_filter.mp hx).1 hxi
  have hsub : users ⊆ due.map Reserved.who := by
    intro j hj
    rcases List.mem_cons.mp hj with rfl | hj
    · exact List.mem_map.mpr ⟨own, List.mem_filter.mpr ⟨hown, by simp [hbucket, hcome]⟩, hwho⟩
    · obtain ⟨x, hx, rfl⟩ := List.mem_map.mp hj
      obtain ⟨hx, hxb⟩ := List.mem_filter.mp hx
      obtain ⟨hpast, r, hr, hrx, hrb, hslot⟩ := h.held x hx
      refine List.mem_map.mpr ⟨r, List.mem_filter.mpr ⟨hr, ?_⟩, hrx⟩
      simp only [decide_eq_true_eq] at hxb ⊢
      exact ⟨hrb.trans hxb, le_trans hslot hpast⟩
  have hle := (hnodup.subperm hsub).length_le
  rw [hcount]
  have husers : users.length = (w.sentFor b).length + 1 := by simp [users, Airtime.sentFor]
  rw [List.length_map] at hle
  omega

/-- A request that is due keeps the pace of its bucket. -/
theorem Timetable.send (h : Timetable interval start w) (hinterval : 0 ≤ interval) {bucket : String}
    (hunsent : Unsent i w) (hdue : Due i bucket w) : Timetable interval start (w.send i bucket) := by
  constructor
  · exact h.begun
  · exact h.kept
  · exact h.last
  · exact h.paced
  · exact h.prompt
  · rw [Airtime.send, List.map_append]
    refine List.Nodup.append h.once (by simp) ?_
    intro j hj hji
    obtain ⟨x, hx, rfl⟩ := List.mem_map.mp hj
    exact hunsent x hx (by simpa using hji)
  · intro x hx
    rcases List.mem_append.mp hx with hx | hx
    · exact h.held x hx
    · rw [List.mem_singleton.mp hx]
      exact ⟨le_rfl, hdue⟩
  · intro b
    have hfor : (w.send i bucket).sentFor b = w.sentFor b ++ if bucket = b then [w.time] else [] := by
      by_cases hb : bucket = b
      · simp [Airtime.sentFor, Airtime.send, hb]
      · simp [Airtime.sentFor, Airtime.send, hb]
    rw [hfor]
    split
    · rename_i hb
      subst hb
      exact paced_append (h.sentPaced bucket)
        ((h.paced bucket).le_of_lt_countP hinterval (sent_lt_slots h hunsent hdue))
    · rw [List.append_nil]
      exact h.sentPaced b

end Keeping

/-! ## What one call relies on -/

section Calling

variable {interval start : Rat} {sign : Signer} {w : Airtime} {i : Nat} {c : NetCall}

theorem Due.elapse {b : String} (h : Due i b w) {t : Rat} (ht : w.time ≤ t) : Due i b (w.elapse i t) := by
  obtain ⟨r, hr, hwho, hbucket, hcome⟩ := h
  exact ⟨r, hr, hwho, hbucket, le_trans hcome ht⟩

/-- What one call does, another call sees. -/
theorem others_see {j : Nat} (hj : j ≠ i) {t : Rat} (ht : w.time ≤ t) {w' : Airtime} (htime : w'.time = t)
    (hsince : w'.since = (w.elapse i t).since) (hreserved : ∀ r ∈ w.reserved, r ∈ w'.reserved)
    (hsent : ∀ x ∈ w'.sent, x ∈ w.sent ∨ x.who = i) :
    w.time ≤ w'.time ∧ w'.since j = w.since j ∧ (∀ r ∈ w.reserved, r ∈ w'.reserved) ∧
      (Unsent j w → Unsent j w') := by
  refine ⟨htime ▸ ht, ?_, hreserved, ?_⟩
  · rw [hsince]
    exact Function.update_of_ne hj _ _
  · intro hunsent x hx
    rcases hsent x hx with hx | hx
    · exact hunsent x hx
    · rw [hx]
      exact Ne.symm hj

/-- Time passes, what is reserved stays reserved, and no call sends for another. A request is sent once,
when its slot has come. -/
abbrev pacing (interval start : Rat) (hinterval : 0 ≤ interval) : Contract clocked where
  inv := Timetable interval start
  rely i w w' := w.time ≤ w'.time ∧ w'.since i = w.since i ∧ (∀ r ∈ w.reserved, r ∈ w'.reserved) ∧
    (Unsent i w → Unsent i w')
  guard i _ o w := match o with
    | .inl (.post bucket _) => Unsent i w ∧ Due i bucket w
    | .inr _ => Unsent i w ∧ Due i PUBLIC_BUCKET w
    | _ => True
  rely_refl _ _ := ⟨le_rfl, rfl, fun _ h => h, id⟩
  rely_trans h₁ h₂ := ⟨le_trans h₁.1 h₂.1, h₂.2.1.trans h₁.2.1,
    fun r hr => h₂.2.2.1 r (h₁.2.2.1 r hr), h₂.2.2.2 ∘ h₁.2.2.2⟩
  env_ok := by
    rintro w _ hw ⟨t, ht, rfl⟩
    exact ⟨hw.later ht rfl rfl rfl rfl, fun i => ⟨ht, rfl, fun _ h => h, id⟩⟩
  died_ok h := ⟨h, fun _ _ => ⟨le_rfl, rfl, fun _ h => h, id⟩⟩
  step_ok := by
    rintro i c o w b w' hw hg ⟨t, ht, hs⟩
    have hlater : Timetable interval start (w.elapse i t) := hw.elapse ht
    have hsends : ∀ bucket, Unsent i w ∧ Due i bucket w → w' = (w.elapse i t).send i bucket →
        Timetable interval start w' ∧ ∀ j, j ≠ i → w.time ≤ w'.time ∧ w'.since j = w.since j ∧
          (∀ r ∈ w.reserved, r ∈ w'.reserved) ∧ (Unsent j w → Unsent j w') := by
      rintro bucket ⟨hunsent, hdue⟩ rfl
      refine ⟨hlater.send hinterval hunsent (hdue.elapse ht), fun j hj => ?_⟩
      refine others_see hj ht rfl rfl (fun _ h => h) fun x hx => ?_
      rcases List.mem_append.mp hx with hx | hx
      · exact Or.inl hx
      · rw [List.mem_singleton.mp hx]
        exact Or.inr rfl
    cases o with
    | inr call => exact hsends PUBLIC_BUCKET hg hs
    | inl o =>
      cases o with
      | waitTurn bucket =>
        obtain ⟨-, rfl⟩ := hs
        refine ⟨hlater.reserve hinterval i bucket, fun j hj => ?_⟩
        exact others_see hj ht rfl rfl (fun r hr => List.mem_append_left _ hr) fun x hx => Or.inl hx
      | sleep seconds =>
        obtain ⟨-, rfl⟩ := hs
        exact ⟨hlater, fun j hj => others_see hj ht rfl rfl (fun _ h => h) fun x hx => Or.inl hx⟩
      | nextNonce bucket =>
        obtain ⟨clock, -, rfl⟩ := hs
        refine ⟨hlater.later le_rfl rfl rfl rfl rfl, fun j hj => ?_⟩
        exact others_see hj ht rfl rfl (fun _ h => h) fun x hx => Or.inl hx
      | post bucket request => exact hsends bucket hg hs

variable {hinterval : 0 ≤ interval}

/-- A call that has its slot and has not slept yet. -/
def Slotted (i : Nat) (b : String) (wait : Rat) (w : Airtime) : Prop :=
  w.since i ≤ w.time ∧ ∃ r ∈ w.reserved, r.who = i ∧ r.bucket = b ∧ r.slot = w.since i + max wait 0

theorem unsent_stable (i : Nat) : (pacing interval start hinterval).Stable i (Unsent i) :=
  fun h hr _ => hr.2.2.2 h

theorem slotted_stable (i : Nat) (b : String) (wait : Rat) :
    (pacing interval start hinterval).Stable i (Slotted i b wait) := by
  rintro w w' ⟨hsince, r, hr, hwho, hbucket, hslot⟩ ⟨htime, hsame, hreserved, -⟩ -
  rw [Slotted, hsame]
  exact ⟨le_trans hsince htime, r, hreserved r hr, hwho, hbucket, hslot⟩

theorem due_stable (i : Nat) (b : String) : (pacing interval start hinterval).Stable i (Due i b) := by
  rintro w w' ⟨r, hr, hwho, hbucket, hcome⟩ ⟨htime, -, hreserved, -⟩ -
  exact ⟨r, hreserved r hr, hwho, hbucket, le_trans hcome htime⟩

/-- A call reserves its slot. -/
theorem wp_turn {bucket : String} {Q : Except PrivateFailure Rat → Unit → Airtime → Prop} {l : Unit}
    (h : Unsent i w) (hQ : ∀ wait w', Unsent i w' → Slotted i bucket wait w' → Q (.ok wait) l w') :
    ((perform (WireOp.waitTurn bucket) : Wire Rat).through onWire).Wp (pacing interval start hinterval) i c Q
      l w := by
  refine wp_through_perform fun w₁ hr hi => ⟨trivial, ?_⟩
  rintro wait w₂ ⟨t, ht, rfl, rfl⟩ -
  have h₁ : Unsent i w₁ := unsent_stable i h hr hi
  refine hQ _ _ h₁ ⟨?_, ⟨i, bucket, _⟩, List.mem_append_right _ (List.mem_singleton_self _), rfl, rfl,
    ?_⟩
  · simp [Airtime.reserve, Airtime.elapse]
  · simp [Airtime.reserve, Airtime.elapse]

/-- It sleeps until its slot has come. -/
theorem wp_sleep {bucket : String} {wait : Rat} {Q : Except PrivateFailure Unit → Unit → Airtime → Prop}
    {l : Unit} (h : Unsent i w) (hslot : Slotted i bucket wait w)
    (hQ : ∀ w', Unsent i w' → Due i bucket w' → Q (.ok ()) l w') :
    ((pause wait).through onWire).Wp (pacing interval start hinterval) i c Q l w := by
  rw [pause]
  split
  · rename_i hwait
    refine wp_through_perform fun w₁ hr hi => ⟨trivial, ?_⟩
    rintro _ w₂ ⟨t, ht, hslept, rfl⟩ -
    obtain ⟨-, r, hr', hwho, hbucket, hat⟩ := slotted_stable i bucket wait hslot hr hi
    have h₁ : Unsent i w₁ := unsent_stable i h hr hi
    refine hQ _ h₁ ⟨r, hr', hwho, hbucket, ?_⟩
    rw [hat, max_eq_left (le_of_lt hwait)]
    exact hslept
  · rename_i hwait
    obtain ⟨hsince, r, hr, hwho, hbucket, hat⟩ := hslot
    refine hQ w h ⟨r, hr, hwho, hbucket, ?_⟩
    rw [hat, max_eq_right (le_of_not_gt hwait), add_zero]
    exact hsince

/-- From the nonce on, nothing is left but to send. -/
theorem wp_sends {bucket : String} {credentials : Credentials} {call : PrivateCall} {nonce : Int} {l : Unit}
    (h : Unsent i w) (hdue : Due i bucket w) :
    ((postSigned sign bucket credentials call nonce).through onWire).Wp (pacing interval start hinterval) i c
      (fun _ _ _ => True) l w := by
  rw [postSigned]
  cases signedRequest sign credentials call nonce with
  | none => trivial
  | some request =>
    refine wp_through_attempt fun w₁ hr hi => ⟨?_, ?_⟩
    · exact ⟨unsent_stable i h hr hi, due_stable i bucket hdue hr hi⟩
    · exact fun _ _ _ _ => trivial

/-- Every call sends when its slot has come. -/
theorem wp_netCode (h : Unsent i w) : Prog.Wp (pacing interval start hinterval) i c (netCode sign c)
    (fun _ _ => True) w := by
  cases c with
  | signed call =>
    change ((signedCall sign call).through onWire).Wp _ i _ (fun _ _ _ => True) () w
    rw [signedCall]
    cases call.client.credentials with
    | none => trivial
    | some credentials =>
      refine wp_through_bind (wp_turn h fun wait w₁ h₁ hslot => ?_)
      refine wp_through_bind (wp_sleep h₁ hslot fun w₂ h₂ hdue => ?_)
      refine wp_through_bind (wp_through_perform fun w₃ hr hi => ⟨trivial, ?_⟩)
      rintro nonce w₄ ⟨t, ht, clock, -, rfl⟩ -
      have h₃ : Unsent i w₃ := unsent_stable i h₂ hr hi
      have hdue₃ : Due i (call.client.bucketFor credentials) w₃ := due_stable i _ hdue hr hi
      exact wp_sends h₃ (hdue₃.elapse ht)
  | plain call =>
    change (publicCall call).Wp _ i _ (fun _ _ _ => True) () w
    rw [publicCall]
    refine wp_bind (wp_turn h fun wait w₁ h₁ hslot => ?_)
    refine wp_bind (wp_sleep h₁ hslot fun w₂ h₂ hdue => ?_)
    refine wp_attempt fun w₃ hr hi => ⟨?_, ?_⟩
    · exact ⟨unsent_stable i h₂ hr hi, due_stable i _ hdue hr hi⟩
    · exact fun _ _ _ _ => trivial

theorem pacing_covers (sign : Signer) (hinterval : 0 ≤ interval) :
    (pacing interval start hinterval).Covers (netCode sign) Unsent fun _ _ _ _ => True where
  fresh_stable i := unsent_stable i
  post_stable _ _ _ := fun _ _ _ => trivial
  code_ok _ _ _ _ h := wp_netCode h

end Calling

/-- However the calls interleave and however long each is held up: the request number `k` of a bucket
is sent no earlier than `k` intervals after the limiter was made, and a call that reserves its slot now
is asked to wait an interval at most for itself and for each call of its own bucket whose slot is still
to come. -/
theorem calls_paced (sign : Signer) {interval start : Rat} (hinterval : 0 ≤ interval)
    {σ : Config NetOp NetAns NetCall Airtime (Except PrivateFailure Json × Unit)}
    (h : Reaches clocked (netCode sign) (.start (.idle (.fresh interval) start)) σ) (b : String) :
    (∀ (k : Nat) (t : Rat), (σ.world.sentFor b)[k]? = some t → start + k * interval ≤ t) ∧
    (σ.world.limiter.waitTurn σ.world.time b).1 ≤
      (((σ.world.slots b).countP fun s => σ.world.time < s) + 1 : Nat) * interval := by
  have htable : Timetable interval start σ.world :=
    (Contract.sound (pacing_covers sign hinterval)
      (timetable_idle (.fresh interval) (fun _ => rfl) start) (fun i x hx => by cases hx) h).1
  constructor
  · intro k t ht
    rw [← nsmul_eq_mul]
    exact htable.sentPaced b k t ht
  · rw [← nsmul_eq_mul, KeyLimiter.waitTurn]
    dsimp only
    cases hlast : σ.world.limiter.lastCall b with
    | none => exact nsmul_nonneg hinterval _
    | some previous =>
      rw [htable.last b] at hlast
      rw [htable.kept]
      exact (htable.prompt b).wait_le hlast

/-! ## A run at given times -/

/-- An operation that ends at `t`, where it can. -/
def netReply (t : Rat) (i : Nat) : (o : NetOp) → Airtime → Option (NetAns o × Airtime)
  | .inl (.waitTurn bucket), w =>
      some ((w.limiter.waitTurn t bucket).1, (w.elapse i t).reserve i bucket)
  | .inl (.sleep seconds), w => if w.since i + seconds ≤ t then some ((), w.elapse i t) else none
  | .inl (.nextNonce bucket), w =>
      some ((w.limiter.nextNonce t bucket).1, (w.elapse i t).numbered t bucket)
  | .inl (.post bucket _), w => some (none, (w.elapse i t).send i bucket)
  | .inr _, w => some (none, (w.elapse i t).send i PUBLIC_BUCKET)

def netResponder : Responder clocked Rat where
  respond t i _ o w := if w.time ≤ t then netReply t i o w else none
  responds {t i c o w b w'} h := by
    obtain ⟨ht, h⟩ := Option.ite_none_right_eq_some.mp h
    refine ⟨t, ht, ?_⟩
    cases o with
    | inr call =>
      cases h
      rfl
    | inl o =>
      cases o with
      | waitTurn bucket =>
        cases h
        exact ⟨rfl, rfl⟩
      | sleep seconds =>
        obtain ⟨hslept, h⟩ := Option.ite_none_right_eq_some.mp h
        cases h
        exact ⟨hslept, rfl⟩
      | nextNonce bucket =>
        cases h
        exact ⟨t, rfl, rfl⟩
      | post bucket request =>
        cases h
        rfl

/-- A signer that signs everything. -/
def anySigner : Signer := fun path nonce _ secret => some (path ++ nonce ++ secret)

/-- A balance that is read for a user. -/
def userCall : NetCall := .signed ⟨⟨some ⟨"K1", "czE="⟩, some "user-1"⟩, .balance⟩

/-- Two calls of one user at once, and a price read meanwhile. The second call of the user sleeps for the
rest of the interval and is held up after that; the price read does not wait. -/
def heldUp : List (Turn NetCall Rat) :=
  [.spawn 0 userCall, .spawn 1 userCall, .spawn 2 (.plain ⟨"Ticker", []⟩), .act 0 10, .act 1 (41 / 4),
    .act 0 (21 / 2), .act 0 (21 / 2), .act 2 (21 / 2), .act 2 (43 / 4), .act 1 11, .act 1 (23 / 2), .act 1 12]

theorem calls_paced_heldUp :
    ∃ σ, Reaches clocked (netCode anySigner) (.start (.idle (.fresh 1) 10)) σ ∧
      σ.world.sentFor "user-1" = [21 / 2, 12] ∧ σ.world.sentFor PUBLIC_BUCKET = [43 / 4] ∧
      ∀ (k : Nat) (t : Rat), (σ.world.sentFor "user-1")[k]? = some t → (10 : Rat) + k * 1 ≤ t := by
  obtain ⟨σ, hσ, hc⟩ := reaches_of_replay (netCode anySigner) netResponder (.start (.idle (.fresh 1) 10))
    heldUp (fun σ => decide (σ.world.sentFor "user-1" = [21 / 2, 12] ∧
      σ.world.sentFor PUBLIC_BUCKET = [43 / 4])) (by decide +kernel)
  obtain ⟨huser, hpublic⟩ := of_decide_eq_true hc
  exact ⟨σ, hσ, huser, hpublic, (calls_paced anySigner (by decide) hσ "user-1").1⟩

end Coinpilot.Safety.Pace
