import Coinpilot.Core.Db.RefreshTokens
import Coinpilot.Lib.Commits
import Mathlib.Data.List.Pairwise

/-!
# Sign-ins side by side

Sign-ins, refreshes, logouts and sweeps on one table, a statement of one between the statements of the others.
A commit changes rows that age, and adds a token that is drawn or that follows the only live one of its family
(`Tidy`), so the families are kept (`Families`): one live token at most, and no token is traded in twice
(`usable_once`).

A revocation deals with every token that its query finds, and the query finds what is committed then. A token
that is live after its commit was committed since (`Revoked.survivor`), by a refresh of the family, so without
such a refresh the sign-in is over for good (`signed_out_for_good`). With one it is not
(`rotated_meanwhile_slips`).
-/

set_option autoImplicit false

namespace Coinpilot.Records

open Coinpilot.Lib Coinpilot.Lib.Program Coinpilot.Lib.ReadCommitted Coinpilot.Core Coinpilot.Core.RefreshTokens
open Coinpilot.Core.Refresh (FamilyId IssuedRefresh RefreshAnswer RefreshExn RefreshFailure RefreshToken)

abbrev TokenRows (H : Type) : Type := Rows H (RefreshToken H)

abbrev TokenHistory (H : Type) : Type := StoreHistory H (RefreshToken H) SignInCall

abbrev TokenEvent (H : Type) : Type := Answered H (RefreshToken H) SignInCall

/-! ## What the commits do -/

section Events

variable {H : Type}

/-- What a row may become: nothing that was used or revoked is not so later. -/
structure Ages (token new : RefreshToken H) : Prop where
  userId : new.userId = token.userId
  familyId : new.familyId = token.familyId
  expiresAt : new.expiresAt = token.expiresAt
  used : token.usedAt ≠ none → new.usedAt ≠ none
  revoked : token.revokedAt ≠ none → new.revokedAt ≠ none

theorem Ages.refl (token : RefreshToken H) : Ages token token := ⟨rfl, rfl, rfl, id, id⟩

theorem Ages.trans {token mid new : RefreshToken H} (h : Ages token mid) (h' : Ages mid new) : Ages token new :=
  ⟨h'.userId.trans h.userId, h'.familyId.trans h.familyId, h'.expiresAt.trans h.expiresAt,
    fun hused => h'.used (h.used hused), fun hrevoked => h'.revoked (h.revoked hrevoked)⟩

/-- A row that is live was live. -/
theorem Ages.live {token new : RefreshToken H} (h : Ages token new) (hlive : new.Live) : token.Live :=
  ⟨by_contra fun hused => h.used hused hlive.1, by_contra fun hrevoked => h.revoked hrevoked hlive.2⟩

theorem ages_used (token : RefreshToken H) (now : Moment) : Ages token { token with usedAt := some now } :=
  ⟨rfl, rfl, rfl, fun _ => by simp, id⟩

theorem ages_revoked (token : RefreshToken H) (now : Moment) :
    Ages token { token with revokedAt := some now } :=
  ⟨rfl, rfl, rfl, id, fun _ => by simp⟩

/-- No token of the family is live. -/
def Dead (rows : TokenRows H) (familyId : FamilyId) : Prop :=
  ∀ tokenHash token, rows tokenHash = some token → token.familyId = familyId → ¬token.Live

/-- The commit finds tokens of the family, and leaves no live one. -/
structure Ends (familyId : FamilyId) (e : TokenEvent H) : Prop where
  found : ∃ tokenHash token, e.before.rows tokenHash = some token ∧ token.familyId = familyId
  dead : Dead (e.before.view e.who) familyId

variable (hash : String → H)

/-- The token that is presented is committed, live and not expired, and the transaction uses it. -/
structure Uses (presented : String) (now : Moment) (w : Store H (RefreshToken H)) (i : Nat)
    (token : RefreshToken H) : Prop where
  row : w.rows (hash presented) = some token
  live : token.Live
  early : now.instant < token.expiresAt.instant
  used : ∃ used, w.drafts i (hash presented) = some (some used) ∧ used.usedAt ≠ none

/-- A refresh accepts the token that is presented. -/
def Accepts (presented : String) (e : TokenEvent H) : Prop :=
  e.op = .commit ∧ ∃ now value active token, e.call = .refresh presented now value active ∧
    Uses hash presented now e.before e.who token

/-- A refresh accepts a token of the family and commits the next one. -/
def Rotates (familyId : FamilyId) (e : TokenEvent H) : Prop :=
  ∃ presented now value active token new, e.op = .commit ∧ e.call = .refresh presented now value active ∧
    Uses hash presented now e.before e.who token ∧ token.familyId = familyId ∧
    e.before.rows (hash value) = none ∧ e.before.drafts e.who (hash value) = some (some new) ∧
    new.familyId = familyId

/-- Where the new row of a transaction comes from. -/
def Born (c : SignInCall) (w : Store H (RefreshToken H)) (i : Nat) (tokenHash : H) (new : RefreshToken H) :
    Prop :=
  match c with
  | .signIn _ _ _ familyId value => tokenHash = hash value ∧ new.familyId = familyId
  | .refresh presented now value _ => tokenHash = hash value ∧ ∃ token, Uses hash presented now w i token ∧
      new.userId = token.userId ∧ new.familyId = token.familyId ∧ new.expiresAt = token.expiresAt
  | _ => False

/-- Whatever a transaction has changed is a row that has aged, a row less, or one row that is new. -/
structure Tidy (i : Nat) (c : SignInCall) (r : TokenHistory H) : Prop where
  hashed : ∀ tokenHash new, r.now.drafts i tokenHash = some (some new) → new.tokenHash = tokenHash
  aged : ∀ tokenHash token new, r.now.rows tokenHash = some token →
    r.now.drafts i tokenHash = some (some new) → Ages token new
  born : ∀ tokenHash new, r.now.rows tokenHash = none → r.now.drafts i tokenHash = some (some new) →
    Born hash c r.now i tokenHash new

/-! ## The random values -/

/-- The row is of this hash. -/
def OfHash (tokenHash : H) (other : H) (_ : RefreshToken H) : Prop := other = tokenHash

/-- The row is of this family. -/
def OfFamily (familyId : FamilyId) (_ : H) (token : RefreshToken H) : Prop := token.familyId = familyId

instance [DecidableEq H] (tokenHash other : H) (token : RefreshToken H) :
    Decidable (OfHash tokenHash other token) := inferInstanceAs (Decidable (_ = _))

instance (familyId : FamilyId) (other : H) (token : RefreshToken H) : Decidable (OfFamily familyId other token) :=
  inferInstanceAs (Decidable (_ = _))

/-- The family of the row is of no row that was seen. -/
def NewFamily (r : TokenHistory H) (familyId : FamilyId) : Prop :=
  (∀ other ∈ r.now.keys, ∀ token ∈ r.now.rows other, token.familyId ≠ familyId) ∧
    ∀ e ∈ commits r.past, ¬Shows (OfFamily familyId) e

instance (r : TokenHistory H) (familyId : FamilyId) : Decidable (NewFamily r familyId) :=
  inferInstanceAs (Decidable (_ ∧ _))

/-- The random values of what is committed are new: the hash of a new token is of no row that there was, nor
is the family of a sign-in. -/
def Draws (i : Nat) (c : SignInCall) (s : Stmt H (RefreshToken H)) (r : TokenHistory H) : Prop :=
  s.isCommit = true → ∀ tokenHash ∈ r.now.keys, ∀ new ∈ (r.now.drafts i tokenHash).join,
    r.now.rows tokenHash = none → (∀ e ∈ commits r.past, ¬Shows (OfHash tokenHash) e) ∧
      (c.isSignIn = true → NewFamily r new.familyId)

instance [DecidableEq H] (i : Nat) (c : SignInCall) (s : Stmt H (RefreshToken H)) (r : TokenHistory H) :
    Decidable (Draws i c s r) := by
  unfold Draws
  infer_instance

end Events


/-! ## The law of the families -/

section Law

variable {H : Type} (hash : String → H)

/-- No token is accepted at both commits. -/
def Apart (e e' : TokenEvent H) : Prop := ∀ v w, Accepts hash v e → Accepts hash w e' → hash v ≠ hash w

instance : Std.Symm (Apart hash) := ⟨fun _ _ h v w hv hw heq => h w v hw hv heq.symm⟩

/-- What the commits have left. -/
structure Families (rows : TokenRows H) (cs : List (TokenEvent H)) : Prop where
  one : ∀ k l token other, rows k = some token → rows l = some other → token.familyId = other.familyId →
    token.Live → other.Live → k = l
  same : ∀ k l token other, rows k = some token → rows l = some other → token.familyId = other.familyId →
    token.userId = other.userId ∧ token.expiresAt = other.expiresAt
  hashed : ∀ k token, rows k = some token → token.tokenHash = k
  sound : ∀ e ∈ cs, e.before.Sound
  spent : ∀ e ∈ cs, ∀ k new, e.before.drafts e.who k = some (some new) → ¬new.Live →
    ∀ token, rows k = some token → ¬token.Live
  once : cs.Pairwise (Apart hash)
  dead : ∀ e ∈ cs, ∀ familyId, Ends familyId e → Dead rows familyId
  refused : cs.Pairwise fun later e => ∀ familyId, Ends familyId e → Dead later.before.rows familyId

/-- How the committed rows go on: a row that is gone stays gone, a row ages, and a row is added by a refresh of
its family, or its family is new. -/
structure Onwards (a b : Committed H (RefreshToken H) SignInCall) : Prop where
  since : ∃ es, b.commits = es ++ a.commits ∧ ∀ k token, a.rows k = none → b.rows k = some token →
    (∃ e ∈ es, Rotates hash token.familyId e) ∨ ¬Seen (OfFamily token.familyId) a
  seen : ∀ p : H → RefreshToken H → Prop, Seen p a → Seen p b
  gone : ∀ k, Seen (OfHash k) a → a.rows k = none → b.rows k = none
  ages : ∀ k token new, a.rows k = some token → b.rows k = some new → Ages token new

theorem Onwards.refl (a : Committed H (RefreshToken H) SignInCall) : Onwards hash a a where
  since := ⟨[], rfl, fun k token hnone hrow => by rw [hnone] at hrow; cases hrow⟩
  seen _ h := h
  gone _ _ h := h
  ages k token new hrow hnew := by
    rw [hrow] at hnew
    exact Option.some.inj hnew ▸ Ages.refl token

theorem seen_of_row {a : Committed H (RefreshToken H) SignInCall} {k : H} {token : RefreshToken H}
    (h : a.rows k = some token) : Seen (OfHash k) a := .inl ⟨k, token, h, rfl⟩

variable {hash}

theorem Onwards.trans {a b c : Committed H (RefreshToken H) SignInCall} (h : Onwards hash a b)
    (h' : Onwards hash b c) : Onwards hash a c where
  since := by
    obtain ⟨es, hes, hadded⟩ := h.since
    obtain ⟨es', hes', hadded'⟩ := h'.since
    refine ⟨es' ++ es, by rw [hes', hes, List.append_assoc], fun k token hnone hrow => ?_⟩
    cases hmid : b.rows k with
    | none =>
      rcases hadded' k token hmid hrow with ⟨e, he, hrotates⟩ | hnew
      · exact .inl ⟨e, List.mem_append_left _ he, hrotates⟩
      · exact .inr fun hseen => hnew (h.seen _ hseen)
    | some mid =>
      rw [(h'.ages k mid token hmid hrow).familyId]
      rcases hadded k mid hnone hmid with ⟨e, he, hrotates⟩ | hnew
      · exact .inl ⟨e, List.mem_append_right _ he, hrotates⟩
      · exact .inr hnew
  seen p hseen := h'.seen p (h.seen p hseen)
  gone k hseen hnone := h'.gone k (h.seen _ hseen) (h.gone k hseen hnone)
  ages k token new hrow hnew := by
    cases hmid : b.rows k with
    | none =>
      rw [h'.gone k (h.seen _ (seen_of_row hrow)) hmid] at hnew
      cases hnew
    | some mid => exact (h.ages k token mid hrow hmid).trans (h'.ages k mid new hmid hnew)

variable (hash)

def tokenLaw : CommitLaw H (RefreshToken H) SignInCall where
  ok := Families hash
  onward := Onwards hash
  refl := Onwards.refl hash
  trans := Onwards.trans

variable [DecidableEq H]

abbrev tokenRules : Contract ((semantics H (RefreshToken H) SignInCall).recorded.given Draws) :=
  (tokenLaw hash).rules Draws

end Law

/-! ## What a transaction may commit -/

section Commits

variable {H : Type} {hash : String → H} {i : Nat} {c : SignInCall} {r : TokenHistory H}

theorem Dead.not_uses {w : Store H (RefreshToken H)} {presented : String} {now : Moment} {token : RefreshToken H}
    (h : Dead w.rows token.familyId) : ¬Uses hash presented now w i token :=
  fun huses => h _ token huses.row rfl huses.live

/-- A row that the transaction sees has aged, or is new. -/
theorem Tidy.found {k : H} {new : RefreshToken H} (h : Tidy hash i c r) (hview : r.now.view i k = some new) :
    (∃ token, r.now.rows k = some token ∧ Ages token new) ∨
      r.now.rows k = none ∧ r.now.drafts i k = some (some new) ∧ Born hash c r.now i k new := by
  cases hdraft : r.now.drafts i k with
  | none =>
    rw [Store.view, hdraft] at hview
    exact .inl ⟨new, hview, Ages.refl new⟩
  | some d =>
    have hd : d = some new := by simpa [Store.view, hdraft] using hview
    subst hd
    cases hrow : r.now.rows k with
    | none => exact .inr ⟨rfl, rfl, h.born k new hrow hdraft⟩
    | some token => exact .inl ⟨token, rfl, h.aged k token new hrow hdraft⟩

theorem Tidy.tokenHash {k : H} {new : RefreshToken H} (h : Tidy hash i c r)
    (hok : Families hash r.now.rows (commits r.past)) (hview : r.now.view i k = some new) :
    new.tokenHash = k := by
  cases hdraft : r.now.drafts i k with
  | none =>
    rw [Store.view, hdraft] at hview
    exact hok.hashed k new hview
  | some d =>
    have hd : d = some new := by simpa [Store.view, hdraft] using hview
    exact h.hashed k new (hd ▸ hdraft)

/-- The draws of a transaction that commits a new row. -/
theorem drawn {k : H} {new : RefreshToken H} (hs : r.now.Sound) (hdraws : Draws i c .commit r)
    (hnone : r.now.rows k = none) (hdraft : r.now.drafts i k = some (some new)) :
    ¬Seen (OfHash k) (committed r) ∧ (c.isSignIn = true → ¬Seen (OfFamily new.familyId) (committed r)) := by
  have hheld := hs.drafts i k (by simp [hdraft])
  obtain ⟨hhash, hfamily⟩ := hdraws rfl k (hs.held k (by simp [hheld])) new (by simp [hdraft]) hnone
  refine ⟨?_, fun hsignIn => ?_⟩
  · rintro (⟨l, token, hrow, hl⟩ | ⟨e, he, hshows⟩)
    · rw [show l = k from hl, committed_rows, hnone] at hrow
      cases hrow
    · exact hhash e he hshows
  · rintro (⟨l, token, hrow, hof⟩ | ⟨e, he, hshows⟩)
    · exact (hfamily hsignIn).1 l (hs.listed l (by simp [show r.now.rows l = _ from hrow])) token hrow hof
    · exact (hfamily hsignIn).2 e he hshows

/-- Beside a new token no other token of its family is live. -/
theorem Tidy.born_alone {k l : H} {new other : RefreshToken H} (h : Tidy hash i c r)
    (hok : Families hash r.now.rows (commits r.past)) (hs : r.now.Sound) (hdraws : Draws i c .commit r)
    (hnone : r.now.rows k = none) (hdraft : r.now.drafts i k = some (some new))
    (hview : r.now.view i l = some other) (hfamily : other.familyId = new.familyId) (hlive : other.Live) :
    k = l := by
  have hborn := h.born k new hnone hdraft
  obtain ⟨-, hnew⟩ := drawn hs hdraws hnone hdraft
  rcases h.found hview with ⟨token, hrow, hages⟩ | ⟨-, -, hborn'⟩
  · cases c with
    | signIn userId now ttl familyId value =>
      exact absurd (.inl ⟨l, token, hrow, hages.familyId.symm.trans hfamily⟩) (hnew rfl)
    | refresh presented now value active =>
      -- the only live token of the family is the one that was presented, and it is used
      obtain ⟨-, parent, huses, -, hparent, -⟩ := hborn
      obtain ⟨used, hused, hat⟩ := huses.used
      have hl : l = hash presented := hok.one l _ token parent hrow huses.row
        (hages.familyId.symm.trans (hfamily.trans hparent)) (hages.live hlive) huses.live
      have hsame : other = used := by simpa [Store.view, hl, hused] using hview.symm
      exact absurd (hsame ▸ hlive.1) hat
    | logout presented now => exact hborn.elim
    | sweep before => exact hborn.elim
  · cases c with
    | signIn userId now ttl familyId value => exact hborn.1.trans hborn'.1.symm
    | refresh presented now value active => exact hborn.1.trans hborn'.1.symm
    | logout presented now => exact hborn.elim
    | sweep before => exact hborn.elim

/-- A new token is of the user and the expiry of its family. -/
theorem Tidy.born_same {k l : H} {new other : RefreshToken H} (h : Tidy hash i c r)
    (hok : Families hash r.now.rows (commits r.past)) (hs : r.now.Sound) (hdraws : Draws i c .commit r)
    (hnone : r.now.rows k = none) (hdraft : r.now.drafts i k = some (some new))
    (hview : r.now.view i l = some other) (hfamily : other.familyId = new.familyId) :
    other.userId = new.userId ∧ other.expiresAt = new.expiresAt := by
  have hborn := h.born k new hnone hdraft
  obtain ⟨-, hnew⟩ := drawn hs hdraws hnone hdraft
  have heq : k = l → other = new := by
    rintro rfl
    simpa [Store.view, hdraft] using hview.symm
  rcases h.found hview with ⟨token, hrow, hages⟩ | ⟨-, -, hborn'⟩
  · cases c with
    | signIn userId now ttl familyId value =>
      exact absurd (.inl ⟨l, token, hrow, hages.familyId.symm.trans hfamily⟩) (hnew rfl)
    | refresh presented now value active =>
      obtain ⟨-, parent, huses, huser, hparent, hexpiry⟩ := hborn
      obtain ⟨huser', hexpiry'⟩ := hok.same l _ token parent hrow huses.row
        (hages.familyId.symm.trans (hfamily.trans hparent))
      exact ⟨(hages.userId.trans huser').trans huser.symm, (hages.expiresAt.trans hexpiry').trans hexpiry.symm⟩
    | logout presented now => exact hborn.elim
    | sweep before => exact hborn.elim
  · have hkl : k = l := by
      cases c with
      | signIn userId now ttl familyId value => exact hborn.1.trans hborn'.1.symm
      | refresh presented now value active => exact hborn.1.trans hborn'.1.symm
      | logout presented now => exact hborn.elim
      | sweep before => exact hborn.elim
    rw [heq hkl]
    exact ⟨rfl, rfl⟩


theorem Tidy.onwards (h : Tidy hash i c r) (hs : r.now.Sound) (hdraws : Draws i c .commit r) :
    Onwards hash (committed r) (committing i c r) where
  since := by
    refine ⟨[commitOf i c r.now], rfl, fun k token hnone hview => ?_⟩
    rcases h.found hview with ⟨old, hrow, -⟩ | ⟨-, hdraft, hborn⟩
    · rw [committed_rows, hrow] at hnone
      cases hnone
    · obtain ⟨-, hnew⟩ := drawn hs hdraws hnone hdraft
      cases c with
      | signIn userId now ttl familyId value => exact .inr (hnew rfl)
      | refresh presented now value active =>
        obtain ⟨rfl, parent, huses, -, hfamily, -⟩ := hborn
        refine .inl ⟨_, List.mem_singleton_self _, presented, now, value, active, parent, token, rfl, rfl, huses,
          hfamily.symm, hnone, hdraft, rfl⟩
      | logout presented now => exact hborn.elim
      | sweep before => exact hborn.elim
  seen p hseen := hseen.committing hs
  gone k hseen hnone := by
    by_contra hsome
    obtain ⟨new, hview⟩ := Option.ne_none_iff_exists'.mp hsome
    rcases h.found hview with ⟨old, hrow, -⟩ | ⟨-, hdraft, -⟩
    · rw [committed_rows, hrow] at hnone
      cases hnone
    · exact (drawn hs hdraws hnone hdraft).1 hseen
  ages k token new hrow hview := by
    rcases h.found hview with ⟨old, hold, hages⟩ | ⟨hnone, -, -⟩
    · rw [committed_rows, hold] at hrow
      exact Option.some.inj hrow ▸ hages
    · rw [committed_rows, hnone] at hrow
      cases hrow

/-- A family that is over gets no live token. -/
theorem Tidy.dead {familyId : FamilyId} (h : Tidy hash i c r) (hs : r.now.Sound) (hdraws : Draws i c .commit r)
    (hdead : Dead r.now.rows familyId) (hseen : Seen (OfFamily familyId) (committed r)) :
    Dead (r.now.view i) familyId := by
  rintro k new hview rfl hlive
  rcases h.found hview with ⟨token, hrow, hages⟩ | ⟨hnone, hdraft, hborn⟩
  · exact hdead k token hrow hages.familyId.symm (hages.live hlive)
  · obtain ⟨-, hnew⟩ := drawn hs hdraws hnone hdraft
    cases c with
    | signIn userId now ttl familyId value => exact hnew rfl hseen
    | refresh presented now value active =>
      obtain ⟨-, parent, huses, -, hfamily, -⟩ := hborn
      exact (hfamily ▸ hdead).not_uses huses
    | logout presented now => exact hborn
    | sweep before => exact hborn

/-- A tidy transaction keeps the law. -/
theorem Tidy.respects (h : Tidy hash i c r) (hs : r.now.Sound)
    (hok : Families hash r.now.rows (commits r.past)) (hdraws : Draws i c .commit r) :
    (tokenLaw hash).Respects i c r := by
  have hended : ∀ e ∈ commits r.past, ∀ familyId, Ends familyId e → Seen (OfFamily familyId) (committed r) := by
    intro e he familyId hends
    obtain ⟨k, token, hrow, hof⟩ := hends.found
    exact .inr ⟨e, he, shows_of_row (hok.sound e he) hrow hof⟩
  refine ⟨h.onwards hs hdraws, ?_⟩
  constructor
  · intro k l token other hk hl hfamily hlive hlive'
    rcases h.found hk with ⟨token₀, hrow, hages⟩ | ⟨hnone, hdraft, -⟩
    · rcases h.found hl with ⟨other₀, hrow', hages'⟩ | ⟨hnone', hdraft', -⟩
      · exact hok.one k l token₀ other₀ hrow hrow'
          (hages.familyId.symm.trans (hfamily.trans hages'.familyId)) (hages.live hlive) (hages'.live hlive')
      · exact (h.born_alone hok hs hdraws hnone' hdraft' hk hfamily hlive).symm
    · exact h.born_alone hok hs hdraws hnone hdraft hl hfamily.symm hlive'
  · intro k l token other hk hl hfamily
    rcases h.found hk with ⟨token₀, hrow, hages⟩ | ⟨hnone, hdraft, -⟩
    · rcases h.found hl with ⟨other₀, hrow', hages'⟩ | ⟨hnone', hdraft', -⟩
      · obtain ⟨huser, hexpiry⟩ := hok.same k l token₀ other₀ hrow hrow'
          (hages.familyId.symm.trans (hfamily.trans hages'.familyId))
        exact ⟨(hages.userId.trans huser).trans hages'.userId.symm,
          (hages.expiresAt.trans hexpiry).trans hages'.expiresAt.symm⟩
      · exact h.born_same hok hs hdraws hnone' hdraft' hk hfamily
    · obtain ⟨huser, hexpiry⟩ := h.born_same hok hs hdraws hnone hdraft hl hfamily.symm
      exact ⟨huser.symm, hexpiry.symm⟩
  · exact fun k token hview => h.tokenHash hok hview
  · intro e he
    rcases List.mem_cons.mp he with rfl | he
    · exact hs
    · exact hok.sound e he
  · intro e he k new hdraft hover token hview hlive
    rcases List.mem_cons.mp he with rfl | he
    · have hsame : token = new := by
        have hview' : r.now.view i k = some token := hview
        have hdraft' : r.now.drafts i k = some (some new) := hdraft
        simpa [Store.view, hdraft'] using hview'.symm
      exact hover (hsame ▸ hlive)
    · rcases h.found hview with ⟨token₀, hrow, hages⟩ | ⟨hnone, hdraft', -⟩
      · exact hok.spent e he k new hdraft hover token₀ hrow (hages.live hlive)
      · exact (drawn hs hdraws hnone hdraft').1 (.inr ⟨e, he, shows_of_draft (hok.sound e he) hdraft rfl⟩)
  · refine List.pairwise_cons.mpr ⟨fun e he v w haccepts haccepts' heq => ?_, hok.once⟩
    obtain ⟨-, now, value, active, token, -, huses⟩ := haccepts
    obtain ⟨-, now', value', active', token', -, huses'⟩ := haccepts'
    obtain ⟨used, hused, hat⟩ := huses'.used
    exact hok.spent e he (hash w) used hused (fun hlive => hat hlive.1) token (heq ▸ huses.row) huses.live
  · intro e he familyId hends
    rcases List.mem_cons.mp he with rfl | he
    · exact hends.dead
    · exact h.dead hs hdraws (hok.dead e he familyId hends) (hended e he familyId hends)
  · exact List.pairwise_cons.mpr ⟨fun e he familyId hends => hok.dead e he familyId hends, hok.refused⟩

end Commits

/-! ## Statements -/

section Statements

variable {H : Type} {hash : String → H} [DecidableEq H] {i : Nat} {c : SignInCall} {r r' r₁ : TokenHistory H}
  {presented : String} {now : Moment} {token : RefreshToken H}

omit [DecidableEq H] in
theorem tidy_of_clean (h : r.now.Clean i) : Tidy hash i c r := by
  constructor
  · intro k new hdraft
    rw [h k] at hdraft
    cases hdraft
  · intro k old new _ hdraft
    rw [h k] at hdraft
    cases hdraft
  · intro k new _ hdraft
    rw [h k] at hdraft
    cases hdraft

/-- A row that the transaction has changed is its own while the others go on. -/
theorem drafted_row {k : H} {d : Option (RefreshToken H)} (hleft : (tokenLaw hash).Left Draws i r r₁)
    (hdraft : r₁.now.drafts i k = some d) : r.now.drafts i k = some d ∧ r₁.now.rows k = r.now.rows k := by
  have hheld := (hleft.1.1.kept.holder k).mp (hleft.2.1.drafts i k (by simp [hdraft]))
  exact ⟨by rw [← hleft.1.1.kept.drafts, hdraft], hleft.1.1.kept.rows k hheld⟩

theorem Uses.left (h : Uses hash presented now r.now i token) (hleft : (tokenLaw hash).Left Draws i r r₁) :
    Uses hash presented now r₁.now i token := by
  obtain ⟨used, hused, hat⟩ := h.used
  have hused' : r₁.now.drafts i (hash presented) = some (some used) := by
    rw [hleft.1.1.kept.drafts, hused]
  exact ⟨by rw [(drafted_row hleft hused').2, h.row], h.live, h.early, used, hused', hat⟩

theorem Tidy.left (h : Tidy hash i c r) (hleft : (tokenLaw hash).Left Draws i r r₁) : Tidy hash i c r₁ := by
  constructor
  · intro k new hdraft
    exact h.hashed k new (drafted_row hleft hdraft).1
  · intro k old new hrow hdraft
    obtain ⟨hdraft', hsame⟩ := drafted_row hleft hdraft
    exact h.aged k old new (hsame ▸ hrow) hdraft'
  · intro k new hnone hdraft
    obtain ⟨hdraft', hsame⟩ := drafted_row hleft hdraft
    have hborn := h.born k new (hsame ▸ hnone) hdraft'
    cases c with
    | signIn userId now ttl familyId value => exact hborn
    | refresh presented now value active =>
      obtain ⟨hk, parent, huses, hfamily⟩ := hborn
      exact ⟨hk, parent, huses.left hleft, hfamily⟩
    | logout presented now => exact hborn.elim
    | sweep before => exact hborn.elim

omit [DecidableEq H] in
/-- A transaction that only looks keeps what it has changed. -/
theorem Tidy.looks (h : Tidy hash i c r) (hlooks : Looks i r r') : Tidy hash i c r' := by
  obtain ⟨hhashed, haged, hborn⟩ := h
  have hborn' : ∀ k new, Born hash c r.now i k new → Born hash c r'.now i k new := by
    intro k new hborn
    cases c with
    | signIn userId now ttl familyId value => exact hborn
    | refresh presented now value active =>
      obtain ⟨hk, parent, huses, hfamily⟩ := hborn
      obtain ⟨used, hused, hat⟩ := huses.used
      exact ⟨hk, parent, ⟨by rw [hlooks.rows, huses.row], huses.live, huses.early, used,
        by rw [hlooks.drafts, hused], hat⟩, hfamily⟩
    | logout presented now => exact hborn.elim
    | sweep before => exact hborn.elim
  refine ⟨?_, ?_, ?_⟩
  · rw [hlooks.drafts]
    exact hhashed
  · rw [hlooks.drafts, hlooks.rows]
    exact haged
  · rw [hlooks.drafts, hlooks.rows]
    exact fun k new hnone hdraft => hborn' k new (hborn k new hnone hdraft)

theorem Uses.changes {k : H} {new : RefreshToken H} (h : Uses hash presented now r.now i token)
    (hchanges : Changes i k (some new) r r') (hages : ∀ old, r.now.view i k = some old → Ages old new) :
    Uses hash presented now r'.now i token := by
  obtain ⟨used, hused, hat⟩ := h.used
  refine ⟨by rw [hchanges.rows, h.row], h.live, h.early, ?_⟩
  rw [hchanges.drafts]
  by_cases hk : hash presented = k
  · subst hk
    have hview : r.now.view i (hash presented) = some used := by simp [Store.view, hused]
    exact ⟨new, Function.update_self _ _ _, (hages used hview).used hat⟩
  · exact ⟨used, (Function.update_of_ne hk _ _).trans hused, hat⟩

theorem Born.changes {k l : H} {new other : RefreshToken H} (h : Born hash c r.now i l other)
    (hchanges : Changes i k (some new) r r') (hages : ∀ old, r.now.view i k = some old → Ages old new) :
    Born hash c r'.now i l other := by
  cases c with
  | signIn userId now ttl familyId value => exact h
  | refresh presented now value active =>
    obtain ⟨hl, parent, huses, hfamily⟩ := h
    exact ⟨hl, parent, huses.changes hchanges hages, hfamily⟩
  | logout presented now => exact h.elim
  | sweep before => exact h.elim

omit [DecidableEq H] in
/-- A new row that is changed again is still of its family. -/
theorem Born.ages {k : H} {old new : RefreshToken H} (h : Born hash c r.now i k old) (hages : Ages old new) :
    Born hash c r.now i k new := by
  cases c with
  | signIn userId now ttl familyId value => exact ⟨h.1, hages.familyId.trans h.2⟩
  | refresh presented now value active =>
    obtain ⟨hk, parent, huses, huser, hfamily, hexpiry⟩ := h
    exact ⟨hk, parent, huses, hages.userId.trans huser, hages.familyId.trans hfamily,
      hages.expiresAt.trans hexpiry⟩
  | logout presented now => exact h.elim
  | sweep before => exact h.elim

/-- One more row that is as it may be. -/
theorem Tidy.writes {k : H} {new : RefreshToken H} (h : Tidy hash i c r) (hhash : new.tokenHash = k)
    (hages : ∀ old, r.now.view i k = some old → Ages old new)
    (haged : ∀ first, r.now.rows k = some first → Ages first new)
    (hborn : r.now.rows k = none → Born hash c r.now i k new) (hchanges : Changes i k (some new) r r') :
    Tidy hash i c r' := by
  constructor
  · intro l other hdraft
    rw [hchanges.drafts] at hdraft
    by_cases hl : l = k
    · subst hl
      rw [Function.update_self] at hdraft
      obtain rfl := Option.some.inj (Option.some.inj hdraft)
      exact hhash
    · rw [Function.update_of_ne hl] at hdraft
      exact h.hashed l other hdraft
  · intro l first other hrow hdraft
    rw [hchanges.rows] at hrow
    rw [hchanges.drafts] at hdraft
    by_cases hl : l = k
    · subst hl
      rw [Function.update_self] at hdraft
      obtain rfl := Option.some.inj (Option.some.inj hdraft)
      exact haged first hrow
    · rw [Function.update_of_ne hl] at hdraft
      exact h.aged l first other hrow hdraft
  · intro l other hnone hdraft
    rw [hchanges.rows] at hnone
    rw [hchanges.drafts] at hdraft
    by_cases hl : l = k
    · subst hl
      rw [Function.update_self] at hdraft
      obtain rfl := Option.some.inj (Option.some.inj hdraft)
      exact (hborn hnone).changes hchanges hages
    · rw [Function.update_of_ne hl] at hdraft
      exact (h.born l other hnone hdraft).changes hchanges hages

/-- One more row that ages. -/
theorem Tidy.changes {k : H} {old new : RefreshToken H} (h : Tidy hash i c r)
    (hview : r.now.view i k = some old) (hages : Ages old new) (hhash : new.tokenHash = k)
    (hchanges : Changes i k (some new) r r') : Tidy hash i c r' := by
  have hages' : ∀ old', r.now.view i k = some old' → Ages old' new := by
    intro old' hview'
    rw [hview] at hview'
    exact Option.some.inj hview' ▸ hages
  refine h.writes hhash hages' (fun first hrow => ?_) (fun hnone => ?_) hchanges
  · rcases h.found hview with ⟨first', hrow', hfirst⟩ | ⟨hnone, -, -⟩
    · rw [hrow] at hrow'
      exact (Option.some.inj hrow' ▸ hfirst).trans hages
    · rw [hrow] at hnone
      cases hnone
  · rcases h.found hview with ⟨first, hrow, -⟩ | ⟨-, -, hborn⟩
    · rw [hrow] at hnone
      cases hnone
    · exact hborn.ages hages

/-- The new row. -/
theorem Tidy.adds {k : H} {new : RefreshToken H} (h : Tidy hash i c r) (hview : r.now.view i k = none)
    (hdeletes : r.now.drafts i k ≠ some none) (hhash : new.tokenHash = k) (hborn : Born hash c r.now i k new)
    (hchanges : Changes i k (some new) r r') : Tidy hash i c r' := by
  have hrow : r.now.rows k = none := by
    cases hdraft : r.now.drafts i k with
    | none => simpa [Store.view, hdraft] using hview
    | some d =>
      have hd : d = none := by simpa [Store.view, hdraft] using hview
      exact absurd (hd ▸ hdraft) hdeletes
  refine h.writes hhash (fun old hold => ?_) (fun first hfirst => ?_) (fun _ => hborn) hchanges
  · rw [hview] at hold
    cases hold
  · rw [hrow] at hfirst
    cases hfirst

/-- The sweep takes rows away, and adds none. -/
theorem Tidy.deletes {before : Moment} {k : H} (h : Tidy hash i (.sweep before) r)
    (hchanges : Changes i k none r r') : Tidy hash i (.sweep before) r' := by
  have hothers : ∀ l other, r'.now.drafts i l = some (some other) → r.now.drafts i l = some (some other) := by
    intro l other hdraft
    rw [hchanges.drafts] at hdraft
    by_cases hl : l = k
    · subst hl
      rw [Function.update_self] at hdraft
      cases hdraft
    · rwa [Function.update_of_ne hl] at hdraft
  constructor
  · exact fun l other hdraft => h.hashed l other (hothers l other hdraft)
  · intro l first other hrow hdraft
    rw [hchanges.rows] at hrow
    exact h.aged l first other hrow (hothers l other hdraft)
  · intro l other hnone hdraft
    rw [hchanges.rows] at hnone
    exact (h.born l other hnone (hothers l other hdraft)).elim

end Statements

/-! ## The end of a family -/

section Revoking

variable {H : Type} {hash : String → H} [DecidableEq H] {i : Nat} {c : SignInCall} {r r' r₁ : TokenHistory H}
  {tokenHash : H} {token : RefreshToken H} {now : Moment}

/-- The transaction holds the committed row. -/
structure Locks (i : Nat) (tokenHash : H) (token : RefreshToken H) (r : TokenHistory H) : Prop where
  holder : r.now.holder tokenHash = some i
  row : r.now.rows tokenHash = some token

theorem Locks.left (h : Locks i tokenHash token r) (hleft : (tokenLaw hash).Left Draws i r r₁) :
    Locks i tokenHash token r₁ :=
  ⟨(hleft.1.1.kept.holder tokenHash).mpr h.holder, by rw [hleft.1.1.kept.rows tokenHash h.holder, h.row]⟩

omit [DecidableEq H] in
theorem Locks.looks (h : Locks i tokenHash token r) (hlooks : Looks i r r') : Locks i tokenHash token r' :=
  ⟨hlooks.holder tokenHash h.holder, by rw [hlooks.rows, h.row]⟩

theorem Locks.changes {k : H} {v : Option (RefreshToken H)} (h : Locks i tokenHash token r)
    (hchanges : Changes i k v r r') : Locks i tokenHash token r' :=
  ⟨(hchanges.holder tokenHash).mpr (.inr h.holder), by rw [hchanges.rows, h.row]⟩

/-- The family's tokens that are not revoked. -/
abbrev Unrevoked (familyId : FamilyId) (token : RefreshToken H) : Prop :=
  token.familyId = familyId ∧ token.revokedAt = none

/-- While the `UPDATE` goes on, that started at `a`: it revokes rows, and changes nothing else. -/
structure Revoking (hash : String → H) (i : Nat) (c : SignInCall) (tokenHash : H) (token : RefreshToken H)
    (now : Moment) (a r : TokenHistory H) : Prop where
  tidy : Tidy hash i c r
  locks : Locks i tokenHash token r
  past : a.past <:+ r.past
  drafts : ∀ k, r.now.drafts i k = a.now.drafts i k ∨
    ∃ v : RefreshToken H, r.now.drafts i k = some (some { v with revokedAt := some now })

theorem revoking_keeping (a : TokenHistory H) :
    (tokenLaw hash).Keeping Draws i c (Unrevoked token.familyId)
      (fun v => some { v with revokedAt := some now }) (Revoking hash i c tokenHash token now a) where
  left := by
    rintro r r₁ ⟨htidy, hlocks, hpast, hdrafts⟩ hleft
    refine ⟨htidy.left hleft, hlocks.left hleft, hpast.trans hleft.1.1.suffix, ?_⟩
    rw [hleft.1.1.kept.drafts]
    exact hdrafts
  looks := by
    rintro r r' ⟨htidy, hlocks, hpast, hdrafts⟩ hlooks
    obtain ⟨e, hpast', -⟩ := hlooks.past
    refine ⟨htidy.looks hlooks, hlocks.looks hlooks, hpast.trans ?_, ?_⟩
    · rw [hpast']
      exact List.suffix_cons _ _
    · rw [hlooks.drafts]
      exact hdrafts
  changes := by
    rintro r r' k v ⟨htidy, hlocks, hpast, hdrafts⟩ ⟨-, hok⟩ - hholds - hchanges
    obtain ⟨e, hpast', -⟩ := hchanges.past
    have hhash : v.tokenHash = k := htidy.tokenHash hok hholds.view
    refine ⟨htidy.changes hholds.view (ages_revoked v now) hhash hchanges, hlocks.changes hchanges,
      hpast.trans ?_, ?_⟩
    · rw [hpast']
      exact List.suffix_cons _ _
    · intro l
      rw [hchanges.drafts]
      by_cases hl : l = k
      · subst hl
        exact .inr ⟨v, Function.update_self _ _ _⟩
      · rw [Function.update_of_ne hl]
        exact hdrafts l

/-- The family of the token was revoked by a query that started at `a`. -/
structure Revoked (hash : String → H) (i : Nat) (c : SignInCall) (tokenHash : H) (token : RefreshToken H)
    (now : Moment) (a r : TokenHistory H) : Prop where
  scanned : ∃ s older, a.past = s :: older ∧ s.who = i ∧ s.op = .scan
  locked : Locks i tokenHash token a
  revoking : Revoking hash i c tokenHash token now a r
  onwards : Onwards hash (committed a) (committed r)
  dealt : ∀ k v, a.now.view i k = some v → Unrevoked token.familyId v →
    (tokenLaw hash).Dealt i (Unrevoked token.familyId) (fun v => some { v with revokedAt := some now })
      (Revoking hash i c tokenHash token now a) k a r

theorem Revoked.left {a : TokenHistory H} (h : Revoked hash i c tokenHash token now a r)
    (hleft : (tokenLaw hash).Left Draws i r r₁) : Revoked hash i c tokenHash token now a r₁ :=
  ⟨h.scanned, h.locked, (revoking_keeping a).left h.revoking hleft, h.onwards.trans hleft.1.2,
    fun k v hview hmeets => (h.dealt k v hview hmeets).left hleft⟩

/-- The `UPDATE` of a family. -/
theorem revokeFamily_wp (htidy : Tidy hash i c r) (hlocks : Locks i tokenHash token r)
    {Q : Except RefreshExn Nat → Unit → TokenHistory H → Prop}
    (hQ : ∀ n a r', Revoked hash i c tokenHash token now a r' → Q (.ok n) () r') :
    (revokeFamily token.familyId now).Wp (tokenRules hash) i c Q () r := by
  refine CommitLaw.wp_changeWhere fun r₁ r₂ hleft hnow hpast => ?_
  have hlooks : Looks i r₁ r₂ := .same hnow hpast (by rintro ⟨⟩) rfl
  have hlocks₂ := (hlocks.left hleft).looks hlooks
  have hrevoking : Revoking hash i c tokenHash token now r₂ r₂ :=
    ⟨(htidy.left hleft).looks hlooks, hlocks₂, List.suffix_refl _, fun k => .inl rfl⟩
  refine ⟨_, revoking_keeping r₂, hrevoking, fun n l' r' hrevoking' honwards hdealt => ?_⟩
  exact hQ n r₂ r' ⟨⟨_, _, hpast, rfl, rfl⟩, hlocks₂, hrevoking', honwards, hdealt⟩

omit [DecidableEq H] in
/-- A token of the family that is live in the end was committed after the query had started. -/
theorem Revoked.survivor {a : TokenHistory H} (h : Revoked hash i c tokenHash token now a r) {k : H}
    {v : RefreshToken H} (hview : r.now.view i k = some v) (hfamily : v.familyId = token.familyId)
    (hlive : v.Live) : a.now.rows k = none ∧ r.now.rows k = some v := by
  -- a row that the query has found is not live in the end
  have hfound : ∀ v', a.now.view i k = some v' → Unrevoked token.familyId v' →
      (∀ r₁ : TokenHistory H, Revoking hash i c tokenHash token now a r₁ →
        Onwards hash (committed a) (committed r₁) → r₁.now.view i k = none →
          Onwards hash (committed r₁) (committed r) → False) → False := by
    intro v' hview' hmeets hgone
    rcases h.dealt k v' hview' hmeets with ⟨u, hholds, hnot⟩ | ⟨u, hholds, -⟩ | ⟨r₁, hJ, hto, hnone, hfrom⟩
    · have hsame : v = u := Option.some.inj (hview.symm.trans hholds.view)
      exact hnot (hsame ▸ ⟨hfamily, hlive.2⟩)
    · have hsame : v = { u with revokedAt := some now } := Option.some.inj (hview.symm.trans hholds.view)
      rw [hsame] at hlive
      cases hlive.2
    · exact hgone r₁ hJ hto hnone hfrom
  rcases h.revoking.drafts k with hsame | ⟨u, hdraft⟩
  · cases hdraft : a.now.drafts i k with
    | none =>
      rw [hdraft] at hsame
      have hrow : r.now.rows k = some v := by simpa [Store.view, hsame] using hview
      refine ⟨?_, hrow⟩
      by_contra hsome
      obtain ⟨first, hfirst⟩ := Option.ne_none_iff_exists'.mp hsome
      have hages := h.onwards.ages k first v hfirst hrow
      refine hfound first (by simpa [Store.view, hdraft] using hfirst)
        ⟨hages.familyId.symm.trans hfamily, (hages.live hlive).2⟩ fun r₁ hJ hto hnone hfrom => ?_
      -- a row that is gone does not come back
      rcases hJ.drafts k with hsame₁ | ⟨u, hdraft₁⟩
      · have hnone₁ : r₁.now.rows k = none := by simpa [Store.view, hsame₁, hdraft] using hnone
        have hlost := hfrom.gone k (hto.seen _ (seen_of_row hfirst)) hnone₁
        rw [committed_rows, hrow] at hlost
        cases hlost
      · simp [Store.view, hdraft₁] at hnone
    | some d =>
      have hd : d = some v := by simpa [Store.view, hsame, hdraft] using hview
      subst hd
      refine (hfound v (by simp [Store.view, hdraft]) ⟨hfamily, hlive.2⟩ fun r₁ hJ _ hnone _ => ?_).elim
      rcases hJ.drafts k with hsame₁ | ⟨u, hdraft₁⟩
      · simp [Store.view, hsame₁, hdraft] at hnone
      · simp [Store.view, hdraft₁] at hnone
  · have hsame : v = { u with revokedAt := some now } := by simpa [Store.view, hdraft] using hview.symm
    rw [hsame] at hlive
    cases hlive.2

omit [DecidableEq H] in
/-- The commit ends the family, unless a refresh has committed a token of it since the query. -/
theorem Revoked.ends {a : TokenHistory H} (h : Revoked hash i c tokenHash token now a r) :
    ∃ es s older, r.past = es ++ s :: older ∧ s.who = i ∧ s.op = .scan ∧
      ((∃ e ∈ es, Rotates hash token.familyId e) ∨ Ends token.familyId (commitOf i c r.now)) := by
  obtain ⟨s, older, hpast, hwho, hop⟩ := h.scanned
  obtain ⟨es, hes⟩ := h.revoking.past
  refine ⟨es, s, older, by rw [← hes, hpast], hwho, hop, ?_⟩
  by_cases hdead : Dead (r.now.view i) token.familyId
  · exact .inr ⟨⟨tokenHash, token, h.revoking.locks.row, rfl⟩, hdead⟩
  · left
    simp only [Dead, not_forall, not_not] at hdead
    obtain ⟨k, v, hview, hfamily, hlive⟩ := hdead
    obtain ⟨hnone, hrow⟩ := h.survivor hview hfamily hlive
    obtain ⟨es', hes', hadded⟩ := h.onwards.since
    have hcommits : es' = commits es := by
      have happend : commits r.past = commits es ++ commits a.past := by
        rw [← hes, commits, List.filter_append]
        rfl
      exact List.append_cancel_right (hes'.symm.trans happend)
    rcases hadded k v hnone hrow with ⟨e, he, hrotates⟩ | hnew
    · rw [hcommits] at he
      exact ⟨e, (mem_commits.mp he).1, hfamily ▸ hrotates⟩
    · exact absurd (.inl ⟨tokenHash, token, h.locked.row, hfamily.symm⟩) hnew

end Revoking

/-! ## The calls -/

section Calls

variable {H : Type} {hash : String → H} [DecidableEq H] {i : Nat} {c : SignInCall} {r : TokenHistory H}
  {presented : String} {now : Moment} {value : String} {active : Bool}

/-- The lock of a token: it is known, or nothing has been done. -/
theorem getRefreshTokenForUpdate_wp {tokenHash : H} (hclean : r.now.Clean i)
    {Q : Except RefreshExn (Option (RefreshToken H)) → Unit → TokenHistory H → Prop}
    (hnone : ∀ r', r'.now.Clean i → Q (.ok none) () r')
    (hsome : ∀ token r', r'.now.Clean i → Locks i tokenHash token r' → Q (.ok (some token)) () r') :
    (getRefreshTokenForUpdate tokenHash).Wp (tokenRules hash) i c Q () r := by
  refine CommitLaw.wp_lockRow fun r₁ hleft _ r₂ hpast => ⟨fun _ hnow => ?_, fun token hview hnow => ?_⟩
  · refine hnone r₂ ?_
    rw [hnow]
    exact hleft.1.1.kept.clean hclean
  · have hclean₁ := hleft.1.1.kept.clean hclean
    refine hsome token r₂ ?_ ⟨?_, ?_⟩
    · rw [hnow]
      exact hclean₁.take tokenHash
    · rw [hnow]
      exact (r₁.now.take_holds i tokenHash).holder
    · rw [hnow]
      exact (congrFun hclean₁.view tokenHash).symm.trans hview

/-- The insertion of the next token, where nothing is deleted. -/
theorem issue_wp {userId : UserId} {familyId : FamilyId} {issuedAt expiresAt : Moment} (htidy : Tidy hash i c r)
    (hdeletes : ∀ k, r.now.drafts i k ≠ some none)
    (hborn : ∀ r₁, (tokenLaw hash).Left Draws i r r₁ → Born hash c r₁.now i (hash value)
      ⟨userId, familyId, hash value, issuedAt, expiresAt, none, none⟩)
    {Q : Except RefreshExn IssuedRefresh → Unit → TokenHistory H → Prop}
    (herror : ∀ e r', Q (.error e) () r')
    (hok : ∀ r₁ r', (tokenLaw hash).Left Draws i r r₁ → Tidy hash i c r' →
      Changes i (hash value) (some ⟨userId, familyId, hash value, issuedAt, expiresAt, none, none⟩) r₁ r' →
      r₁.now.view i (hash value) = none → Q (.ok ⟨value, expiresAt, userId, familyId⟩) () r') :
    (issue hash userId familyId issuedAt expiresAt value).Wp (tokenRules hash) i c Q () r := by
  refine wp_bind (wp_bind (CommitLaw.wp_insertRow fun r₁ hleft r₂ => ⟨fun _ => herror _ r₂, ?_⟩))
  intro hview hnow hpast
  have hchanges := Changes.of_create (i := i) hnow hpast (by rintro ⟨⟩) rfl
  have hdeletes₁ : r₁.now.drafts i (hash value) ≠ some none := by
    rw [hleft.1.1.kept.drafts]
    exact hdeletes (hash value)
  exact hok r₁ r₂ hleft ((htidy.left hleft).adds hview hdeletes₁ rfl (hborn r₁ hleft) hchanges) hchanges hview

theorem startFamily_wp {userId : UserId} {ttl : Int} {familyId : FamilyId} (hclean : r.now.Clean i) :
    (startFamily hash userId now ttl familyId value).Wp (tokenRules hash) i
      (.signIn userId now ttl familyId value)
      (fun res _ r' => ∀ issued, res = .ok issued → Tidy hash i (.signIn userId now ttl familyId value) r') () r := by
  refine wp_bind (wp_fromExcept ?_)
  cases (now.add ttl).mapError RefreshExn.calendar with
  | error e => exact fun _ h => by cases h
  | ok expiresAt =>
    refine issue_wp (tidy_of_clean hclean) (fun k => by simp [hclean k]) (fun _ _ => ?_) ?_ ?_
    · exact ⟨rfl, rfl⟩
    · exact fun e r' _ h => by cases h
    · exact fun r₁ r' _ htidy _ _ _ _ => htidy

/-- What a refresh has done with the token that was presented. -/
structure Rotated (hash : String → H) (i : Nat) (c : SignInCall) (presented : String) (now : Moment)
    (answer : Except RefreshFailure IssuedRefresh) (r : TokenHistory H) : Prop where
  tidy : Tidy hash i c r
  reused : answer = .error .reused → ∃ token a, Revoked hash i c (hash presented) token now a r
  issued : ∀ issued, answer = .ok issued → ∃ token, Uses hash presented now r.now i token ∧
    Locks i (hash presented) token r ∧ issued.familyId = token.familyId

omit [DecidableEq H] in
theorem rotated_refused {failure : RefreshFailure} (htidy : Tidy hash i c r) (h : failure ≠ .reused) :
    Rotated hash i c presented now (.error failure) r :=
  ⟨htidy, fun heq => absurd (Except.error.inj heq) h, fun _ heq => by cases heq⟩

theorem tokenRotate_wp (hclean : r.now.Clean i) :
    (rotate hash presented now value).Wp (tokenRules hash) i (.refresh presented now value active)
      (fun res _ r' => ∀ answer, res = .ok answer →
        Rotated hash i (.refresh presented now value active) presented now answer r') () r := by
  refine wp_bind (getRefreshTokenForUpdate_wp hclean ?_ ?_)
  · rintro r₁ hclean₁ answer ⟨⟩
    exact rotated_refused (tidy_of_clean hclean₁) (by rintro ⟨⟩)
  intro token r₁ hclean₁ hlocks
  have htidy : Tidy hash i (.refresh presented now value active) r₁ := tidy_of_clean hclean₁
  dsimp only
  split
  · refine wp_bind (revokeFamily_wp htidy hlocks fun n a r₂ hrevoked answer h => ?_)
    cases h
    exact ⟨hrevoked.revoking.tidy, fun _ => ⟨token, a, hrevoked⟩, fun _ heq => by cases heq⟩
  · rename_i failure hreused _
    rintro answer ⟨⟩
    exact rotated_refused htidy hreused
  · rename_i hrefusal
    obtain ⟨hlive, hearly⟩ := RefreshToken.refusal_none.mp hrefusal
    refine wp_bind (CommitLaw.wp_writeRow fun r₂ hleft₂ _ r₃ hnow₃ hpast₃ => ?_)
    have hlocks₂ := hlocks.left hleft₂
    have hhash : token.tokenHash = hash presented := hleft₂.2.2.hashed _ _ hlocks₂.row
    have hchanges₃ : Changes i (hash presented) (some { token with usedAt := some now }) r₂ r₃ := by
      refine .of_draft ?_ hpast₃ (by rintro ⟨⟩) rfl
      rw [hnow₃, ← hhash]
    have hclean₂ : r₂.now.Clean i := hleft₂.1.1.kept.clean hclean₁
    have hview₂ : r₂.now.view i (hash presented) = some token := by
      rw [hclean₂.view]
      exact hlocks₂.row
    have htidy₃ := (htidy.left hleft₂).changes hview₂ (ages_used token now) hhash hchanges₃
    have hlocks₃ := hlocks₂.changes hchanges₃
    have hdraft₃ : r₃.now.drafts i (hash presented) = some (some { token with usedAt := some now }) := by
      rw [hchanges₃.drafts, Function.update_self]
    have huses₃ : Uses hash presented now r₃.now i token :=
      ⟨hlocks₃.row, hlive, hearly, _, hdraft₃, by simp⟩
    have hdeletes : ∀ k, r₃.now.drafts i k ≠ some none := by
      intro k
      rw [hchanges₃.drafts, Function.update_apply]
      split
      · simp
      · simp [hclean₂ k]
    refine wp_bind (issue_wp htidy₃ hdeletes
      (fun r₄ hleft₄ => ⟨rfl, token, huses₃.left hleft₄, rfl, rfl, rfl⟩) ?_ ?_)
    · exact fun e r' _ h => by cases h
    · rintro r₄ r₅ hleft₄ htidy₅ hchanges₅ hview₄ answer ⟨⟩
      refine ⟨htidy₅, (by rintro ⟨⟩), fun issued heq => ?_⟩
      cases heq
      refine ⟨token, (huses₃.left hleft₄).changes hchanges₅ fun old hold => ?_,
        (hlocks₃.left hleft₄).changes hchanges₅, rfl⟩
      rw [hview₄] at hold
      cases hold

/-- What a refresh has done when it answers. -/
structure Refreshed (hash : String → H) (i : Nat) (c : SignInCall) (presented : String) (now : Moment)
    (answer : RefreshAnswer) (r : TokenHistory H) : Prop where
  tidy : Tidy hash i c r
  ended : answer = .refused .reused ∨ answer = .disabled →
    ∃ token a, Revoked hash i c (hash presented) token now a r
  tokens : ∀ issued, answer = .tokens issued → ∃ token, Uses hash presented now r.now i token

theorem tokenRefresh_wp (hclean : r.now.Clean i) :
    (RefreshTokens.refresh hash presented now value active).Wp (tokenRules hash) i
      (.refresh presented now value active)
      (fun res _ r' => ∀ answer, res = .ok answer →
        Refreshed hash i (.refresh presented now value active) presented now answer r') () r := by
  refine wp_bind (Proc.wp_mono (tokenRotate_wp hclean) ?_)
  rintro (e | answer) ⟨⟩ r₁ hrotated
  · exact fun _ h => by cases h
  obtain ⟨htidy, hreused, hissued⟩ := hrotated answer rfl
  cases answer with
  | error failure =>
    rintro answer' ⟨⟩
    refine ⟨htidy, fun hended => ?_, fun _ heq => by cases heq⟩
    rcases hended with heq | heq
    · cases heq
      exact hreused rfl
    · cases heq
  | ok issued =>
    obtain ⟨token, huses, hlocks, hfamily⟩ := hissued issued rfl
    dsimp only
    split
    · rintro answer' ⟨⟩
      refine ⟨htidy, fun hended => ?_, fun _ _ => ⟨token, huses⟩⟩
      rcases hended with heq | heq <;> cases heq
    · rw [hfamily]
      refine wp_bind (revokeFamily_wp htidy hlocks fun n a r₂ hrevoked answer' h => ?_)
      cases h
      exact ⟨hrevoked.revoking.tidy, fun _ => ⟨token, a, hrevoked⟩, fun _ heq => by cases heq⟩

theorem tokenRevoke_wp (hclean : r.now.Clean i) :
    (revoke hash presented now).Wp (tokenRules hash) i (.logout presented now)
      (fun res _ r' => ∀ known, res = .ok known → Tidy hash i (.logout presented now) r' ∧
        (known = true → ∃ token a, Revoked hash i (.logout presented now) (hash presented) token now a r')) () r := by
  refine wp_bind (getRefreshTokenForUpdate_wp hclean ?_ ?_)
  · rintro r₁ hclean₁ known ⟨⟩
    exact ⟨tidy_of_clean hclean₁, fun heq => by cases heq⟩
  · intro token r₁ hclean₁ hlocks
    refine wp_bind (revokeFamily_wp (tidy_of_clean hclean₁) hlocks fun n a r₂ hrevoked known h => ?_)
    cases h
    exact ⟨hrevoked.revoking.tidy, fun _ => ⟨token, a, hrevoked⟩⟩

/-- The sweep takes rows away. -/
theorem sweep_keeping {before : Moment} : (tokenLaw hash).Keeping Draws i (.sweep before)
    (fun token : RefreshToken H => token.expiresAt.instant < before.instant) (fun _ => none)
    (Tidy hash i (.sweep before)) where
  left h hleft := h.left hleft
  looks h hlooks := h.looks hlooks
  changes h _ _ _ _ hchanges := h.deletes hchanges

theorem deleteExpiredRefreshTokens_wp {before : Moment} (hclean : r.now.Clean i) :
    (deleteExpiredRefreshTokens before).Wp (tokenRules hash) i (.sweep before)
      (fun res _ r' => ∀ n, res = .ok n → Tidy hash i (.sweep before) r') () r := by
  refine CommitLaw.wp_changeWhere fun r₁ r₂ hleft hnow hpast => ?_
  have hclean₂ : r₂.now.Clean i := by
    rw [hnow]
    exact hleft.1.1.kept.clean hclean
  exact ⟨_, sweep_keeping, tidy_of_clean hclean₂, fun n l' r' htidy _ _ _ _ => htidy⟩

end Calls

/-! ## Every run -/

section Runs

variable {H : Type} (hash : String → H)

/-- The answer ends the sign-in of the token that was presented. -/
inductive SignsOut (presented : String) : SignInCall → SignInOutcome → Prop
  | logout (now : Moment) : SignsOut presented (.logout presented now) (.loggedOut true)
  | reused (now : Moment) (value : String) (active : Bool) :
      SignsOut presented (.refresh presented now value active) (.refreshed (.refused .reused))
  | disabled (now : Moment) (value : String) (active : Bool) :
      SignsOut presented (.refresh presented now value active) (.refreshed .disabled)

/-- The commit `e` of transaction `i`, whose query had these events after it, ends the family of the token
that was presented, unless a refresh of the family is one of them. -/
structure Closes (i : Nat) (presented : String) (familyId : FamilyId) (e : TokenEvent H)
    (between : List (TokenEvent H)) : Prop where
  who : e.who = i
  op : e.op = .commit
  token : ∃ token, e.before.rows (hash presented) = some token ∧ token.familyId = familyId
  ends : (∃ e' ∈ between, Rotates hash familyId e') ∨ Ends familyId e

/-- Transaction `i` has closed the family of the token that was presented. -/
def Closed (i : Nat) (presented : String) (past : List (TokenEvent H)) : Prop :=
  ∃ familyId newer e between s older, past = newer ++ e :: (between ++ s :: older) ∧ s.who = i ∧ s.op = .scan ∧
    Closes hash i presented familyId e between

/-- What a call has done when it answers, and has not committed yet. -/
structure Finished (i : Nat) (c : SignInCall) (outcome : SignInOutcome) (r : TokenHistory H) : Prop where
  tidy : Tidy hash i c r
  ended : ∀ presented, SignsOut presented c outcome →
    ∃ token now a, Revoked hash i c (hash presented) token now a r
  tokens : ∀ presented now value active issued, c = .refresh presented now value active →
    outcome = .refreshed (.tokens issued) → ∃ token, Uses hash presented now r.now i token

/-- What a call has done when it has returned. -/
structure Completed (i : Nat) (c : SignInCall) (res : Except RefreshExn SignInOutcome)
    (past : List (TokenEvent H)) : Prop where
  closed : ∀ presented outcome, res = .ok outcome → SignsOut presented c outcome → Closed hash i presented past
  accepted : ∀ presented now value active issued, c = .refresh presented now value active →
    res = .ok (.refreshed (.tokens issued)) → ∃ e ∈ past, e.who = i ∧ Accepts hash presented e

variable {hash} {i : Nat} {c : SignInCall} {r r₁ : TokenHistory H} {outcome : SignInOutcome}

theorem completed_error (e : RefreshExn) (past : List (TokenEvent H)) : Completed hash i c (.error e) past :=
  ⟨(by rintro _ _ ⟨⟩), (by rintro _ _ _ _ _ _ ⟨⟩)⟩

/-- What was done stays done. -/
theorem Completed.mono {res : Except RefreshExn SignInOutcome} {past past' : List (TokenEvent H)}
    (h : Completed hash i c res past) (hpast : past <:+ past') : Completed hash i c res past' := by
  obtain ⟨newest, rfl⟩ := hpast
  refine ⟨fun presented outcome hres hout => ?_, fun presented now value active issued hc hres => ?_⟩
  · obtain ⟨familyId, newer, e, between, s, older, rfl, hclosed⟩ := h.closed presented outcome hres hout
    exact ⟨familyId, newest ++ newer, e, between, s, older, by rw [List.append_assoc], hclosed⟩
  · obtain ⟨e, he, haccepts⟩ := h.accepted presented now value active issued hc hres
    exact ⟨e, List.mem_append_right _ he, haccepts⟩

/-- The commit of a call that answers. -/
theorem Finished.completed (h : Finished hash i c outcome r) {r' : TokenHistory H}
    (hpast : r'.past = commitOf i c r.now :: r.past) : Completed hash i c (.ok outcome) r'.past := by
  refine ⟨fun presented outcome' hres hout => ?_, fun presented now value active issued hc hres => ?_⟩
  · cases hres
    obtain ⟨token, now, a, hrevoked⟩ := h.ended presented hout
    obtain ⟨between, s, older, hr, hwho, hop, hends⟩ := hrevoked.ends
    refine ⟨token.familyId, [], commitOf i c r.now, between, s, older, by rw [hpast, hr]; rfl, hwho, hop,
      rfl, rfl, ⟨token, hrevoked.revoking.locks.row, rfl⟩, hends⟩
  · subst hc
    obtain ⟨token, huses⟩ := h.tokens presented now value active issued rfl (Except.ok.inj hres)
    rw [hpast]
    exact ⟨_, List.mem_cons_self, rfl, rfl, now, value, active, token, rfl, huses⟩

variable [DecidableEq H]

theorem Finished.left (h : Finished hash i c outcome r) (hleft : (tokenLaw hash).Left Draws i r r₁) :
    Finished hash i c outcome r₁ := by
  refine ⟨h.tidy.left hleft, fun presented hout => ?_, fun presented now value active issued hc ho => ?_⟩
  · obtain ⟨token, now, a, hrevoked⟩ := h.ended presented hout
    exact ⟨token, now, a, hrevoked.left hleft⟩
  · obtain ⟨token, huses⟩ := h.tokens presented now value active issued hc ho
    exact ⟨token, huses.left hleft⟩

/-- The one transaction of a call. -/
theorem call_wp {α : Type} {m : TokenWork H α} (answer : α → SignInOutcome)
    (h : m.Wp (tokenRules hash) i c (fun res _ r' => ∀ a, res = .ok a → Finished hash i c (answer a) r') () r) :
    (do return answer (← transaction m) : TokenWork H SignInOutcome).Wp (tokenRules hash) i c
      (fun res _ r' => Completed hash i c res r'.past) () r := by
  refine wp_bind (CommitLaw.wp_transaction (Program.wp_mono h ?_))
  rintro ⟨e | a, ⟨⟩⟩ r' hfinished r₁ hleft
  · exact fun r₂ _ => completed_error e r₂.past
  · intro hdraws
    have hfinished₁ := (hfinished a rfl).left hleft
    exact ⟨hfinished₁.tidy.respects hleft.2.1 hleft.2.2 hdraws, fun r₂ _ hpast => hfinished₁.completed hpast⟩

theorem tokenWork_wp (hclean : r.now.Clean i) :
    (tokenWork hash c).Wp (tokenRules hash) i c (fun res _ r' => Completed hash i c res r'.past) () r := by
  cases c with
  | signIn userId now ttl familyId value =>
    refine call_wp _ (Proc.wp_mono (startFamily_wp hclean) ?_)
    rintro res ⟨⟩ r' htidy issued hres
    exact ⟨htidy issued hres, (by rintro presented ⟨⟩), (by rintro _ _ _ _ _ ⟨⟩)⟩
  | refresh presented now value active =>
    refine call_wp _ (Proc.wp_mono (tokenRefresh_wp hclean) ?_)
    rintro res ⟨⟩ r' hrefreshed answer hres
    obtain ⟨htidy, hended, htokens⟩ := hrefreshed answer hres
    refine ⟨htidy, fun presented' hout => ?_, fun presented' now' value' active' issued hc ho => ?_⟩
    · cases hout with
      | reused =>
        obtain ⟨token, a, hrevoked⟩ := hended (.inl rfl)
        exact ⟨token, now, a, hrevoked⟩
      | disabled =>
        obtain ⟨token, a, hrevoked⟩ := hended (.inr rfl)
        exact ⟨token, now, a, hrevoked⟩
    · cases hc
      exact htokens issued (SignInOutcome.refreshed.inj ho)
  | logout presented now =>
    refine call_wp _ (Proc.wp_mono (tokenRevoke_wp hclean) ?_)
    rintro res ⟨⟩ r' hrevoked known hres
    obtain ⟨htidy, hended⟩ := hrevoked known hres
    refine ⟨htidy, fun presented' hout => ?_, (by rintro _ _ _ _ _ ⟨⟩)⟩
    cases hout with
    | logout =>
      obtain ⟨token, a, h⟩ := hended rfl
      exact ⟨token, now, a, h⟩
  | sweep before =>
    refine call_wp _ (Proc.wp_mono (deleteExpiredRefreshTokens_wp hclean) ?_)
    rintro res ⟨⟩ r' htidy n hres
    exact ⟨htidy n hres, (by rintro presented ⟨⟩), (by rintro _ _ _ _ _ ⟨⟩)⟩

theorem tokenCode_covers : (tokenRules hash).Covers (tokenCode hash) (fun i r => r.now.Clean i)
    fun i c res r => Completed hash i c res.1 r.past where
  fresh_stable := fun _ _ _ hclean hr _ => hr.1.kept.clean hclean
  post_stable := fun _ _ _ _ _ h hr _ => h.mono hr.1.suffix
  code_ok := fun _ _ _ _ hclean => tokenWork_wp hclean

/-- A refresh has answered with a new pair for this token. -/
def Granted (i : Nat) (presented : String)
    (σ : Config (Stmt H (RefreshToken H)) Reply SignInCall (TokenHistory H) (Except RefreshExn SignInOutcome × Unit)) :
    Prop :=
  ∃ now value active issued, σ.threads i = .live (.refresh presented now value active)
    (.ret (.ok (.refreshed (.tokens issued)), ()))

variable {rows : TokenRows H} {keys : List H}
  {σ τ : Config (Stmt H (RefreshToken H)) Reply SignInCall (TokenHistory H) (Except RefreshExn SignInOutcome × Unit)}

theorem families_start (hnodup : keys.Nodup) (hkeys : ∀ k, rows k ≠ none → k ∈ keys)
    (hstart : Families hash rows []) : (tokenRules hash).inv ⟨Store.idle rows keys, []⟩ :=
  ⟨Store.idle_sound hnodup hkeys, hstart⟩

/-- However sign-ins, refreshes, logouts and sweeps take turns, and wherever one dies: a family has one live
token at most, and its tokens expire together; a refresh that answered with a new pair committed the use of a
token that was live and not expired; and no token is traded in twice. -/
theorem usable_once (hnodup : keys.Nodup) (hkeys : ∀ k, rows k ≠ none → k ∈ keys)
    (hstart : Families hash rows [])
    (h : Reaches ((semantics H (RefreshToken H) SignInCall).recorded.given Draws) (tokenCode hash)
      (.start ⟨Store.idle rows keys, []⟩) σ) :
    (∀ k l token other, σ.world.now.rows k = some token → σ.world.now.rows l = some other →
      token.familyId = other.familyId →
        token.expiresAt = other.expiresAt ∧ (token.Live → other.Live → k = l)) ∧
    (∀ i presented, Granted i presented σ → ∃ e ∈ σ.world.past, e.who = i ∧ Accepts hash presented e) ∧
    ∀ i j v w, Granted i v σ → Granted j w σ → hash v = hash w → i = j := by
  obtain ⟨⟨-, hok⟩, hthreads⟩ := Contract.sound tokenCode_covers (families_start hnodup hkeys hstart)
    (fun _ _ => rfl) h
  have haccepted : ∀ i presented, Granted i presented σ →
      ∃ e ∈ σ.world.past, e.who = i ∧ Accepts hash presented e := by
    rintro i presented ⟨now, value, active, issued, hi⟩
    have hcompleted := hthreads i
    rw [hi] at hcompleted
    exact hcompleted.accepted presented now value active issued rfl rfl
  refine ⟨fun k l token other hk hl hfamily => ?_, haccepted, fun i j v w hi hj heq => ?_⟩
  · exact ⟨(hok.same k l token other hk hl hfamily).2, hok.one k l token other hk hl hfamily⟩
  · obtain ⟨e, he, rfl, haccepts⟩ := haccepted i v hi
    obtain ⟨e', he', rfl, haccepts'⟩ := haccepted j w hj
    by_contra hother
    -- of two commits that accept one token the later finds it used
    have hne : e ≠ e' := fun h => hother (congrArg Event.who h)
    exact hok.once.forall (mem_commits.mpr ⟨he, haccepts.1⟩) (mem_commits.mpr ⟨he', haccepts'.1⟩) hne v w
      haccepts haccepts' heq

/-- A logout that found its token, a token that came back used, and a refresh of a disabled account end the
sign-in for good: unless a refresh of the family was committed between the query of the revocation and its
commit, no token of the family is live any more in any later state, and none is accepted after the commit. -/
theorem signed_out_for_good (hnodup : keys.Nodup) (hkeys : ∀ k, rows k ≠ none → k ∈ keys)
    (hstart : Families hash rows [])
    (h : Reaches ((semantics H (RefreshToken H) SignInCall).recorded.given Draws) (tokenCode hash)
      (.start ⟨Store.idle rows keys, []⟩) σ)
    {i : Nat} {call : SignInCall} {outcome : SignInOutcome} {presented : String}
    (hi : σ.threads i = .live call (.ret (.ok outcome, ()))) (hout : SignsOut presented call outcome)
    (hlater : Reaches ((semantics H (RefreshToken H) SignInCall).recorded.given Draws) (tokenCode hash) σ τ) :
    ∃ familyId newer e between s older, σ.world.past = newer ++ e :: (between ++ s :: older) ∧
      s.who = i ∧ s.op = .scan ∧ e.who = i ∧ e.op = .commit ∧
      (∃ token, e.before.rows (hash presented) = some token ∧ token.familyId = familyId) ∧
      ((∃ e' ∈ between, Rotates hash familyId e') ∨ Dead τ.world.now.rows familyId ∧
        ∀ newest e' earlier v token, τ.world.past = newest ++ e' :: earlier → e ∈ earlier → Accepts hash v e' →
          e'.before.rows (hash v) = some token → token.familyId ≠ familyId) := by
  have hcompleted := (Contract.sound tokenCode_covers (families_start hnodup hkeys hstart) (fun _ _ => rfl) h).2 i
  rw [hi] at hcompleted
  obtain ⟨familyId, newer, e, between, s, older, hpast, hwho, hop, hcloses⟩ :=
    hcompleted.closed presented outcome rfl hout
  refine ⟨familyId, newer, e, between, s, older, hpast, hwho, hop, hcloses.who, hcloses.op, hcloses.token, ?_⟩
  rcases hcloses.ends with hrotates | hends
  · exact .inl hrotates
  have hok := (Contract.sound tokenCode_covers (families_start hnodup hkeys hstart) (fun _ _ => rfl)
    (h.trans hlater)).1.2
  have he : e ∈ commits τ.world.past := by
    refine mem_commits.mpr ⟨(past_suffix_of_reaches hlater).mem ?_, hcloses.op⟩
    rw [hpast]
    exact List.mem_append_right _ List.mem_cons_self
  refine .inr ⟨hok.dead e he familyId hends, fun newest e' earlier v token hτ hearlier haccepts hrow hfamily => ?_⟩
  obtain ⟨hcommit, now, value, active, token', -, huses⟩ := haccepts
  have hsplit : commits τ.world.past = commits newest ++ e' :: commits earlier := by
    rw [hτ, commits, List.filter_append, List.filter_cons_of_pos]
    · rfl
    · rw [hcommit]
      rfl
  have hrefused := hok.refused
  rw [hsplit] at hrefused
  have hdead := (List.pairwise_cons.mp (List.pairwise_append.mp hrefused).2.1).1 e
    (mem_commits.mpr ⟨hearlier, hcloses.op⟩) familyId hends
  rw [huses.row] at hrow
  obtain rfl := Option.some.inj hrow
  exact hdead _ _ huses.row hfamily huses.live

end Runs

/-! ## One token, presented twice -/

theorem families_empty {H : Type} (hash : String → H) : Families hash (fun _ => none) [] where
  one := by rintro k l token other ⟨⟩
  same := by rintro k l token other ⟨⟩
  hashed := by rintro k token ⟨⟩
  sound := by rintro e ⟨⟩
  spent := by rintro e ⟨⟩
  once := List.Pairwise.nil
  dead := by rintro e ⟨⟩
  refused := List.Pairwise.nil

def signedIn : UserId := ⟨List.replicate 16 0x71, List.length_replicate⟩

def atSignIn : Moment := ⟨1761000000000000, by decide⟩

def onLaptop : FamilyId := ⟨0x1AB, by decide⟩

/-- A sign-in for an hour. -/
def login : SignInCall := .signIn signedIn atSignIn 3600000000 onLaptop "first"

/-- `n` statements of a thread. -/
def statementsBy (i n : Nat) : List (Turn SignInCall Unit) := List.replicate n (.act i ())

abbrev noTokens : TokenHistory String := ⟨Store.idle (fun _ => none) [], []⟩

/-- Two refreshes with one token: the second waits for the first, and finds the token used. -/
def presentedTwice : List (Turn SignInCall Unit) :=
  [.spawn 0 login] ++ statementsBy 0 2 ++ [.spawn 1 (.refresh "first" atSignIn "second" true)] ++
    statementsBy 1 2 ++ [.spawn 2 (.refresh "first" atSignIn "third" true)] ++ statementsBy 1 2 ++
    statementsBy 2 7

/-- The first refresh has its pair, and the second was told of the reuse. -/
def onePair (σ : Config (Stmt String (RefreshToken String)) Reply SignInCall (TokenHistory String)
    (Except RefreshExn SignInOutcome × Unit)) : Bool :=
  Decidable.decide ((σ.threads 1).result = some (.refresh "first" atSignIn "second" true,
      .ok (.refreshed (.tokens ⟨"second", ⟨1761003600000000, by decide⟩, signedIn, onLaptop⟩)), ()) ∧
    (σ.threads 2).result = some (.refresh "first" atSignIn "third" true,
      .ok (.refreshed (.refused .reused)), ()))

theorem presentedTwice_reached :
    ∃ σ, Reaches ((semantics String (RefreshToken String) SignInCall).recorded.given Draws) (tokenCode id)
      (.start noTokens) σ ∧ onePair σ = true :=
  reaches_of_replay (tokenCode id) (responder.recorded.given Draws) (.start noTokens) presentedTwice onePair
    (by decide +kernel)

theorem usable_once_presentedTwice :
    ∃ σ, Reaches ((semantics String (RefreshToken String) SignInCall).recorded.given Draws) (tokenCode id)
        (.start noTokens) σ ∧ Granted 1 "first" σ ∧
      (∃ e ∈ σ.world.past, e.who = 1 ∧ Accepts id "first" e) ∧
      ∀ j w, Granted j w σ → "first" = w → 1 = j := by
  obtain ⟨σ, hσ, hpair⟩ := presentedTwice_reached
  rw [onePair] at hpair
  have hgranted : Granted 1 "first" σ :=
    ⟨_, _, _, _, Thread.live_of_result (of_decide_eq_true hpair).1⟩
  obtain ⟨-, haccepted, honce⟩ := usable_once List.nodup_nil (by simp) (families_empty id) hσ
  exact ⟨σ, hσ, hgranted, haccepted 1 "first" hgranted, fun j w hj heq => honce 1 j "first" w hgranted hj heq⟩

theorem signed_out_for_good_presentedTwice :
    ∃ σ, Reaches ((semantics String (RefreshToken String) SignInCall).recorded.given Draws) (tokenCode id)
        (.start noTokens) σ ∧
      ∃ familyId newer e between s older, σ.world.past = newer ++ e :: (between ++ s :: older) ∧
        s.who = 2 ∧ s.op = .scan ∧ e.who = 2 ∧ e.op = .commit ∧
        (∃ token, e.before.rows "first" = some token ∧ token.familyId = familyId) ∧
        ((∃ e' ∈ between, Rotates id familyId e') ∨ Dead σ.world.now.rows familyId ∧
          ∀ newest e' earlier v token, σ.world.past = newest ++ e' :: earlier → e ∈ earlier → Accepts id v e' →
            e'.before.rows (id v) = some token → token.familyId ≠ familyId) := by
  obtain ⟨σ, hσ, hpair⟩ := presentedTwice_reached
  rw [onePair] at hpair
  exact ⟨σ, hσ, signed_out_for_good List.nodup_nil (by simp) (families_empty id) hσ
    (Thread.live_of_result (of_decide_eq_true hpair).2) (.reused atSignIn "third" true) .refl⟩

/-- A logout with the used token queries the family while a refresh has a new token that is not committed. -/
def rotatedMeanwhile : List (Turn SignInCall Unit) :=
  [.spawn 0 login] ++ statementsBy 0 2 ++ [.spawn 1 (.refresh "first" atSignIn "second" true)] ++
    statementsBy 1 4 ++ [.spawn 2 (.refresh "second" atSignIn "third" true)] ++ statementsBy 2 3 ++
    [.spawn 3 (.logout "first" atSignIn)] ++ statementsBy 3 2 ++ statementsBy 2 1 ++ statementsBy 3 5

/-- The logout has revoked the family, and the token that was committed meanwhile is live. -/
theorem rotated_meanwhile_slips :
    ∃ σ, Reaches ((semantics String (RefreshToken String) SignInCall).recorded.given Draws) (tokenCode id)
        (.start noTokens) σ ∧
      σ.threads 3 = .live (.logout "first" atSignIn) (.ret (.ok (.loggedOut true), ())) ∧
        ∃ token, σ.world.now.rows "third" = some token ∧ token.familyId = onLaptop ∧ token.Live := by
  obtain ⟨σ, hσ, hc⟩ := reaches_of_replay (tokenCode id) (responder.recorded.given Draws) (.start noTokens)
    rotatedMeanwhile (fun σ => Decidable.decide
      ((σ.threads 3).result = some (.logout "first" atSignIn, .ok (.loggedOut true), ()) ∧
        ∃ token ∈ σ.world.now.rows "third", token.familyId = onLaptop ∧ token.usedAt = none ∧
          token.revokedAt = none)) (by decide +kernel)
  obtain ⟨hthread, token, hrow, hfamily, hlive⟩ := of_decide_eq_true hc
  exact ⟨σ, hσ, Thread.live_of_result hthread, token, hrow, hfamily, hlive⟩

end Coinpilot.Records
