import Coinpilot.Web.Session

/-!
# A browser stays signed in

A refresh spends the token that it presents, and a spent token that comes back ends the sign-in. As long as
no answer to a refresh is lost, the browser presents none: one refresh is under way at a time, and what the
cookie holds, what was sent and what is on its way are unused and apart (`Kept`). So a sign-in lasts until it
expires, or until a logout or the end of the account (`refresh_is_answered`).
-/

set_option autoImplicit false

namespace Coinpilot.Web

open Coinpilot.Core Coinpilot.Core.Refresh

variable {H : Type}

/-! ## The invariant -/

/-- No row of the value is used. -/
def Unused (hash : String → H) (server : SignIns H) (v : String) : Prop :=
  ∀ t ∈ server.table.rows, t.tokenHash = hash v → t.usedAt = none

/-- The values of this browser make up its sign-ins, which nobody else has a value of. -/
structure Owns (hash : String → H) (server : SignIns H) (mine : List (String × FamilyId))
    (ended : List FamilyId) : Prop where
  issued : ∀ v f, (v, f) ∈ mine → v ∈ server.issued
  known : ∀ v f, (v, f) ∈ mine → f ∈ server.families.map Prod.fst
  row : ∀ v f, (v, f) ∈ mine → f ∈ server.swept ∨
    ∃ t ∈ server.table.rows, t.tokenHash = hash v ∧ t.familyId = f
  family : ∀ v f, (v, f) ∈ mine → ∀ t ∈ server.table.rows, t.tokenHash = hash v → t.familyId = f
  value : ∀ w f, (w, f) ∈ mine → ∀ t ∈ server.table.rows, t.familyId = f →
    ∃ v, (v, f) ∈ mine ∧ t.tokenHash = hash v
  revoked : ∀ w f, (w, f) ∈ mine → ∀ t ∈ server.table.rows, t.familyId = f →
    t.revokedAt ≠ none → f ∈ ended

/-- A value that the browser may present. -/
def Good (hash : String → H) (s : Browser H) (v : String) : Prop :=
  (∃ f, (v, f) ∈ s.mine) ∧ Unused hash s.server v

/-- One refresh is under way at most, and what the browser will present is unused. -/
structure Kept (hash : String → H) (locks : Bool) (only : Tab) (s : Browser H) : Prop where
  chained : Chained hash s.server
  owns : Owns hash s.server s.mine s.ended
  locked : locks = true → ∀ tab, (s.tabs tab).Active → s.lock = some tab
  alone : locks = false → ∀ tab, s.tabs tab ≠ .idle → tab = only
  cookie : ∀ v, s.cookie = some v → (∃ f, (v, f) ∈ s.mine) ∧ v ∉ s.arriving ∧
    (Unused hash s.server v ∨ ∃ tab change, s.tabs tab = .answered change ∧ change ≠ .keep)
  sent : ∀ tab v, s.tabs tab = .sent (some v) → Good hash s v ∧ v ∉ s.arriving
  answered : ∀ tab v, s.tabs tab = .answered (.set v) → Good hash s v ∧ v ∉ s.arriving
  arriving : ∀ v ∈ s.arriving, Good hash s v
  apart : s.arriving.Nodup

theorem kept_start (hash : String → H) (locks : Bool) (only : Tab) :
    Kept hash locks only (Browser.start : Browser H) where
  chained := chained_empty
  owns := by constructor <;> simp [Browser.start]
  locked _ _ h := h.elim
  alone _ _ h := (h rfl).elim
  cookie _ h := by cases h
  sent _ _ h := by cases h
  answered _ _ h := by cases h
  arriving := by simp [Browser.start, Browser.arriving]
  apart := by simp [Browser.start, Browser.arriving]

variable {hash : String → H} {locks : Bool} {only : Tab} {s s' : Browser H}

/-- No two tabs are past the lock. -/
theorem Kept.single (h : Kept hash locks only s) {tab other : Tab} (ht : (s.tabs tab).Active)
    (ho : (s.tabs other).Active) : tab = other := by
  have hbusy : ∀ u, (s.tabs u).Active → s.tabs u ≠ .idle := by
    intro u hu hidle
    rw [hidle] at hu
    exact hu
  cases locks with
  | true => exact Option.some.inj ((h.locked rfl tab ht).symm.trans (h.locked rfl other ho))
  | false => exact (h.alone rfl tab (hbusy tab ht)).trans (h.alone rfl other (hbusy other ho)).symm

/-- While another refresh is not answered, the cookie is unused. -/
theorem Kept.cookie_good (h : Kept hash locks only s) {tab : Tab} (hactive : (s.tabs tab).Active)
    (hanswered : ∀ change, s.tabs tab = .answered change → change = .keep) {v : String}
    (hv : s.cookie = some v) : Good hash s v ∧ v ∉ s.arriving := by
  obtain ⟨hmine, hnew, hunused | ⟨other, change, hother, hchange⟩⟩ := h.cookie v hv
  · exact ⟨⟨hmine, hunused⟩, hnew⟩
  · -- a tab that was answered is past the lock too
    have hsame : tab = other := h.single hactive (by rw [hother]; trivial)
    exact absurd (hanswered change (hsame ▸ hother)) hchange

/-! ## What an operation of the platform keeps -/

section Server

variable [DecidableEq H] {server server' : SignIns H} {e : Happening}

theorem Unused.shift (hinjective : Function.Injective hash) {v : String} (h : Unused hash server v)
    (hshift : Shift hash server e server') (hspends : ¬e.Spends hash server v) :
    Unused hash server' v := by
  intro t' ht' hhash
  rcases hshift.row t' ht' with ⟨t, ht, hthash, -, hused, -⟩ | ⟨w, -, -, hunused, -⟩
  · have hv : t.tokenHash = hash v := hthash.symm.trans hhash
    rcases hused with hsame | ⟨w, hw, hwhash⟩
    · exact hsame.trans (h t ht hv)
    · exact absurd (hinjective (hwhash.symm.trans hv) ▸ hw) hspends
  · exact hunused

/-- A value that is issued now has no used row. -/
theorem unused_of_issues (hinjective : Function.Injective hash) (hchained : Chained hash server)
    {v : String} (hnew : v ∉ server.issued) (hshift : Shift hash server e server') :
    Unused hash server' v := by
  intro t' ht' hhash
  rcases hshift.row t' ht' with ⟨t, ht, hthash, -, -, -⟩ | ⟨w, -, -, hunused, -⟩
  · obtain ⟨w, hw, hwhash⟩ := hchained.stored t ht
    have heq : w = v := hinjective (hwhash.symm.trans (hthash.symm.trans hhash))
    exact absurd (heq ▸ hw) hnew
  · exact hunused

theorem issues_new {v : String} {f : FamilyId} (hfresh : Fresh server e) (h : e.Issues hash server v f) :
    v ∉ server.issued := by
  cases e with
  | startFamily userId now ttl familyId value =>
    obtain ⟨rfl, -, -⟩ := h
    exact hfresh.2
  | refresh presented now value active =>
    obtain ⟨rfl, -, -⟩ := h
    exact hfresh
  | revoke presented now => exact h.elim
  | sweep now => exact h.elim

theorem issues_once {v : String} {f g : FamilyId} (hf : e.Issues hash server v f)
    (hg : e.Issues hash server v g) : f = g := by
  cases e with
  | startFamily userId now ttl familyId value => exact hf.2.1.trans hg.2.1.symm
  | refresh presented now value active => exact Option.some.inj (hf.2.1.symm.trans hg.2.1)
  | revoke presented now => exact hf.elim
  | sweep now => exact hf.elim

/-- The operation issues what the browser adds to its own, and no other value of its sign-ins. -/
structure Adds (hash : String → H) (server : SignIns H) (e : Happening) (mine mine' : List (String × FamilyId))
    (ended ended' : List FamilyId) : Prop where
  old : ∀ v f, (v, f) ∈ mine → (v, f) ∈ mine'
  new : ∀ v f, (v, f) ∈ mine' → (v, f) ∈ mine ∨ e.Issues hash server v f
  all : ∀ w f, (w, f) ∈ mine' → ∀ v, e.Issues hash server v f → (v, f) ∈ mine'
  begun : ∀ w f, (w, f) ∈ mine' → (∃ v, (v, f) ∈ mine) ∨ ∀ t ∈ server.table.rows, t.familyId ≠ f
  still : ∀ f ∈ ended, f ∈ ended'
  ends : ∀ w f, (w, f) ∈ mine' → e.Ends hash server f → f ∈ ended'

theorem Owns.shift (hinjective : Function.Injective hash) {mine mine' : List (String × FamilyId)}
    {ended ended' : List FamilyId} (h : Owns hash server mine ended) (hbefore : Chained hash server)
    (hchained : Chained hash server') (hfresh : Fresh server e) (hshift : Shift hash server e server')
    (hadds : Adds hash server e mine mine' ended ended') :
    Owns hash server' mine' ended' where
  issued v f hv := by
    rcases hadds.new v f hv with hv | hv
    · exact hshift.issued v (h.issued v f hv)
    · obtain ⟨t, ht, hhash, -⟩ := hshift.issues v f hv
      obtain ⟨w, hw, hwhash⟩ := hchained.stored t ht
      exact hinjective (hwhash.symm.trans hhash) ▸ hw
  known v f hv := by
    rcases hadds.new v f hv with hv | hv
    · exact hshift.families f (h.known v f hv)
    · obtain ⟨t, ht, -, hfamily⟩ := hshift.issues v f hv
      exact List.mem_map.mpr ⟨_, hchained.expiry t ht, hfamily⟩
  row v f hv := by
    rcases hadds.new v f hv with hv | hv
    · rcases h.row v f hv with hswept | ⟨t, ht, hhash, hfamily⟩
      · exact .inl (hshift.swept f hswept)
      · rcases hshift.stays t ht with hswept | ⟨t', ht', hthash, htfamily⟩
        · exact .inl (hfamily ▸ hswept)
        · exact .inr ⟨t', ht', hthash.trans hhash, htfamily.trans hfamily⟩
    · exact .inr (hshift.issues v f hv)
  family v f hv t' ht' hhash := by
    rcases hshift.row t' ht' with ⟨t, ht, hthash, htfamily, -, -⟩ | ⟨w, hw, hwhash, -, -⟩
    · rcases hadds.new v f hv with hv | hv
      · exact htfamily.trans (h.family v f hv t ht (hthash.symm.trans hhash))
      · obtain ⟨w, hw, hwhash⟩ := hbefore.stored t ht
        have heq : w = v := hinjective (hwhash.symm.trans (hthash.symm.trans hhash))
        exact absurd (heq ▸ hw) (issues_new hfresh hv)
    · obtain rfl : w = v := hinjective (hwhash.symm.trans hhash)
      rcases hadds.new w f hv with hv | hv
      · exact absurd (h.issued w f hv) (issues_new hfresh hw)
      · exact issues_once hw hv
  value w f hw t' ht' hfamily := by
    rcases hshift.row t' ht' with ⟨t, ht, hthash, htfamily, -, -⟩ | ⟨v, hv, hthash, -, -⟩
    · rcases hadds.begun w f hw with ⟨u, hu⟩ | hnone
      · obtain ⟨v, hv, hvhash⟩ := h.value u f hu t ht (htfamily.symm.trans hfamily)
        exact ⟨v, hadds.old v f hv, hthash.trans hvhash⟩
      · exact absurd (htfamily.symm.trans hfamily) (hnone t ht)
    · exact ⟨v, hadds.all w f hw v (hfamily ▸ hv), hthash⟩
  revoked w f hw t' ht' hfamily hrevoked := by
    rcases hshift.row t' ht' with ⟨t, ht, -, htfamily, -, hsame | hends⟩ | ⟨v, -, -, -, hlive | hends⟩
    · rcases hadds.begun w f hw with ⟨u, hu⟩ | hnone
      · exact hadds.still f (h.revoked u f hu t ht (htfamily.symm.trans hfamily) (hsame ▸ hrevoked))
      · exact absurd (htfamily.symm.trans hfamily) (hnone t ht)
    · exact hadds.ends w f hw (hfamily ▸ htfamily ▸ hends)
    · exact absurd hlive hrevoked
    · exact hadds.ends w f hw (hfamily ▸ hends)

end Server

/-! ## Every step keeps the invariant -/

theorem tabs_at_cases (s : Browser H) {tab u : Tab} {state x : TabState}
    (h : (s.at tab state).tabs u = x) : (u = tab ∧ state = x) ∨ (u ≠ tab ∧ s.tabs u = x) := by
  by_cases hu : u = tab
  · subst hu
    exact .inl ⟨rfl, by simpa [Browser.at] using h⟩
  · exact .inr ⟨hu, by simpa [Browser.at, hu] using h⟩

theorem tabs_at_other (s : Browser H) {tab u : Tab} (state : TabState) (hu : u ≠ tab) :
    (s.at tab state).tabs u = s.tabs u := by
  simp [Browser.at, hu]

/-- The tab that has been given a state which is not past the lock, and the others. -/
theorem active_at (s : Browser H) {tab u : Tab} (state : TabState) (hstate : ¬state.Active)
    (hactive : ((s.at tab state).tabs u).Active) : u ≠ tab ∧ (s.tabs u).Active := by
  by_cases hu : u = tab
  · subst hu
    exact absurd (by simpa [Browser.at] using hactive) hstate
  · exact ⟨hu, tabs_at_other s state hu ▸ hactive⟩

/-- An answer that a tab already had is there as long as another tab moves. -/
theorem answered_at {tab : Tab} (state : TabState) (hfree : ∀ change, s.tabs tab ≠ .answered change)
    (h : ∃ u change, s.tabs u = .answered change ∧ change ≠ .keep) :
    ∃ u change, (s.at tab state).tabs u = .answered change ∧ change ≠ .keep := by
  obtain ⟨u, change, hu, hchange⟩ := h
  have hne : u ≠ tab := by
    rintro rfl
    exact hfree change hu
  exact ⟨u, change, (tabs_at_other s state hne).trans hu, hchange⟩

theorem kept_need (h : Kept hash locks only s) {tab : Tab} (hidle : s.tabs tab = .idle)
    (horderly : locks = true ∨ tab = only) : Kept hash locks only (s.at tab .waiting) where
  chained := h.chained
  owns := h.owns
  locked hlocks u hu := h.locked hlocks u (active_at s .waiting (by simp [TabState.Active]) hu).2
  alone hlocks u hu := by
    by_cases heq : u = tab
    · exact heq.trans (horderly.resolve_left (by simp [hlocks]))
    · exact h.alone hlocks u (tabs_at_other s .waiting heq ▸ hu)
  cookie v hv := by
    obtain ⟨hmine, hnew, hunused⟩ := h.cookie v hv
    exact ⟨hmine, hnew, hunused.imp_right (answered_at .waiting (by simp [hidle]))⟩
  sent u v hu := by
    rcases tabs_at_cases s hu with ⟨-, hx⟩ | ⟨-, hx⟩
    · cases hx
    · exact h.sent u v hx
  answered u v hu := by
    rcases tabs_at_cases s hu with ⟨-, hx⟩ | ⟨-, hx⟩
    · cases hx
    · exact h.answered u v hx
  arriving := h.arriving
  apart := h.apart

theorem kept_grant (h : Kept hash locks only s) {tab : Tab} (hwaiting : s.tabs tab = .waiting)
    (hlock : locks = true → s.lock = none) :
    Kept hash locks only { s.at tab .holding with lock := if locks then some tab else s.lock } where
  chained := h.chained
  owns := h.owns
  locked hlocks u hu := by
    by_cases heq : u = tab
    · rw [heq]
      exact if_pos hlocks
    · -- the lock was free
      have hheld := h.locked hlocks u (tabs_at_other s .holding heq ▸ hu)
      rw [hlock hlocks] at hheld
      cases hheld
  alone hlocks u hu := by
    by_cases heq : u = tab
    · exact heq ▸ h.alone hlocks tab (by simp [hwaiting])
    · exact h.alone hlocks u (tabs_at_other s .holding heq ▸ hu)
  cookie v hv := by
    obtain ⟨hmine, hnew, hunused⟩ := h.cookie v hv
    exact ⟨hmine, hnew, hunused.imp_right (answered_at .holding (by simp [hwaiting]))⟩
  sent u v hu := by
    rcases tabs_at_cases s hu with ⟨-, hx⟩ | ⟨-, hx⟩
    · cases hx
    · exact h.sent u v hx
  answered u v hu := by
    rcases tabs_at_cases s hu with ⟨-, hx⟩ | ⟨-, hx⟩
    · cases hx
    · exact h.answered u v hx
  arriving := h.arriving
  apart := h.apart

theorem active_moved (h : Kept hash locks only s) {tab : Tab} (hactive : (s.tabs tab).Active)
    (state : TabState) (hlocks : locks = true) {u : Tab} (hu : ((s.at tab state).tabs u).Active) :
    s.lock = some u := by
  by_cases heq : u = tab
  · exact heq ▸ h.locked hlocks tab hactive
  · exact h.locked hlocks u (tabs_at_other s state heq ▸ hu)

theorem busy_moved (h : Kept hash locks only s) {tab : Tab} (hactive : (s.tabs tab).Active)
    (state : TabState) (hlocks : locks = false) {u : Tab} (hu : (s.at tab state).tabs u ≠ .idle) :
    u = only := by
  by_cases heq : u = tab
  · refine heq ▸ h.alone hlocks tab ?_
    intro hidle
    rw [hidle] at hactive
    exact hactive
  · exact h.alone hlocks u (tabs_at_other s state heq ▸ hu)

theorem kept_send (h : Kept hash locks only s) {tab : Tab} (hholding : s.tabs tab = .holding) :
    Kept hash locks only (s.at tab (.sent s.cookie)) where
  chained := h.chained
  owns := h.owns
  locked hlocks u hu := active_moved h (by rw [hholding]; trivial) _ hlocks hu
  alone hlocks u hu := busy_moved h (by rw [hholding]; trivial) _ hlocks hu
  cookie v hv := by
    obtain ⟨hmine, hnew, hunused⟩ := h.cookie v hv
    exact ⟨hmine, hnew, hunused.imp_right (answered_at _ (by simp [hholding]))⟩
  sent u v hu := by
    rcases tabs_at_cases s hu with ⟨-, hx⟩ | ⟨-, hx⟩
    · exact h.cookie_good (by rw [hholding]; trivial : (s.tabs tab).Active) (by simp [hholding])
        (TabState.sent.inj hx)
    · exact h.sent u v hx
  answered u v hu := by
    rcases tabs_at_cases s hu with ⟨-, hx⟩ | ⟨-, hx⟩
    · cases hx
    · exact h.answered u v hx
  arriving := h.arriving
  apart := h.apart

/-- A refresh is over, and the cookie it leaves may be presented. -/
theorem kept_finish (h : Kept hash locks only s) {tab : Tab} (hactive : (s.tabs tab).Active)
    {cookie : Option String} (hcookie : ∀ v, cookie = some v → Good hash s v ∧ v ∉ s.arriving) :
    Kept hash locks only (finish s tab cookie) where
  chained := h.chained
  owns := h.owns
  locked hlocks u hu := by
    obtain ⟨hne, hu⟩ := active_at s .idle (by simp [TabState.Active]) hu
    have hlock := h.locked hlocks u hu
    -- the lock that is given back is another tab's
    have hother : s.lock ≠ some tab := by
      rw [hlock]
      exact fun heq => hne (Option.some.inj heq)
    exact (if_neg hother).trans hlock
  alone hlocks u hu := busy_moved h hactive .idle hlocks hu
  cookie v hv := by
    obtain ⟨⟨hmine, hunused⟩, hnew⟩ := hcookie v hv
    exact ⟨hmine, hnew, .inl hunused⟩
  sent u v hu := by
    rcases tabs_at_cases s hu with ⟨-, hx⟩ | ⟨-, hx⟩
    · cases hx
    · exact h.sent u v hx
  answered u v hu := by
    rcases tabs_at_cases s hu with ⟨-, hx⟩ | ⟨-, hx⟩
    · cases hx
    · exact h.answered u v hx
  arriving := h.arriving
  apart := h.apart

theorem kept_deliver (h : Kept hash locks only s) {tab : Tab} {change : CookieChange}
    (hanswered : s.tabs tab = .answered change) :
    Kept hash locks only (finish s tab (change.apply s.cookie)) := by
  have hactive : (s.tabs tab).Active := by rw [hanswered]; trivial
  refine kept_finish h hactive ?_
  intro v hv
  cases change with
  | keep =>
    refine h.cookie_good hactive ?_ hv
    intro change hchange
    exact (TabState.answered.inj (hanswered.symm.trans hchange)).symm
  | set w =>
    obtain rfl : w = v := Option.some.inj hv
    exact h.answered tab w hanswered
  | clear => cases hv

/-! ### The answers under way -/

theorem arriving_eraseIdx {n : Nat} {v : String}
    (hv : v ∈ ({ s with arrivals := s.arrivals.eraseIdx n } : Browser H).arriving) : v ∈ s.arriving :=
  (List.Sublist.filterMap _ (List.eraseIdx_sublist _ _)).subset hv

/-- The value that arrives is in no other answer. -/
theorem arrived_apart (hapart : s.arriving.Nodup) {n : Nat} {v : String} (hn : s.arrivals[n]? = some (.set v)) :
    v ∈ s.arriving ∧ v ∉ ({ s with arrivals := s.arrivals.eraseIdx n } : Browser H).arriving := by
  obtain ⟨hlt, hget⟩ := List.getElem?_eq_some_iff.mp hn
  have hperm := (List.getElem_cons_eraseIdx_perm hlt).filterMap CookieChange.value?
  rw [hget, List.filterMap_cons_some (show CookieChange.value? (.set v) = some v from rfl)] at hperm
  have hnodup := hperm.nodup_iff.mpr hapart
  exact ⟨hperm.mem_iff.mp List.mem_cons_self, (List.nodup_cons.mp hnodup).1⟩

theorem kept_drop (h : Kept hash locks only s) (n : Nat) :
    Kept hash locks only { s with arrivals := s.arrivals.eraseIdx n } where
  chained := h.chained
  owns := h.owns
  locked := h.locked
  alone := h.alone
  cookie v hv := by
    obtain ⟨hmine, hnew, hunused⟩ := h.cookie v hv
    exact ⟨hmine, fun hin => hnew (arriving_eraseIdx hin), hunused⟩
  sent u v hu := (h.sent u v hu).imp_right fun hnew hin => hnew (arriving_eraseIdx hin)
  answered u v hu := (h.answered u v hu).imp_right fun hnew hin => hnew (arriving_eraseIdx hin)
  arriving v hv := h.arriving v (arriving_eraseIdx hv)
  apart := h.apart.sublist (List.Sublist.filterMap _ (List.eraseIdx_sublist _ _))

/-- A cookie that may be presented replaces the one that is there, or none is left. -/
theorem kept_cookie (h : Kept hash locks only s) {cookie : Option String}
    (hcookie : ∀ v, cookie = some v → Good hash s v ∧ v ∉ s.arriving) :
    Kept hash locks only { s with cookie } where
  chained := h.chained
  owns := h.owns
  locked := h.locked
  alone := h.alone
  cookie v hv := by
    obtain ⟨⟨hmine, hunused⟩, hnew⟩ := hcookie v hv
    exact ⟨hmine, hnew, .inl hunused⟩
  sent := h.sent
  answered := h.answered
  arriving := h.arriving
  apart := h.apart

theorem kept_logouts (h : Kept hash locks only s) (logouts : List (Option String)) :
    Kept hash locks only { s with logouts } where
  chained := h.chained
  owns := h.owns
  locked := h.locked
  alone := h.alone
  cookie := h.cookie
  sent := h.sent
  answered := h.answered
  arriving := h.arriving
  apart := h.apart

theorem kept_arrive (h : Kept hash locks only s) {n : Nat} {change : CookieChange}
    (hn : s.arrivals[n]? = some change) :
    Kept hash locks only
      { s with arrivals := s.arrivals.eraseIdx n, cookie := change.apply s.cookie } := by
  have hdropped := kept_drop h n
  cases change with
  | keep => exact hdropped
  | set w =>
    obtain ⟨hin, hout⟩ := arrived_apart h.apart hn
    refine kept_cookie hdropped ?_
    rintro v ⟨rfl⟩
    exact ⟨h.arriving _ hin, hout⟩
  | clear =>
    refine kept_cookie hdropped ?_
    rintro v ⟨⟩

/-- A value that is drawn now is none that the browser has. -/
theorem Kept.not_mine (h : Kept hash locks only s) {value v : String} (hnew : value ∉ s.server.issued)
    (hmine : ∃ f, (v, f) ∈ s.mine) : v ≠ value := by
  rintro rfl
  obtain ⟨f, hf⟩ := hmine
  exact hnew (h.owns.issued v f hf)

theorem arriving_append (s : Browser H) (change : CookieChange) :
    ({ s with arrivals := s.arrivals ++ [change] } : Browser H).arriving =
      s.arriving ++ (change.value?).toList := by
  rw [Browser.arriving, List.filterMap_append]
  cases change <;> rfl

theorem kept_clear (h : Kept hash locks only s) :
    Kept hash locks only { s with arrivals := s.arrivals ++ [.clear] } := by
  have hsame : ({ s with arrivals := s.arrivals ++ [.clear] } : Browser H).arriving = s.arriving :=
    (arriving_append s .clear).trans (List.append_nil _)
  constructor
  · exact h.chained
  · exact h.owns
  · exact h.locked
  · exact h.alone
  · exact fun v hv => hsame ▸ h.cookie v hv
  · exact fun u v hu => hsame ▸ h.sent u v hu
  · exact fun u v hu => hsame ▸ h.answered u v hu
  · exact fun v hv => h.arriving v (hsame ▸ hv)
  · exact hsame ▸ h.apart

/-- The answer to a sign-in is under way, with a value that the browser has nowhere else. -/
theorem kept_set (h : Kept hash locks only s) {value : String} (hgood : Good hash s value)
    (hcookie : s.cookie ≠ some value) (hsent : ∀ u, s.tabs u ≠ .sent (some value))
    (hanswered : ∀ u, s.tabs u ≠ .answered (.set value)) (harriving : value ∉ s.arriving) :
    Kept hash locks only { s with arrivals := s.arrivals ++ [.set value] } := by
  have hall : ({ s with arrivals := s.arrivals ++ [.set value] } : Browser H).arriving =
      s.arriving ++ [value] := arriving_append s (.set value)
  have hout : ∀ v, v ∉ s.arriving → v ≠ value →
      v ∉ ({ s with arrivals := s.arrivals ++ [.set value] } : Browser H).arriving := by
    intro v hv hne
    rw [hall]
    simp [hv, hne]
  constructor
  · exact h.chained
  · exact h.owns
  · exact h.locked
  · exact h.alone
  · intro v hv
    obtain ⟨hmine, hnew, hunused⟩ := h.cookie v hv
    exact ⟨hmine, hout v hnew fun heq => hcookie (heq ▸ hv), hunused⟩
  · intro u v hu
    obtain ⟨hv, hnew⟩ := h.sent u v hu
    exact ⟨hv, hout v hnew fun heq => hsent u (heq ▸ hu)⟩
  · intro u v hu
    obtain ⟨hv, hnew⟩ := h.answered u v hu
    exact ⟨hv, hout v hnew fun heq => hanswered u (heq ▸ hu)⟩
  · intro v hv
    rw [hall] at hv
    rcases List.mem_append.mp hv with hv | hv
    · exact h.arriving v hv
    · exact List.mem_singleton.mp hv ▸ hgood
  · rw [hall, ← List.concat_eq_append]
    exact h.apart.concat harriving

section Platform

variable [DecidableEq H]

/-! ### The platform's part -/

/-- Other values than the one that is spent may still be presented. -/
theorem Good.shift (hinjective : Function.Injective hash) {v : String} (h : Good hash s v)
    {server' : SignIns H} {mine' : List (String × FamilyId)} {e : Happening}
    (hshift : Shift hash s.server e server') (hold : ∀ v f, (v, f) ∈ s.mine → (v, f) ∈ mine')
    (hspends : ¬e.Spends hash s.server v) :
    (∃ f, (v, f) ∈ mine') ∧ Unused hash server' v := by
  obtain ⟨⟨f, hf⟩, hunused⟩ := h
  exact ⟨⟨f, hold v f hf⟩, hunused.shift hinjective hshift hspends⟩

/-- An operation that spends no value of this browser. -/
theorem kept_operation (hinjective : Function.Injective hash) (h : Kept hash locks only s) {e : Happening}
    (hfresh : Fresh s.server e) {mine' : List (String × FamilyId)} {ended' : List FamilyId}
    (hadds : Adds hash s.server e s.mine mine' s.ended ended')
    (hspends : ∀ v f, (v, f) ∈ s.mine → ¬e.Spends hash s.server v) :
    Kept hash locks only
      { s with server := s.server.after hash e, mine := mine', ended := ended' } := by
  have hshift := @shift_after H _ hash s.server e
  have hchained := chained_after hinjective h.chained hfresh
  have hgood : ∀ v, Good hash s v → (∃ f, (v, f) ∈ mine') ∧ Unused hash (s.server.after hash e) v := by
    intro v hv
    obtain ⟨f, hf⟩ := hv.1
    exact hv.shift hinjective hshift hadds.old (hspends v f hf)
  constructor
  · exact hchained
  · exact h.owns.shift hinjective h.chained hchained hfresh hshift hadds
  · exact h.locked
  · exact h.alone
  · intro v hv
    obtain ⟨⟨f, hf⟩, hnew, hunused⟩ := h.cookie v hv
    refine ⟨⟨f, hadds.old v f hf⟩, hnew, hunused.imp_left ?_⟩
    exact fun hunused => hunused.shift hinjective hshift (hspends v f hf)
  · exact fun u v hu => (h.sent u v hu).imp_left (hgood v)
  · exact fun u v hu => (h.answered u v hu).imp_left (hgood v)
  · exact fun v hv => hgood v (h.arriving v hv)
  · exact h.apart

/-! ### Sign-ins, logouts and the rest of the platform -/

theorem kept_signIn (hinjective : Function.Injective hash) (h : Kept hash locks only s) (userId : UserId)
    (now : Moment) (ttl : Int) {familyId : FamilyId} {value : String}
    (hfresh : Fresh s.server (.startFamily userId now ttl familyId value)) :
    Kept hash locks only (serveSignIn hash s userId now ttl familyId value) := by
  rw [serveSignIn]
  cases hstart : startFamily hash s.server.table userId now ttl familyId value with
  | error e => exact h
  | ok started =>
    have hissues : Happening.Issues hash s.server (.startFamily userId now ttl familyId value) value familyId :=
      ⟨rfl, rfl, started, hstart⟩
    have hadds : Adds hash s.server (.startFamily userId now ttl familyId value) s.mine
        ((value, familyId) :: s.mine) s.ended s.ended := by
      constructor
      · exact fun v f hv => List.mem_cons_of_mem _ hv
      · intro v f hv
        rcases List.mem_cons.mp hv with heq | hv
        · obtain ⟨rfl, rfl⟩ := Prod.mk.inj heq
          exact .inr hissues
        · exact .inl hv
      · rintro w f hw v ⟨rfl, rfl, -⟩
        exact List.mem_cons_self
      · intro w f hw
        rcases List.mem_cons.mp hw with heq | hw
        · obtain ⟨-, rfl⟩ := Prod.mk.inj heq
          refine .inr fun t ht hsame => hfresh.1 ?_
          exact List.mem_map.mpr ⟨_, h.chained.expiry t ht, hsame⟩
        · exact .inl ⟨w, hw⟩
      · exact fun f hf => hf
      · exact fun _ _ _ hends => hends.elim
    have hkept := kept_operation hinjective h hfresh hadds fun _ _ _ hspends => hspends
    refine kept_set hkept ⟨⟨familyId, List.mem_cons_self⟩, ?_⟩ ?_ ?_ ?_ ?_
    · exact unused_of_issues hinjective h.chained hfresh.2
        (shift_after s.server (.startFamily userId now ttl familyId value))
    · exact fun hcookie => h.not_mine hfresh.2 (h.cookie value hcookie).1 rfl
    · exact fun u hu => h.not_mine hfresh.2 (h.sent u value hu).1.1 rfl
    · exact fun u hu => h.not_mine hfresh.2 (h.answered u value hu).1.1 rfl
    · exact fun hin => h.not_mine hfresh.2 (h.arriving value hin).1 rfl

theorem kept_serveSignOut (hinjective : Function.Injective hash) (h : Kept hash locks only s)
    (presented : Option String) (now : Moment) :
    Kept hash locks only (serveSignOut hash s presented now) := by
  cases presented with
  | none => exact kept_clear h
  | some token =>
    have hadds : Adds hash s.server (.revoke token now) s.mine s.mine s.ended
        ((familyOf hash s.server.table token).toList ++ s.ended) := by
      constructor
      · exact fun v f hv => hv
      · exact fun v f hv => .inl hv
      · exact fun _ _ _ _ hissues => hissues.elim
      · exact fun w f hw => .inl ⟨w, hw⟩
      · exact fun f hf => List.mem_append_right _ hf
      · exact fun w f hw hends => List.mem_append_left _ (Option.mem_toList.mpr hends)
    have hfresh : Fresh s.server (.revoke token now) := trivial
    exact kept_clear (kept_operation hinjective h hfresh hadds fun _ _ _ hspends => hspends)

/-- A value that is none of this browser's is of none of its sign-ins. -/
theorem Kept.foreign (hinjective : Function.Injective hash) (h : Kept hash locks only s) {presented : String}
    (hforeign : presented ∉ s.mine.map Prod.fst) {w : String} {f : FamilyId} (hw : (w, f) ∈ s.mine) :
    familyOf hash s.server.table presented ≠ some f := by
  intro hfamily
  obtain ⟨t, hget, ht⟩ := Option.map_eq_some_iff.mp hfamily
  obtain ⟨hmem, hhash⟩ := getRefreshToken_some hget
  obtain ⟨v, hv, hvhash⟩ := h.owns.value w f hw t hmem ht
  have heq : presented = v := hinjective (hhash.symm.trans hvhash)
  exact hforeign (heq ▸ List.mem_map_of_mem hv)

theorem kept_elsewhere (hinjective : Function.Injective hash) (h : Kept hash locks only s) {e : Happening}
    (hfresh : Fresh s.server e) (hforeign : ∀ v ∈ presented? e, v ∉ s.mine.map Prod.fst) :
    Kept hash locks only { s with server := s.server.after hash e } := by
  have hadds : Adds hash s.server e s.mine s.mine s.ended s.ended := by
    constructor
    · exact fun v f hv => hv
    · exact fun v f hv => .inl hv
    · intro w f hw v hissues
      cases e with
      | startFamily userId now ttl familyId value =>
        obtain ⟨-, rfl, -⟩ := hissues
        exact absurd (h.owns.known w _ hw) hfresh.1
      | refresh presented now value active =>
        exact absurd hissues.2.1 (h.foreign hinjective (hforeign presented rfl) hw)
      | revoke presented now => exact hissues.elim
      | sweep now => exact hissues.elim
    · exact fun w f hw => .inl ⟨w, hw⟩
    · exact fun f hf => hf
    · intro w f hw hends
      cases e with
      | startFamily userId now ttl familyId value => exact hends.elim
      | refresh presented now value active =>
        exact absurd hends.1 (h.foreign hinjective (hforeign presented rfl) hw)
      | revoke presented now => exact absurd hends (h.foreign hinjective (hforeign presented rfl) hw)
      | sweep now => exact hends.elim
  refine kept_operation hinjective h hfresh hadds ?_
  intro v f hv hspends
  cases e with
  | startFamily userId now ttl familyId value => exact hspends
  | refresh presented now value active =>
    obtain ⟨rfl, -⟩ := hspends
    exact hforeign v rfl (List.mem_map_of_mem hv)
  | revoke presented now => exact hspends
  | sweep now => exact hspends

/-! ### A refresh is served -/

/-- A token that is unused does not come back. -/
theorem not_reused {server : SignIns H} {v : String} (hunused : Unused hash server v) (now : Moment)
    (value : String) (active : Bool) :
    refreshAnswer hash server.table v now value active ≠ .ok (.refused .reused) := by
  rw [refreshAnswer_eq]
  cases hrotate : rotate hash server.table v now value with
  | error e => exact fun h => by cases h
  | ok outcome =>
    obtain ⟨answer, table⟩ := outcome
    rcases rotate_found hrotate with ⟨failure, rfl, hother, -⟩ |
      ⟨token, hmem, hhash, ⟨-, hused, -⟩ | ⟨-, rfl, -⟩⟩
    · intro h
      exact hother (RefreshAnswer.refused.inj (Except.ok.inj h))
    · rw [hunused token hmem hhash] at hused
      cases hused
    · intro h
      cases active <;> cases h

theorem value_of_set {answer : Except RefreshExn RefreshAnswer} {w : String} (h : cookieOf answer = .set w) :
    ∃ issued, answer = .ok (.tokens issued) ∧ issued.value = w := by
  cases answer with
  | error e => cases h
  | ok answer =>
    cases answer with
    | refused failure => cases h
    | disabled => cases h
    | tokens issued => exact ⟨issued, rfl, CookieChange.set.inj h⟩

theorem changes_of_accepted {answer : Except RefreshExn RefreshAnswer} (h : isAccepted answer = true) :
    cookieOf answer ≠ .keep := by
  cases answer with
  | error e => cases h
  | ok answer => cases answer <;> simp [cookieOf]

/-- The pair that is answered carries the value that was drawn. -/
theorem value_of_tokens {table : RefreshTable H} {presented value : String} {now : Moment} {active : Bool}
    {issued : IssuedRefresh}
    (h : refreshAnswer hash table presented now value active = .ok (.tokens issued)) :
    issued.value = value ∧ familyOf hash table presented = some issued.familyId := by
  rw [refreshAnswer_eq] at h
  cases hrotate : rotate hash table presented now value with
  | error e => simp [hrotate, Except.map] at h
  | ok outcome =>
    obtain ⟨answer, table'⟩ := outcome
    simp only [hrotate, Except.map, Except.ok.injEq] at h
    rcases rotate_found hrotate with ⟨failure, rfl, -, -⟩ |
      ⟨token, hmem, hhash, ⟨rfl, -, -⟩ | ⟨-, rfl, -⟩⟩
    · cases h
    · cases h
    · cases active with
      | false => cases h
      | true =>
        obtain rfl := RefreshAnswer.tokens.inj h
        exact ⟨rfl, familyOf_of_mem hmem hhash⟩

theorem kept_serve (hinjective : Function.Injective hash) (h : Kept hash locks only s) {tab : Tab}
    {presented : Option String} (hsent : s.tabs tab = .sent presented) (now : Moment) {value : String}
    (active : Bool) (hvalue : value ∉ s.server.issued) :
    Kept hash locks only (serveRefresh hash s tab presented now value active) := by
  have hactive : (s.tabs tab).Active := by rw [hsent]; trivial
  have hfree : ∀ change, s.tabs tab = .answered change → change = .keep := by simp [hsent]
  cases presented with
  | none =>
    constructor
    · exact h.chained
    · exact h.owns
    · exact fun hlocks u hu => active_moved h hactive _ hlocks hu
    · exact fun hlocks u hu => busy_moved h hactive _ hlocks hu
    · intro v hv
      obtain ⟨⟨hmine, hunused⟩, hnew⟩ := h.cookie_good hactive hfree hv
      exact ⟨hmine, hnew, .inl hunused⟩
    · intro u v hu
      rcases tabs_at_cases s hu with ⟨-, hx⟩ | ⟨-, hx⟩
      · cases hx
      · exact h.sent u v hx
    · intro u v hu
      rcases tabs_at_cases s hu with ⟨-, hx⟩ | ⟨-, hx⟩
      · cases hx
      · exact h.answered u v hx
    · exact h.arriving
    · exact h.apart
  | some token =>
    obtain ⟨⟨⟨f, hf⟩, hunused⟩, htoken⟩ := h.sent tab token hsent
    let e : Happening := .refresh token now value active
    let answer := refreshAnswer hash s.server.table token now value active
    let family := (familyOf hash s.server.table token).toList
    let mine' := (if isAccepted answer then family.map fun familyId => (value, familyId) else []) ++ s.mine
    let ended' := (if isDisabled answer then family else []) ++ s.ended
    have hnot : answer ≠ .ok (.refused .reused) := not_reused hunused now value active
    have hshift := @shift_after H _ hash s.server e
    have hfresh : Fresh s.server e := hvalue
    have hchained := chained_after hinjective h.chained hfresh
    have hfamily : ∀ g, familyOf hash s.server.table token = some g → g = f := by
      intro g hg
      obtain ⟨t, hget, rfl⟩ := Option.map_eq_some_iff.mp hg
      obtain ⟨hmem, hhash⟩ := getRefreshToken_some hget
      exact h.owns.family token f hf t hmem hhash
    have hadds : Adds hash s.server e s.mine mine' s.ended ended' := by
      constructor
      · exact fun v g hv => List.mem_append_right _ hv
      · intro v g hv
        rcases List.mem_append.mp hv with hv | hv
        · by_cases haccepted : isAccepted answer = true
          · rw [if_pos haccepted] at hv
            obtain ⟨g', hg', heq⟩ := List.mem_map.mp hv
            obtain ⟨rfl, rfl⟩ := Prod.mk.inj heq
            exact .inr ⟨rfl, Option.mem_toList.mp hg', haccepted⟩
          · rw [if_neg haccepted] at hv
            cases hv
        · exact .inl hv
      · rintro w g - v ⟨rfl, hg, haccepted⟩
        refine List.mem_append_left _ ?_
        rw [if_pos haccepted]
        exact List.mem_map_of_mem (Option.mem_toList.mpr hg)
      · intro w g hw
        rcases List.mem_append.mp hw with hw | hw
        · by_cases haccepted : isAccepted answer = true
          · rw [if_pos haccepted] at hw
            obtain ⟨g', hg', heq⟩ := List.mem_map.mp hw
            obtain ⟨-, rfl⟩ := Prod.mk.inj heq
            exact .inl ⟨token, hfamily g' (Option.mem_toList.mp hg') ▸ hf⟩
          · rw [if_neg haccepted] at hw
            cases hw
        · exact .inl ⟨w, hw⟩
      · exact fun g hg => List.mem_append_right _ hg
      · rintro w g - ⟨hg, hreused | hdisabled⟩
        · exact absurd hreused hnot
        · refine List.mem_append_left _ ?_
          have hyes : isDisabled answer = true := by rw [show answer = _ from hdisabled]; rfl
          rw [if_pos hyes]
          exact Option.mem_toList.mpr hg
    have hother : ∀ v, v ≠ token → ¬e.Spends hash s.server v := fun v hne hspends => hne hspends.1
    have hgood : ∀ v, v ≠ token → Good hash s v →
        (∃ g, (v, g) ∈ mine') ∧ Unused hash (s.server.after hash e) v :=
      fun v hne hv => hv.shift hinjective hshift hadds.old (hother v hne)
    constructor
    · exact hchained
    · exact h.owns.shift hinjective h.chained hchained hfresh hshift hadds
    · exact fun hlocks u hu => active_moved h hactive _ hlocks hu
    · exact fun hlocks u hu => busy_moved h hactive _ hlocks hu
    · intro v hv
      obtain ⟨hv, hnew⟩ := h.cookie_good hactive hfree hv
      obtain ⟨g, hg⟩ := hv.1
      refine ⟨⟨g, hadds.old v g hg⟩, hnew, ?_⟩
      by_cases haccepted : isAccepted answer = true
      · -- the answer replaces the cookie
        exact .inr ⟨tab, cookieOf answer, Function.update_self tab _ s.tabs, changes_of_accepted haccepted⟩
      · exact .inl (hv.2.shift hinjective hshift fun hspends => haccepted hspends.2)
    · intro u v hu
      rcases tabs_at_cases s hu with ⟨-, hx⟩ | ⟨hne, hx⟩
      · cases hx
      · exact absurd (h.single (by rw [hx]; trivial) hactive) hne
    · intro u v hu
      rcases tabs_at_cases s hu with ⟨-, hx⟩ | ⟨hne, hx⟩
      · obtain ⟨issued, hanswer, rfl⟩ := value_of_set (TabState.answered.inj hx)
        obtain ⟨rfl, hg⟩ := value_of_tokens hanswer
        have haccepted : isAccepted answer = true := by rw [show answer = _ from hanswer]; rfl
        refine ⟨⟨⟨issued.familyId, ?_⟩, ?_⟩, ?_⟩
        · exact hadds.all token _ (hfamily _ hg ▸ hadds.old token f hf) _ ⟨rfl, hg, haccepted⟩
        · exact unused_of_issues hinjective h.chained hvalue hshift
        · exact fun hin => h.not_mine hvalue (h.arriving _ hin).1 rfl
      · exact absurd (h.single (by rw [hx]; trivial) hactive) hne
    · intro v hv
      exact hgood v (fun heq => htoken (heq ▸ hv)) (h.arriving v hv)
    · exact h.apart

/-! ## Every orderly run -/

theorem kept_next (hinjective : Function.Injective hash) (h : Kept hash locks only s)
    (hstep : Steps hash locks only s s') : Kept hash locks only s' := by
  obtain ⟨e, horderly, hadmits, hnext⟩ := hstep
  cases e with
  | need tab =>
    obtain ⟨hidle, heq⟩ := Option.ite_none_right_eq_some.mp hnext
    obtain rfl := Option.some.inj heq
    exact kept_need h hidle horderly
  | grant tab =>
    obtain ⟨⟨hwaiting, hlock⟩, heq⟩ := Option.ite_none_right_eq_some.mp hnext
    obtain rfl := Option.some.inj heq
    exact kept_grant h hwaiting hlock
  | send tab =>
    obtain ⟨hholding, heq⟩ := Option.ite_none_right_eq_some.mp hnext
    obtain rfl := Option.some.inj heq
    exact kept_send h hholding
  | serve tab now value active =>
    rw [next] at hnext
    split at hnext
    · rename_i presented hsent
      obtain rfl := Option.some.inj hnext
      exact kept_serve hinjective h hsent now active hadmits
    · cases hnext
  | deliver tab =>
    rw [next] at hnext
    split at hnext
    · rename_i change hanswered
      obtain rfl := Option.some.inj hnext
      exact kept_deliver h hanswered
    · cases hnext
  | loseRequest tab =>
    rw [next] at hnext
    split at hnext
    · rename_i presented hsent
      obtain rfl := Option.some.inj hnext
      have hactive : (s.tabs tab).Active := by rw [hsent]; trivial
      exact kept_finish h hactive fun v hv => h.cookie_good hactive (by simp [hsent]) hv
    · cases hnext
  | loseAnswer tab => exact horderly.elim
  | signIn userId now ttl familyId value =>
    obtain rfl := Option.some.inj hnext
    exact kept_signIn hinjective h userId now ttl hadmits
  | signOut =>
    obtain rfl := Option.some.inj hnext
    exact kept_logouts h _
  | serveLogout n now =>
    obtain ⟨presented, -, rfl⟩ := Option.map_eq_some_iff.mp hnext
    exact kept_serveSignOut hinjective (kept_logouts h _) presented now
  | arrive n =>
    obtain ⟨change, hn, rfl⟩ := Option.map_eq_some_iff.mp hnext
    exact kept_arrive h hn
  | drop n =>
    obtain rfl := Option.some.inj hnext
    exact kept_drop h n
  | forget =>
    obtain rfl := Option.some.inj hnext
    refine kept_cookie h ?_
    rintro v ⟨⟩
  | elsewhere e =>
    obtain rfl := Option.some.inj hnext
    exact kept_elsewhere hinjective h hadmits.1 hadmits.2

theorem kept_run (hinjective : Function.Injective hash) (h : Run hash locks only .start s) :
    Kept hash locks only s := by
  induction h with
  | refl => exact kept_start hash locks only
  | tail _ hstep ih => exact kept_next hinjective ih hstep

/-- A row that is neither used nor revoked is rotated before its expiry. -/
theorem rotate_of_live (hinjective : Function.Injective hash) {server : SignIns H}
    (hchained : Chained hash server) {t : RefreshToken H} {v value : String} {now : Moment}
    (ht : t ∈ server.table.rows) (hhash : t.tokenHash = hash v) (hlive : t.Live)
    (hexpiry : now.instant < t.expiresAt.instant) (hvalue : value ∉ server.issued) :
    ∃ table, rotate hash server.table v now value =
      .ok (.ok ⟨value, t.expiresAt, t.userId, t.familyId⟩, table) := by
  have hget : getRefreshToken server.table (hash v) = some t := hhash ▸ getRefreshToken_of_mem ht
  have hnone : t.refusal now = none := RefreshToken.refusal_none.mpr ⟨hlive, hexpiry⟩
  have hnew : hash value ∉ (markRefreshTokenUsed server.table t.tokenHash now).rows.map
      RefreshToken.tokenHash := by
    intro hin
    obtain ⟨u', hu', huhash⟩ := List.mem_map.mp hin
    obtain ⟨u, hu, hsame, -, -, -⟩ := mem_markRefreshTokenUsed hu'
    obtain ⟨w, hw, hwhash⟩ := hchained.stored u hu
    have heq : w = value := hinjective (hwhash.symm.trans (hsame.symm.trans huhash))
    exact hvalue (heq ▸ hw)
  rw [rotate, hget]
  simp only [hnone, issue, addRefreshToken, dif_neg hnew, bind, Except.bind, pure, Except.pure]
  exact ⟨_, rfl⟩

instance (locks : Bool) (only : Tab) (e : Event) : Decidable (e.Orderly locks only) := by
  unfold Event.Orderly
  split <;> infer_instance

instance (s : Browser H) (e : Event) : Decidable (Admits s e) := by
  unfold Admits
  split <;> infer_instance

/-- The events of a list, one after another, as long as they make an orderly run. -/
def follow (hash : String → H) (locks : Bool) (only : Tab) (s : Browser H) : List Event → Option (Browser H)
  | [] => some s
  | e :: events =>
      if e.Orderly locks only ∧ Admits s e then
        (next hash locks s e).bind fun s' => follow hash locks only s' events
      else none

theorem run_of_follow (events : List Event) (h : follow hash locks only s events = some s') :
    Run hash locks only s s' := by
  induction events generalizing s with
  | nil => exact Option.some.inj h ▸ .refl
  | cons e events ih =>
    obtain ⟨⟨horderly, hadmits⟩, hrest⟩ := Option.ite_none_right_eq_some.mp h
    obtain ⟨mid, hnext, hrest⟩ := Option.bind_eq_some_iff.mp hrest
    exact .head ⟨e, horderly, hadmits, hnext⟩ (ih hrest)

def visitor : UserId := ⟨List.replicate 16 0x3B, List.length_replicate⟩

def atVisit : Moment := ⟨1762000000000000, by decide⟩

def inBrowser : FamilyId := ⟨0x2C4, by decide⟩

/-- A sign-in for an hour; then two tabs need a refresh, and the first has sent its own. -/
def twoTabs : List Event :=
  [.signIn visitor atVisit 3600000000 inBrowser "one", .arrive 0, .need 0, .need 1, .grant 0, .send 0]

/-- The answer reaches the first tab, and the second one sends the token that came with it. -/
def inTurn : List Event := twoTabs ++ [.serve 0 atVisit "two" true, .deliver 0, .grant 1, .send 1]

/-- Without the lock the second tab sends the same token, and the sign-in is over. -/
def together : List Event :=
  twoTabs ++ [.grant 1, .send 1, .serve 0 atVisit "two" true, .serve 1 atVisit "three" true]

example : (together.foldlM (next id false) (.start : Browser String)).map
    (fun s => s.server.table.rows.map fun token => token.revokedAt) = some [some atVisit, some atVisit] := by
  decide +kernel

/-- And so it is with the lock, when the first answer is lost. -/
def afterLoss : List Event :=
  twoTabs ++ [.serve 0 atVisit "two" true, .loseAnswer 0, .grant 1, .send 1, .serve 1 atVisit "three" true]

example : (afterLoss.foldlM (next id true) (.start : Browser String)).map
    (fun s => s.server.table.rows.map fun token => token.revokedAt) = some [some atVisit, some atVisit] := by
  decide +kernel

end Platform

end Coinpilot.Web
