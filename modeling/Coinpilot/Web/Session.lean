import Coinpilot.Records.Shifts

/-!
# A browser's sign-in

The tabs of one browser share the cookie that holds the refresh token. A tab whose request meets a 401 asks
for a refresh, one at a time in each tab (`sharedRefresh`), and a Web Lock keeps the tabs apart where the
browser has it (`lockedRefresh`). What travels is a step of its own: a request is sent with the cookie of that
moment, the platform serves it, and its answer arrives, or is lost. Sign-ins and logouts of the browser, and
whatever other clients do, come in between.
-/

set_option autoImplicit false

namespace Coinpilot.Web

open Coinpilot.Core Coinpilot.Core.Refresh

/-! ## The browser -/

/-- A tab, by its number. -/
abbrev Tab : Type := Nat

/-- What an answer does to the refresh cookie. -/
inductive CookieChange where
  | keep
  | set (value : String)
  | clear
  deriving DecidableEq, Repr

/-- The cookie after an answer has arrived. -/
def CookieChange.apply (cookie : Option String) : CookieChange → Option String
  | .keep => cookie
  | .set value => some value
  | .clear => none

def CookieChange.value? : CookieChange → Option String
  | .set value => some value
  | _ => none

/-- `refreshInFlight` of one tab, and how far its refresh is. -/
inductive TabState where
  | idle
  | waiting
  | holding
  | sent (presented : Option String)
  | answered (change : CookieChange)
  deriving DecidableEq, Repr

/-- The refresh has got past the lock. -/
def TabState.Active : TabState → Prop
  | .idle => False
  | .waiting => False
  | .holding => True
  | .sent _ => True
  | .answered _ => True

/-- One browser and the platform. -/
structure Browser (H : Type) where
  server : SignIns H
  cookie : Option String := none
  lock : Option Tab := none
  tabs : Tab → TabState := fun _ => .idle
  /-- The logouts under way, each with the cookie it carries. -/
  logouts : List (Option String) := []
  /-- The answers under way to sign-ins and logouts. -/
  arrivals : List CookieChange := []
  /-- The token values that were issued to this browser, each with its sign-in. -/
  mine : List (String × FamilyId) := []
  /-- The sign-ins that a logout of this browser or a disabled account has ended. -/
  ended : List FamilyId := []

def Browser.start {H : Type} : Browser H := { server := .empty }

/-- What can happen. -/
inductive Event where
  | need (tab : Tab)
  | grant (tab : Tab)
  | send (tab : Tab)
  | serve (tab : Tab) (now : Moment) (value : String) (active : Bool)
  | deliver (tab : Tab)
  | loseRequest (tab : Tab)
  | loseAnswer (tab : Tab)
  | signIn (userId : UserId) (now : Moment) (ttl : Int) (familyId : FamilyId) (value : String)
  | signOut
  | serveLogout (n : Nat) (now : Moment)
  | arrive (n : Nat)
  | drop (n : Nat)
  | forget
  | elsewhere (e : Happening)

/-- The values of the answers under way. -/
def Browser.arriving {H : Type} (s : Browser H) : List String :=
  s.arrivals.filterMap CookieChange.value?

/-- The tab is given its next state. -/
def Browser.at {H : Type} (s : Browser H) (tab : Tab) (state : TabState) : Browser H :=
  { s with tabs := Function.update s.tabs tab state }

/-- The refresh of a tab is over: its promise settles, and the lock is given back. -/
def finish {H : Type} (s : Browser H) (tab : Tab) (cookie : Option String) : Browser H :=
  { s.at tab .idle with cookie, lock := if s.lock = some tab then none else s.lock }

/-- `_set_session` for a new pair, `_signed_out` for a refusal. A 500 sets no cookie. -/
def cookieOf : Except RefreshExn RefreshAnswer → CookieChange
  | .error _ => .keep
  | .ok (.tokens issued) => .set issued.value
  | .ok (.refused _) => .clear
  | .ok .disabled => .clear

def isDisabled : Except RefreshExn RefreshAnswer → Bool
  | .ok .disabled => true
  | _ => false

section Steps

variable {H : Type} [DecidableEq H] (hash : String → H)

/-- The platform serves the refresh of a tab. -/
def serveRefresh (s : Browser H) (tab : Tab) (presented : Option String) (now : Moment) (value : String)
    (active : Bool) : Browser H :=
  match presented with
  -- "no refresh token"
  | none => s.at tab (.answered .clear)
  | some token =>
      let answer := refreshAnswer hash s.server.table token now value active
      let family := (familyOf hash s.server.table token).toList
      { s.at tab (.answered (cookieOf answer)) with
        server := s.server.after hash (.refresh token now value active)
        mine := (if isAccepted answer then family.map fun familyId => (value, familyId) else []) ++ s.mine
        ended := (if isDisabled answer then family else []) ++ s.ended }

/-- The callback of a sign-in is served. -/
def serveSignIn (s : Browser H) (userId : UserId) (now : Moment) (ttl : Int) (familyId : FamilyId)
    (value : String) : Browser H :=
  match startFamily hash s.server.table userId now ttl familyId value with
  | .error _ => s
  | .ok _ =>
      { s with
        server := s.server.after hash (.startFamily userId now ttl familyId value)
        arrivals := s.arrivals ++ [.set value]
        mine := (value, familyId) :: s.mine }

/-- A logout is served: the sign-in of its token is ended, and the cookies are removed. -/
def serveSignOut (s : Browser H) (presented : Option String) (now : Moment) : Browser H :=
  match presented with
  | none => { s with arrivals := s.arrivals ++ [.clear] }
  | some token =>
      { s with
        server := s.server.after hash (.revoke token now)
        arrivals := s.arrivals ++ [.clear]
        ended := (familyOf hash s.server.table token).toList ++ s.ended }

/-- One step. `locks` says whether the browser has Web Locks. -/
def next (locks : Bool) (s : Browser H) : Event → Option (Browser H)
  | .need tab => if s.tabs tab = .idle then some (s.at tab .waiting) else none
  | .grant tab =>
      if s.tabs tab = .waiting ∧ (locks = true → s.lock = none) then
        some { s.at tab .holding with lock := if locks then some tab else s.lock }
      else none
  | .send tab => if s.tabs tab = .holding then some (s.at tab (.sent s.cookie)) else none
  | .serve tab now value active =>
      match s.tabs tab with
      | .sent presented => some (serveRefresh hash s tab presented now value active)
      | _ => none
  | .deliver tab =>
      match s.tabs tab with
      | .answered change => some (finish s tab (change.apply s.cookie))
      | _ => none
  | .loseRequest tab =>
      match s.tabs tab with
      | .sent _ => some (finish s tab s.cookie)
      | _ => none
  | .loseAnswer tab =>
      match s.tabs tab with
      | .answered _ => some (finish s tab s.cookie)
      | _ => none
  | .signIn userId now ttl familyId value => some (serveSignIn hash s userId now ttl familyId value)
  | .signOut => some { s with logouts := s.logouts ++ [s.cookie] }
  | .serveLogout n now =>
      (s.logouts[n]?).map fun presented =>
        serveSignOut hash { s with logouts := s.logouts.eraseIdx n } presented now
  | .arrive n =>
      (s.arrivals[n]?).map fun change =>
        { s with arrivals := s.arrivals.eraseIdx n, cookie := change.apply s.cookie }
  | .drop n => some { s with arrivals := s.arrivals.eraseIdx n }
  -- the browser removes the cookie, as at its `max_age`
  | .forget => some { s with cookie := none }
  | .elsewhere e => some { s with server := s.server.after hash e }

end Steps

/-! ## Runs -/

/-- The value that an operation presents. -/
def presented? : Happening → Option String
  | .startFamily _ _ _ _ _ => none
  | .refresh presented _ _ _ => some presented
  | .revoke presented _ => some presented
  | .sweep _ => none

/-- The random values that are drawn are new, and nobody else has a value of this browser. -/
def Admits {H : Type} (s : Browser H) : Event → Prop
  | .serve _ _ value _ => value ∉ s.server.issued
  | .signIn userId now ttl familyId value => Fresh s.server (.startFamily userId now ttl familyId value)
  | .elsewhere e => Fresh s.server e ∧ ∀ v ∈ presented? e, v ∉ s.mine.map Prod.fst
  | _ => True

/-- No answer to a refresh is lost; and without Web Locks, one tab alone asks for refreshes. -/
def Event.Orderly (locks : Bool) (only : Tab) : Event → Prop
  | .need tab => locks = true ∨ tab = only
  | .loseAnswer _ => False
  | _ => True

variable {H : Type}

/-- One step of an orderly run. -/
def Steps [DecidableEq H] (hash : String → H) (locks : Bool) (only : Tab) (s s' : Browser H) : Prop :=
  ∃ e : Event, e.Orderly locks only ∧ Admits s e ∧ next hash locks s e = some s'

/-- Every orderly run. -/
abbrev Run [DecidableEq H] (hash : String → H) (locks : Bool) (only : Tab) : Browser H → Browser H → Prop :=
  Relation.ReflTransGen (Steps hash locks only)

end Coinpilot.Web
