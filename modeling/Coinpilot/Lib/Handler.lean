import Coinpilot.Lib.Replay
import Coinpilot.Lib.Trace

/-!
# Operations that are programs

A handler carries out each operation of a program by a program over other operations
(`Prog.through`). Two worlds side by side answer each its own operations (`Semantics.beside`).

The proof rules follow the shape of the program that is handled (`wp_through_bind`); what every
handled operation keeps, the program keeps (`wp_through_calls`). A program of one world meets a
contract of both where its own contract is met (`wp_right`). Under a contract on the runs with their
histories, a program adds one of its paths to the trace of its thread (`wp_traced`).
-/

set_option autoImplicit false

namespace Coinpilot.Lib.Program

/-! ## Handlers -/

section Handlers

variable {Op Op' : Type} {Ans : Op → Type} {Ans' : Op' → Type} {α β L ε : Type}

/-- How each operation is carried out. -/
abbrev Handler {Op Op' : Type} (Ans : Op → Type) (Ans' : Op' → Type) : Type :=
  (o : Op) → Prog Op' Ans' (Ans o)

/-- The program with each operation carried out. -/
def Prog.through (h : Handler Ans Ans') : Prog Op Ans α → Prog Op' Ans' α
  | .ret a => .ret a
  | .call o k => (h o).bind fun b => (k b).through h

/-- The same for a procedure. -/
def Proc.through (h : Handler Ans Ans') (m : Proc Op Ans L ε α) : Proc Op' Ans' L ε α :=
  fun l => (m.exec l).through h

theorem bind_assoc {γ : Type} (p : Prog Op Ans α) (f : α → Prog Op Ans β) (g : β → Prog Op Ans γ) :
    (p.bind f).bind g = p.bind fun a => (f a).bind g := by
  induction p with
  | ret a => rfl
  | call o k ih =>
    simp only [Prog.bind, ih]

theorem through_bind (h : Handler Ans Ans') (p : Prog Op Ans α) (f : α → Prog Op Ans β) :
    (p.bind f).through h = (p.through h).bind fun a => (f a).through h := by
  induction p with
  | ret a => rfl
  | call o k ih =>
    simp only [Prog.bind, Prog.through, ih, bind_assoc]

section Rules

variable {C W : Type} {S : Semantics Op' Ans' C W} {K : Contract S} {i : Nat} {c : C}
  {h : Handler Ans Ans'} {l : L} {w : W}

theorem wp_through_bind {m : Proc Op Ans L ε α} {f : α → Proc Op Ans L ε β}
    {Q : Except ε β → L → W → Prop}
    (hm : (m.through h).Wp K i c (fun r l w => match r with
      | .ok a => ((f a).through h).Wp K i c Q l w
      | .error e => Q (.error e) l w) l w) : ((m >>= f).through h).Wp K i c Q l w := by
  change (Prog.through h (Proc.exec (m >>= f) l)).Wp K i c _ w
  rw [exec_bind, through_bind]
  refine prog_wp_bind (Program.wp_mono hm ?_)
  rintro ⟨e | a, l'⟩ w' hw'
  · exact hw'
  · exact hw'

theorem wp_through_getLocals {Q : Except ε L → L → W → Prop} (hQ : Q (.ok l) l w) :
    ((getLocals : Proc Op Ans L ε L).through h).Wp K i c Q l w := hQ

theorem wp_through_modifyLocals {f : L → L} {Q : Except ε Unit → L → W → Prop} (hQ : Q (.ok ()) (f l) w) :
    ((modifyLocals f : Proc Op Ans L ε Unit).through h).Wp K i c Q l w := hQ

theorem wp_through_tryFinally {m : Proc Op Ans L ε α} {fin : Proc Op Ans L ε Unit}
    {Q : Except ε α → L → W → Prop}
    (hm : (m.through h).Wp K i c (fun r l w => (fin.through h).Wp K i c (fun s l w => match s with
      | .ok _ => Q r l w
      | .error e => Q (.error e) l w) l w) l w) : ((tryFinally m fin).through h).Wp K i c Q l w := by
  change (Prog.through h (Prog.bind _ _)).Wp K i c _ w
  rw [through_bind]
  refine prog_wp_bind (Program.wp_mono hm ?_)
  rintro ⟨r, l'⟩ w' hw'
  rw [through_bind]
  refine prog_wp_bind (Program.wp_mono hw' ?_)
  rintro ⟨s | s, l''⟩ w'' hw''
  · exact hw''
  · exact hw''

theorem wp_through_tryCatch {m : Proc Op Ans L ε α} {handler : ε → Proc Op Ans L ε α}
    {Q : Except ε α → L → W → Prop}
    (hm : (m.through h).Wp K i c (fun r l w => match r with
      | .ok a => Q (.ok a) l w
      | .error e => ((handler e).through h).Wp K i c Q l w) l w) :
    ((tryCatch' m handler).through h).Wp K i c Q l w := by
  change (Prog.through h (Prog.bind _ _)).Wp K i c _ w
  rw [through_bind]
  refine prog_wp_bind (Program.wp_mono hm ?_)
  rintro ⟨e | a, l'⟩ w' hw'
  · exact hw'
  · exact hw'

/-- One operation: what its handler leaves. -/
theorem wp_through_attempt {o : Op} {e : Ans o → Except ε α} {Q : Except ε α → L → W → Prop}
    (ho : (h o).Wp K i c (fun b w => Q (e b) l w) w) :
    ((attempt o e : Proc Op Ans L ε α).through h).Wp K i c Q l w := by
  apply wp_through_bind
  apply prog_wp_bind
  refine Program.wp_mono ho fun b w' hw' => ?_
  change ((fromExcept (e b) : Proc Op Ans L ε α).through h).Wp K i c Q l w'
  generalize e b = r at hw'
  cases r with
  | ok a => exact hw'
  | error x => exact hw'

theorem wp_through_perform {o : Op} {Q : Except ε (Ans o) → L → W → Prop}
    (ho : (h o).Wp K i c (fun b w => Q (.ok b) l w) w) :
    ((perform o : Proc Op Ans L ε (Ans o)).through h).Wp K i c Q l w := by
  apply prog_wp_bind
  exact Program.wp_mono ho fun b w' hw' => hw'

/-- What each operation that a program may call keeps, the program keeps. -/
theorem wp_through_only {ok : Op → Prop} {P : W → Prop} {R : α → Prop}
    (hok : ∀ o, ok o → ∀ w, P w → (h o).Wp K i c (fun _ w => P w) w) {p : Prog Op Ans α}
    (hp : p.Only ok R) {w : W} (hw : P w) : (p.through h).Wp K i c (fun a w => R a ∧ P w) w := by
  induction p generalizing w with
  | ret a => exact ⟨hp, hw⟩
  | call o k ih =>
    apply prog_wp_bind
    exact Program.wp_mono (hok o hp.1 w hw) fun b w' hw' => ih b (hp.2 b) hw'

theorem wp_through_calls {ok : Op → Prop} {P : W → Prop} {J : L → Prop}
    (hok : ∀ o, ok o → ∀ w, P w → (h o).Wp K i c (fun _ w => P w) w) {m : Proc Op Ans L ε α}
    (hm : m.Calls ok J) (hl : J l) (hw : P w) {Q : Except ε α → L → W → Prop}
    (hQ : ∀ r l w', J l → P w' → Q r l w') : (m.through h).Wp K i c Q l w :=
  Program.wp_mono (wp_through_only hok (hm l hl) hw) fun r w' hw' => hQ r.1 r.2 w' hw'.1 hw'.2

end Rules

end Handlers

/-! ## Two worlds -/

section Beside

variable {Op₁ Op₂ : Type} {Ans₁ : Op₁ → Type} {Ans₂ : Op₂ → Type} {C W₁ W₂ α : Type}

/-- Each world answers its own operations, and a thread dies in both. -/
def Semantics.beside (S₁ : Semantics Op₁ Ans₁ C W₁) (S₂ : Semantics Op₂ Ans₂ C W₂) :
    Semantics (Op₁ ⊕ Op₂) (Sum.elim Ans₁ Ans₂) C (W₁ × W₂) where
  step i c o w b w' :=
    match o, b with
    | .inl o, b => S₁.step i c o w.1 b w'.1 ∧ w'.2 = w.2
    | .inr o, b => S₂.step i c o w.2 b w'.2 ∧ w'.1 = w.1
  env w w' := (S₁.env w.1 w'.1 ∧ w'.2 = w.2) ∨ (S₂.env w.2 w'.2 ∧ w'.1 = w.1)
  died i w := (S₁.died i w.1, S₂.died i w.2)

/-- An operation of the first world, as it is. -/
def leftward (Ans₂ : Op₂ → Type) : Handler Ans₁ (Sum.elim Ans₁ Ans₂) := fun o =>
  .call (Sum.inl o : Op₁ ⊕ Op₂) fun b => .ret b

/-- An operation of the second world, as it is. -/
def rightward (Ans₁ : Op₁ → Type) : Handler Ans₂ (Sum.elim Ans₁ Ans₂) := fun o =>
  .call (Sum.inr o : Op₁ ⊕ Op₂) fun b => .ret b

/-- An answer of the first world. -/
def leftAnswer (x : Answer Op₁ Ans₁) : Answer (Op₁ ⊕ Op₂) (Sum.elim Ans₁ Ans₂) := ⟨.inl x.1, x.2⟩

/-- A program whose operations are all left to the first world runs along answers of that world. -/
theorem path_through_left {h : Handler Ans₁ (Sum.elim Ans₁ Ans₂)} {ok : Op₁ → Prop}
    (hok : ∀ o, ok o → h o = leftward Ans₂ o) {R : α → Prop} {p : Prog Op₁ Ans₁ α}
    (hp : p.Only ok R) {t : List (Answer (Op₁ ⊕ Op₂) (Sum.elim Ans₁ Ans₂))} {a : α}
    (hpath : (p.through h).Path t a) : ∃ t₀, t = t₀.map leftAnswer ∧ p.Path t₀ a := by
  induction p generalizing t with
  | ret x =>
    obtain ⟨rfl, rfl⟩ := path_ret hpath
    exact ⟨[], rfl, .ret _⟩
  | call o k ih =>
    change (Prog.bind (h o) _).Path t a at hpath
    rw [hok o hp.1] at hpath
    obtain ⟨b, t', rfl, hrest⟩ := path_call hpath
    obtain ⟨t₀, rfl, hpath₀⟩ := ih b (hp.2 b) hrest
    exact ⟨⟨o, b⟩ :: t₀, rfl, .call hpath₀⟩

/-- An answer of the second world. -/
def rightAnswer (x : Answer Op₂ Ans₂) : Answer (Op₁ ⊕ Op₂) (Sum.elim Ans₁ Ans₂) := ⟨.inr x.1, x.2⟩

/-- A program of the second world runs along answers of that world. -/
theorem path_through_right {p : Prog Op₂ Ans₂ α} {t : List (Answer (Op₁ ⊕ Op₂) (Sum.elim Ans₁ Ans₂))} {a : α}
    (hpath : (p.through (rightward Ans₁)).Path t a) : ∃ t₀, t = t₀.map rightAnswer ∧ p.Path t₀ a := by
  induction p generalizing t with
  | ret x =>
    obtain ⟨rfl, rfl⟩ := path_ret hpath
    exact ⟨[], rfl, .ret _⟩
  | call o k ih =>
    obtain ⟨b, t', rfl, hrest⟩ := path_call hpath
    obtain ⟨t₀, rfl, hpath₀⟩ := ih b hrest
    exact ⟨⟨o, b⟩ :: t₀, rfl, .call hpath₀⟩

/-- A program of the second world: what a contract of that world says of it, where the contract of
both asks no more, and what its operations keep. -/
theorem wp_right {S₁ : Semantics Op₁ Ans₁ C W₁} {S₂ : Semantics Op₂ Ans₂ C W₂}
    {K : Contract (S₁.beside S₂).recorded} {K₂ : Contract S₂} {i : Nat} {c : C}
    {P : Recorded (Op₁ ⊕ Op₂) (Sum.elim Ans₁ Ans₂) C (W₁ × W₂) → Prop}
    (hinv : ∀ r, K.inv r → K₂.inv r.now.2)
    (hrely : ∀ r r', K.rely i r r' → K₂.rely i r.now.2 r'.now.2)
    (hP : K.Stable i P)
    (hguard : ∀ o r, P r → K.inv r → K₂.guard i c o r.now.2 → K.guard i c (.inr o) r)
    (hstep : ∀ o r b r', P r → K.inv r → K.guard i c (.inr o) r →
      (S₁.beside S₂).recorded.step i c (.inr o) r b r' → P r')
    {p : Prog Op₂ Ans₂ α} {Q : α → W₂ → Prop}
    {r : Recorded (Op₁ ⊕ Op₂) (Sum.elim Ans₁ Ans₂) C (W₁ × W₂)} (h : p.Wp K₂ i c Q r.now.2)
    (hr : P r) :
    (p.through (rightward Ans₁)).Wp K i c (fun a r' => Q a r'.now.2 ∧ P r') r := by
  induction p generalizing r with
  | ret a => exact ⟨h, hr⟩
  | call o k ih =>
    intro r₁ hrely₁ hi₁
    obtain ⟨hg, hk⟩ := h r₁.now.2 (hrely r r₁ hrely₁) (hinv r₁ hi₁)
    have hP₁ := hP hr hrely₁ hi₁
    have hg₁ := hguard o r₁ hP₁ hi₁ hg
    refine ⟨hg₁, fun b r₂ hs hi₂ => ?_⟩
    exact ih b (hk b r₂.now.2 hs.1.1 (hinv r₂ hi₂)) (hstep o r₁ b r₂ hP₁ hi₁ hg₁ hs)

end Beside

/-! ## Traces -/

section Traced

variable {Op : Type} {Ans : Op → Type} {C W α : Type} {S : Semantics Op Ans C W}
  {K : Contract S.recorded} {i : Nat} {c : C}

/-- What a program did is one of its paths. -/
theorem wp_traced (hrely : ∀ {r r'}, K.rely i r r' → traceOf i r'.past = traceOf i r.past)
    {p : Prog Op Ans α} {Q : α → Recorded Op Ans C W → Prop} {r : Recorded Op Ans C W}
    (h : p.Wp K i c Q r) :
    p.Wp K i c (fun a r' => Q a r' ∧ ∃ t, p.Path t a ∧ traceOf i r'.past = traceOf i r.past ++ t)
      r := by
  induction p generalizing r with
  | ret a => exact ⟨h, [], .ret a, by simp⟩
  | call o k ih =>
    intro r₁ hrely₁ hi₁
    obtain ⟨hg, hk⟩ := h r₁ hrely₁ hi₁
    refine ⟨hg, fun b r₂ hs hi₂ => Program.wp_mono (ih b (hk b r₂ hs hi₂)) ?_⟩
    rintro a r₃ ⟨hq, t, hpath, htrace⟩
    refine ⟨hq, ⟨o, b⟩ :: t, .call hpath, ?_⟩
    rw [htrace, hs.2, traceOf_cons_self, hrely hrely₁, List.append_assoc]
    rfl

end Traced

/-! ## Replays -/

section Replays

variable {Op₁ Op₂ : Type} {Ans₁ : Op₁ → Type} {Ans₂ : Op₂ → Type} {C W₁ W₂ M : Type}
  {S₁ : Semantics Op₁ Ans₁ C W₁} {S₂ : Semantics Op₂ Ans₂ C W₂}

/-- Two worlds that answer by functions. -/
def Responder.beside (r₁ : Responder S₁ M) (r₂ : Responder S₂ Unit) : Responder (S₁.beside S₂) M where
  respond m i c o w :=
    match o with
    | .inl o => (r₁.respond m i c o w.1).map fun a => (a.1, a.2, w.2)
    | .inr o => (r₂.respond () i c o w.2).map fun a => (a.1, w.1, a.2)
  responds {m i c o w b w'} h := by
    cases o with
    | inl o =>
      obtain ⟨⟨b', w''⟩, hr, heq⟩ := Option.map_eq_some_iff.mp h
      cases heq
      exact ⟨r₁.responds hr, rfl⟩
    | inr o =>
      obtain ⟨⟨b', w''⟩, hr, heq⟩ := Option.map_eq_some_iff.mp h
      cases heq
      exact ⟨r₂.responds hr, rfl⟩

end Replays

end Coinpilot.Lib.Program
