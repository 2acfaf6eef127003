import Coinpilot.Lib.ReadCommitted

/-!
# Transactions one after another

A program that nothing else runs beside has one end at most, which `serve` computes
(`serve_iff_runsAlone`). While only transaction `i` is in progress (`Own`) every row is free for it, so
its locks wait for nobody, and its commit leaves a store with nothing in progress (`commit_own`).
-/

set_option autoImplicit false

namespace Coinpilot.Lib.ReadCommitted

open Coinpilot.Lib.Program

variable {K V C L ε α β : Type} [DecidableEq K] {i : Nat} {w w' : Store K V}

/-- The end of a program of transaction `i`, where no statement waits for another transaction. -/
def serve (i : Nat) : Prog (Stmt K V) Reply α → Store K V → Option (α × Store K V)
  | .ret a, w => some (a, w)
  | .call s next, w => (respond i s w).bind fun a => serve i (next a.1) a.2

/-- The store has one answer to a statement, or none. -/
theorem respond_iff {s : Stmt K V} {b : Reply s} : respond i s w = some (b, w') ↔ answered i s w b w' := by
  constructor
  · exact respond_answers
  · intro h
    cases s with
    | snapshot =>
      obtain ⟨rfl, rfl⟩ := h
      rfl
    | scan =>
      obtain ⟨rfl, rfl⟩ := h
      rfl
    | lock k =>
      obtain ⟨rfl, ⟨hv, rfl⟩ | ⟨hv, hf, rfl⟩⟩ := h
      · simp [respond, hv]
      · simp [respond, hv, hf]
    | write k v =>
      obtain ⟨hh, rfl⟩ := h
      exact if_pos hh
    | insert k v =>
      rcases h with ⟨hv, rfl, rfl⟩ | ⟨hv, hf, rfl, rfl⟩
      · simp [respond, hv]
      · simp [respond, hv, hf]
    | commit =>
      cases h
      rfl
    | rollback =>
      cases h
      rfl

/-- A run with nothing beside it ends as `serve` says, and there is one where `serve` gives an end. -/
theorem serve_iff_runsAlone {c : C} {p : Prog (Stmt K V) Reply α} {a : α} :
    serve i p w = some (a, w') ↔ RunsAlone (semantics K V C) i c p w a w' := by
  constructor
  · intro h
    induction p generalizing w with
    | ret x =>
      cases h
      exact .ret _ _
    | call s next ih =>
      obtain ⟨⟨b, w₁⟩, hb, hrest⟩ := Option.bind_eq_some_iff.mp h
      exact .call (respond_answers hb) (ih b hrest)
  · intro h
    induction h with
    | ret => rfl
    | env he _ ih =>
      cases he
      exact ih
    | call hs _ ih =>
      rw [serve, respond_iff.mpr hs]
      exact ih

theorem serve_prog_bind (p : Prog (Stmt K V) Reply α) (f : α → Prog (Stmt K V) Reply β)
    (w : Store K V) :
    serve i (p.bind f) w = (serve i p w).bind fun r => serve i (f r.1) r.2 := by
  induction p generalizing w with
  | ret a => rfl
  | call s next ih =>
    rw [Prog.bind, serve, serve, Option.bind_assoc]
    congr 1
    funext a
    exact ih a.1 a.2

/-- Sequencing after a part that returned. -/
theorem serve_bind {m : Proc (Stmt K V) Reply L ε α} {f : α → Proc (Stmt K V) Reply L ε β} {l l' : L}
    {a : α} (h : serve i (m.exec l) w = some ((.ok a, l'), w')) :
    serve i (Proc.exec (m >>= f) l) w = serve i ((f a).exec l') w' := by
  rw [exec_bind, serve_prog_bind, h]
  rfl

/-! ## One transaction in progress -/

/-- No other transaction is in progress. -/
structure Store.Own (i : Nat) (w : Store K V) : Prop where
  free : ∀ k, w.Free i k
  others : ∀ j, j ≠ i → w.drafts j = fun _ => none

omit [DecidableEq K] in
theorem Store.own_idle (i : Nat) (rows : Rows K V) (keys : List K) : (Store.idle rows keys).Own i :=
  ⟨fun _ => .inl rfl, fun _ _ => rfl⟩

theorem Store.Own.take (h : w.Own i) (k : K) : (w.take i k).Own i := by
  refine ⟨fun l => ?_, h.others⟩
  by_cases hl : l = k
  · exact .inr (by simp [Store.take, hl])
  · simpa [Store.Free, Store.take, hl] using h.free l

theorem Store.Own.draft (h : w.Own i) (k : K) (v : Option V) : (w.draft i k v).Own i := by
  refine ⟨(h.take k).free, fun j hj => ?_⟩
  simpa [Store.draft, hj] using h.others j hj

theorem Store.Own.create (h : w.Own i) (k : K) (v : V) : (w.create i k v).Own i :=
  ⟨(h.draft k (some v)).free, (h.draft k (some v)).others⟩

omit [DecidableEq K] in
/-- What the one transaction leaves when it commits. -/
theorem Store.commit_own (h : w.Own i) : w.commit i = Store.idle (w.view i) w.keys := by
  have hholder : (fun k => if w.holder k = some i then none else w.holder k) = fun _ => none := by
    funext k
    rcases h.free k with hk | hk
    · simp [hk]
    · simp [hk]
  have hdrafts : (fun j => if j = i then fun _ => none else w.drafts j) = fun _ _ => none := by
    funext j
    by_cases hj : j = i
    · simp [hj]
    · simp [hj, h.others j hj]
  rw [Store.commit, Store.release, hholder, hdrafts]
  rfl

/-! ## Its statements -/

section Statements

variable {l l' : L} {k : K}

theorem serve_pure (a : α) :
    serve i ((pure a : Proc (Stmt K V) Reply L ε α).exec l) w = some ((.ok a, l), w) := rfl

theorem serve_fromExcept {x : Except ε α} {a : α} (h : x = .ok a) :
    serve i ((fromExcept x : Proc (Stmt K V) Reply L ε α).exec l) w = some ((.ok a, l), w) := by
  rw [h]
  rfl

theorem serve_select :
    serve i ((select : Proc (Stmt K V) Reply L ε (Rows K V)).exec l) w = some ((.ok (w.view i), l), w) :=
  rfl

theorem serve_selectAll :
    serve i ((selectAll : Proc (Stmt K V) Reply L ε (List (K × V))).exec l) w =
      some ((.ok (w.listing i), l), w) := rfl

theorem serve_lockRow {v : V} (h : w.Free i k) (hv : w.view i k = some v) :
    serve i ((lockRow k : Proc (Stmt K V) Reply L ε (Option V)).exec l) w =
      some ((.ok (some v), l), w.take i k) := by
  have hrespond : respond i (.lock k) w = some (some v, w.take i k) := by
    rw [respond, if_pos (by rw [hv]; rfl), if_pos h, hv]
    rfl
  change (respond i (.lock k) w).bind _ = _
  rw [hrespond]
  rfl

theorem serve_writeRow (h : w.holder k = some i) (v : Option V) :
    serve i ((writeRow k v : Proc (Stmt K V) Reply L ε Unit).exec l) w =
      some ((.ok (), l), w.draft i k v) := by
  have hrespond : respond i (.write k v) w = some ((), w.draft i k v) := if_pos h
  change (respond i (.write k v) w).bind _ = _
  rw [hrespond]
  rfl

theorem serve_insertRow (h : w.Free i k) (hnone : w.view i k = none) (v : V) :
    serve i ((insertRow k v : Proc (Stmt K V) Reply L ε Bool).exec l) w =
      some ((.ok true, l), w.create i k v) := by
  have hrespond : respond i (.insert k v) w = some (true, w.create i k v) := by
    rw [respond, if_neg (by simp [hnone]), if_pos h]
    rfl
  change (respond i (.insert k v) w).bind _ = _
  rw [hrespond]
  rfl

theorem serve_updateRow {v : V} (h : w.Free i k) (hv : w.view i k = some v) (f : V → V) :
    serve i ((updateRow k f : Proc (Stmt K V) Reply L ε Bool).exec l) w =
      some ((.ok true, l), (w.take i k).draft i k (some (f v))) := by
  rw [updateRow, serve_bind (serve_lockRow h hv)]
  dsimp only
  rw [serve_bind (serve_writeRow (by simp [Store.take]) _), serve_pure]

theorem serve_deleteRow {v : V} (h : w.Free i k) (hv : w.view i k = some v) :
    serve i ((deleteRow k : Proc (Stmt K V) Reply L ε Bool).exec l) w =
      some ((.ok true, l), (w.take i k).draft i k none) := by
  rw [deleteRow, serve_bind (serve_lockRow h hv)]
  dsimp only
  rw [serve_bind (serve_writeRow (by simp [Store.take]) _), serve_pure]

/-- A transaction whose work returns commits. -/
theorem serve_transaction {m : Proc (Stmt K V) Reply L ε α} {a : α} (hown : w'.Own i)
    (h : serve i (m.exec l) w = some ((.ok a, l'), w')) :
    serve i ((transaction m).exec l) w = some ((.ok a, l'), Store.idle (w'.view i) w'.keys) := by
  rw [← Store.commit_own hown]
  change serve i (Prog.bind _ _) w = _
  rw [serve_prog_bind, h]
  rfl

end Statements

end Coinpilot.Lib.ReadCommitted
