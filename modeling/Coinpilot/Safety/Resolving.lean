import Coinpilot.Safety.Lookups

/-!
# Resolving under the lock

Resolving that ends clear leaves no row pending (`wp_resolvePending`). While it runs, the rows it has
yet to look up are the pending ones, as long as it is clear.
-/

set_option autoImplicit false

namespace Coinpilot.Safety

open Coinpilot.Lib Coinpilot.Lib.Program Coinpilot.Exchange Coinpilot.Engine Coinpilot.Core

/-- The rows still to resolve, and what is known of the others. The evaluation has no row yet. -/
structure Resolving (id : Nat) (rest : List Order) (clear : Bool) (l : Ledger) : Prop where
  distinct : (rest.map Order.clOrdId).Nodup
  present : ∀ o ∈ rest, o ∈ l.rows ∧ o.status = .pending
  others : clear = true → ∀ row ∈ l.rows, row.status = .pending → row ∈ rest
  session : ∀ row ∈ l.rows, row.sessionId ≠ some id

theorem Resolving.start {id : Nat} {l : Ledger} (h : ∀ row ∈ l.rows, row.sessionId ≠ some id) :
    Resolving id l.pendingOrders true l where
  distinct := by
    have hperm : l.pendingOrders.Perm (l.rows.filter fun o => o.status = .pending) :=
      List.perm_insertionSort _ _
    rw [(hperm.map Order.clOrdId).nodup_iff]
    exact l.unique.sublist (List.filter_sublist.map _)
  present o ho := Ledger.mem_pendingOrders.mp ho
  others _ row hrow hp := Ledger.mem_pendingOrders.mpr ⟨hrow, hp⟩
  session := h

/-- A row that was not settled, because its absence is not believed yet. -/
theorem Resolving.skip {id : Nat} {o : Order} {rest : List Order} {clear : Bool} {l : Ledger}
    (h : Resolving id (o :: rest) clear l) : Resolving id rest false l where
  distinct := (List.nodup_cons.mp h.distinct).2
  present o' ho' := h.present o' (List.mem_cons_of_mem _ ho')
  others hf := by cases hf
  session := h.session

/-- A row that was settled. It is no longer pending, or resolving is not clear. -/
theorem Resolving.settle {id : Nat} {o : Order} {rest : List Order} {clear : Bool} {l l' : Ledger}
    {lookup : Option OrderLookup} {s : OrderStatus} (h : Resolving id (o :: rest) clear l)
    (hset : Settled l o.clOrdId lookup s l') :
    Resolving id rest (if s = .pending then false else clear) l' := by
  obtain ⟨hnew, hrest⟩ := List.nodup_cons.mp h.distinct
  obtain ⟨f, hf, hrows, hspec⟩ := hset.rows
  obtain ⟨ho, hp⟩ := h.present o List.mem_cons_self
  have hne : ∀ o' ∈ rest, o'.clOrdId ≠ o.clOrdId := by
    intro o' ho' hc
    exact hnew (hc ▸ List.mem_map_of_mem ho')
  refine ⟨hrest, ?_, ?_, ?_⟩
  · intro o' ho'
    obtain ⟨hmem, hpend⟩ := h.present o' (List.mem_cons_of_mem _ ho')
    refine ⟨?_, hpend⟩
    rw [hrows]
    exact Ledger.mem_modify.mpr (Or.inl ⟨hmem, hne o' ho'⟩)
  · intro hclear row hrow hpend
    have hs : s ≠ .pending := by
      intro hs
      rw [if_pos hs] at hclear
      cases hclear
    rw [if_neg hs] at hclear
    rw [hrows] at hrow
    rcases Ledger.mem_modify.mp hrow with ⟨hmem, hc⟩ | ⟨o', ho', hc, rfl⟩
    · rcases List.mem_cons.mp (h.others hclear row hmem hpend) with rfl | hin
      · exact absurd rfl hc
      · exact hin
    · obtain rfl : o' = o := Ledger.eq_of_clOrdId ho' ho hc
      rw [(hspec o').2.2.1 hp] at hpend
      exact absurd hpend hs
  · intro row hrow
    rw [hrows] at hrow
    rcases Ledger.mem_modify.mp hrow with ⟨hmem, -⟩ | ⟨o', ho', -, rfl⟩
    · exact h.session row hmem
    · rw [(hspec o').1]
      exact h.session o' ho'

section Rules

variable {honest : Prop} {i : Nat} {c : Request} {n : Int} {s id : Nat} {locals : Locals}

/-- The loop over the rows still to resolve. -/
theorem wp_resolveEach {Q : Except Exn Resolution → Locals → Rec → Prop}
    (herror : ∀ (e : Exn) (w₂ : Rec), e.isUnavailable = false → w₂.now.lock = some i →
      Q (.error e) locals w₂)
    (hok : ∀ r l xs w₂, Resolving id [] r.clear l → ¬Places xs → At i n s l xs w₂ →
      Q (.ok r) locals w₂) (rest : List Order) (r : Resolution) {l : Ledger} {xs : List Exchanged}
    {w : Rec} (h : Resolving id rest r.clear l) (hxs : ¬Places xs) (hw : At i n s l xs w) :
    (resolveEach n rest r).Wp (ledgerRules honest) i c Q locals w := by
  induction rest generalizing r l xs w with
  | nil => exact hok r l xs w h hxs hw
  | cons o rest ih =>
    have hafter : ∀ {ys : List Exchanged}, ¬Places ys → ¬Places (ys ++ xs) := by
      rintro ys hys ⟨x, hx, hc⟩
      rcases List.mem_append.mp hx with hx | hx
      · exact hys ⟨x, hx, hc⟩
      · exact hxs ⟨x, hx, hc⟩
    obtain ⟨ho, hp⟩ := h.present o List.mem_cons_self
    refine wp_bind (wp_lookUp ho hw ?_ ?_)
    · intro e ys w₂ _ hw₂
      exact herror _ w₂ rfl hw₂.lock
    · intro lookup ys w₂ hys hw₂ hi₂ hrep
      dsimp only
      split
      · exact ih _ (by simpa using h.skip) (hafter hys) hw₂
      · rename_i hsoon
        -- The lookup's answer is believed, and written down.
        refine wp_bind (wp_tx (durable_reported _ _ _) hw₂ hrep ?_ ?_ ?_)
        · intro w₃ hw₃ hi₃ hrep₃
          refine ⟨⟨o, hw₃.ledger ▸ ho, rfl, hp⟩, fun hh => ?_⟩
          exact (hrep₃ hh).truthful (hi₃.remote hh) (hw₃.ledger ▸ ho) (by simpa using hsoon)
        · intro e w₃ he hw₃
          exact herror e w₃ he hw₃.lock
        · intro status db w₃ w₄ hw₃ _ _ hrun _ hw₄
          obtain ⟨l', hset, rfl⟩ := settle_run hrun
          rw [hw₃.ledger] at hset
          have hnext := h.settle hset
          by_cases hpending : status = .pending
          · rw [if_pos hpending] at hnext
            simp only [hpending, if_true]
            exact ih _ (by simpa using hnext) (hafter hys) hw₄
          · rw [if_neg hpending] at hnext
            simp only [hpending, if_false]
            refine ih _ ?_ (hafter hys) hw₄
            split <;> exact hnext

/-- Resolving: no row is pending after it is clear. -/
theorem wp_resolvePending {Q : Except Exn Resolution → Locals → Rec → Prop} {l : Ledger}
    {xs : List Exchanged} {w : Rec} (hsession : ∀ row ∈ l.rows, row.sessionId ≠ some id)
    (hxs : ¬Places xs) (hw : At i n s l xs w)
    (herror : ∀ (e : Exn) (w₂ : Rec), e.isUnavailable = false → w₂.now.lock = some i →
      Q (.error e) locals w₂)
    (hok : ∀ r l xs w₂, Resolving id [] r.clear l → ¬Places xs → At i n s l xs w₂ →
      Q (.ok r) locals w₂) :
    (resolvePending n).Wp (ledgerRules honest) i c Q locals w := by
  refine wp_bind (wp_tx_quiet hw rfl nofun ?_ ?_)
  · intro e w₂ he hw₂
    exact herror e w₂ he hw₂.lock
  · intro pending now db db' hdb hrun w₂ hw₂
    have hpending : pending = l.pendingOrders := by
      cases hrun
      rw [hdb]
    subst hpending
    exact wp_resolveEach herror hok _ _ (Resolving.start hsession) hxs hw₂

end Rules

end Coinpilot.Safety
