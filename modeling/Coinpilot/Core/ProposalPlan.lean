import Coinpilot.Core.Plan

/-!
# A rebalance plan as the proposal stores it

The document of a plan, and what counts as a material change. Two documents made from plans compare
without an exception, and they differ immaterially exactly when they send the same legs and no amount
moved by more than the new minimum (`isMaterial_spec`).
-/

set_option autoImplicit false

namespace Coinpilot.Core

open Coinpilot.Lib Coinpilot.Exchange Coinpilot.Engine

/-- One leg as it is stored. -/
def documentLeg (leg : PlannedLeg) : DocumentLeg where
  asset := leg.asset
  pair := leg.pair
  side := leg.side.value
  amountFiat := plainAmount leg.amount
  minimumFiat := leg.minimum.map plainAmount
  note := leg.note

/-- Every leg, the skipped ones too. -/
def planDocument (fiat : String) (legs : List PlannedLeg) : Document where
  fiat := fiat
  legs := legs.map documentLeg

/-- The legs that would be sent, by asset and side. -/
def sendable (document : Document) : Dict (String × String) DocumentLeg :=
  Dict.ofList ((document.legs.filter fun leg => leg.note = none).map fun leg =>
    ((leg.asset, leg.side), leg))

/-- Whether any leg would be sent. -/
def hasOrders (document : Document) : Bool := !(sendable document).entries.isEmpty

/-- `Decimal(text)` of an amount of a document. -/
def readAmount : Option String → Except PyError Decimal
  | none => .error .typeError
  | some s =>
      match Decimal.parse s with
      | some d => .ok d
      | none => .error .invalidOperation

/-- Whether an amount moved by more than its minimum, over the legs still to compare. -/
def anyMoved (before : Dict (String × String) DocumentLeg) :
    List ((String × String) × DocumentLeg) → Except PyError Bool
  | [] => .ok false
  | (key, leg) :: rest => do
      match before.get? key with
      | none => .error .keyError
      | some old =>
          let amount ← readAmount (some leg.amountFiat)
          let was ← readAmount (some old.amountFiat)
          let least ← readAmount leg.minimumFiat
          if least.value < |amount.value - was.value| then return true
          else anyMoved before rest

/-- Whether `new` differs from `old` enough to need a fresh approval. -/
def isMaterial (old new : Document) : Except PyError Bool :=
  let before := sendable old
  let after := sendable new
  if (∀ k ∈ before.keys, k ∈ after.keys) ∧ ∀ k ∈ after.keys, k ∈ before.keys then
    anyMoved before after.entries
  else .ok true

/-! ## Documents of plans -/

theorem side_value_inj {a b : Side} (h : a.value = b.value) : a = b := by
  cases a <;> cases b <;> first | rfl | (exfalso; revert h; decide)

/-- The sendable legs of a document made from a plan are the plan's legs without a note. -/
theorem sendable_planDocument (fiat : String) {legs : List PlannedLeg}
    (h : (legs.map PlannedLeg.asset).Nodup) :
    (sendable (planDocument fiat legs)).entries =
      (legs.filter fun leg => leg.note = none).map fun leg =>
        ((leg.asset, leg.side.value), documentLeg leg) := by
  have hlist : ((planDocument fiat legs).legs.filter fun leg => leg.note = none).map
      (fun leg => ((leg.asset, leg.side), leg)) =
      (legs.filter fun leg => leg.note = none).map fun leg =>
        ((leg.asset, leg.side.value), documentLeg leg) := by
    simp only [planDocument, List.filter_map, List.map_map]
    rfl
  unfold sendable
  rw [hlist]
  refine Dict.entries_ofList ?_
  rw [List.map_map]
  refine List.Nodup.map_on ?_ ((List.Nodup.of_map _ h).filter _)
  intro a ha b hb hab
  simp only [Function.comp_apply, Prod.mk.injEq] at hab
  exact List.inj_on_of_nodup_map h (List.mem_of_mem_filter ha) (List.mem_of_mem_filter hb) hab.1

theorem mem_sendable {fiat : String} {legs : List PlannedLeg}
    (h : (legs.map PlannedLeg.asset).Nodup) {k : String × String} {d : DocumentLeg} :
    (k, d) ∈ (sendable (planDocument fiat legs)).entries ↔
      ∃ leg ∈ legs, leg.note = none ∧ k = (leg.asset, leg.side.value) ∧ d = documentLeg leg := by
  rw [sendable_planDocument fiat h]
  simp only [List.mem_map, List.mem_filter, decide_eq_true_eq, Prod.mk.injEq]
  constructor
  · rintro ⟨leg, ⟨hm, hn⟩, hk, hd⟩
    exact ⟨leg, hm, hn, hk.symm, hd.symm⟩
  · rintro ⟨leg, hm, hn, hk, hd⟩
    exact ⟨leg, ⟨hm, hn⟩, hk.symm, hd.symm⟩

/-- A document has orders exactly when some leg of its plan would be sent. -/
theorem hasOrders_planDocument (fiat : String) {legs : List PlannedLeg}
    (h : (legs.map PlannedLeg.asset).Nodup) :
    hasOrders (planDocument fiat legs) = true ↔ ∃ leg ∈ legs, leg.note = none := by
  unfold hasOrders
  rw [sendable_planDocument fiat h]
  simp [List.filter_eq_nil_iff]

/-- The comparison of two legs that would be sent, in numbers. -/
def Near (old new : PlannedLeg) : Prop :=
  ∃ least, new.minimum = some least ∧ |new.amount.value - old.amount.value| ≤ least.value

theorem readAmount_plain (d : Decimal) :
    ∃ d', readAmount (some (plainAmount d)) = .ok d' ∧ d'.value = d.value := by
  obtain ⟨d', hp, hv⟩ := parse_plainAmount d
  exact ⟨d', by simp [readAmount, hp], hv⟩

/-- The comparison of one leg never raises, and says whether the amounts are near. -/
theorem anyMoved_cons {old : List PlannedLeg} (fiat : String)
    (hd : (old.map PlannedLeg.asset).Nodup) {a b : PlannedLeg} (ha : a ∈ old) (hn : a.note = none)
    (hb : b.note = none) (hasset : a.asset = b.asset) (hside : a.side = b.side)
    (rest : List ((String × String) × DocumentLeg)) :
    (Near a b ∧ anyMoved (sendable (planDocument fiat old))
        (((b.asset, b.side.value), documentLeg b) :: rest) =
          anyMoved (sendable (planDocument fiat old)) rest) ∨
      (¬Near a b ∧ anyMoved (sendable (planDocument fiat old))
        (((b.asset, b.side.value), documentLeg b) :: rest) = .ok true) := by
  obtain ⟨m, least, -, hmin, -⟩ := b.sized hb
  have hget : (sendable (planDocument fiat old)).get? (b.asset, b.side.value) =
      some (documentLeg a) := by
    refine Dict.get?_of_mem ((mem_sendable hd).mpr ⟨a, ha, hn, ?_, rfl⟩)
    rw [hasset, hside]
  obtain ⟨x, hx, hxv⟩ := readAmount_plain b.amount
  obtain ⟨y, hy, hyv⟩ := readAmount_plain a.amount
  obtain ⟨z, hz, hzv⟩ := readAmount_plain least
  have hstep : anyMoved (sendable (planDocument fiat old))
      (((b.asset, b.side.value), documentLeg b) :: rest) =
      if z.value < |x.value - y.value| then .ok true
      else anyMoved (sendable (planDocument fiat old)) rest := by
    simp only [anyMoved, hget, documentLeg, hmin, Option.map_some, hx, hy, hz, bind, Except.bind, pure,
      Except.pure]
  rw [hstep, hxv, hyv, hzv]
  by_cases hfar : least.value < |b.amount.value - a.amount.value|
  · refine Or.inr ⟨?_, if_pos hfar⟩
    rintro ⟨least', hl, hle⟩
    rw [hmin] at hl
    injection hl with hl
    subst hl
    exact absurd hle (not_le.mpr hfar)
  · exact Or.inl ⟨⟨least, hmin, not_lt.mp hfar⟩, if_neg hfar⟩

/-- Comparing legs that all have a counterpart never raises, and finds none moved exactly when
every two counterparts are near. -/
theorem anyMoved_spec {old : List PlannedLeg} (fiat : String)
    (hd : (old.map PlannedLeg.asset).Nodup) (new : List PlannedLeg)
    (hnew : ∀ b ∈ new, b.note = none ∧ ∃ a ∈ old, a.note = none ∧ a.asset = b.asset ∧ a.side = b.side) :
    ∃ r, anyMoved (sendable (planDocument fiat old))
        (new.map fun leg => ((leg.asset, leg.side.value), documentLeg leg)) = .ok r ∧
      (r = false ↔ ∀ b ∈ new, ∀ a ∈ old, a.note = none → a.asset = b.asset → Near a b) := by
  induction new with
  | nil => exact ⟨false, rfl, by simp⟩
  | cons b rest ih =>
    obtain ⟨r, hr, hiff⟩ := ih fun x hx => hnew x (List.mem_cons_of_mem _ hx)
    obtain ⟨hb, a, ha, hn, hasset, hside⟩ := hnew b List.mem_cons_self
    have huniq : ∀ a' ∈ old, a'.asset = b.asset → a' = a := fun a' ha' h =>
      List.inj_on_of_nodup_map hd ha' ha (h.trans hasset.symm)
    rw [List.map_cons]
    rcases anyMoved_cons fiat hd ha hn hb hasset hside
        (rest.map fun leg => ((leg.asset, leg.side.value), documentLeg leg)) with ⟨hnear, hs⟩ | ⟨hfar, hs⟩
    · refine ⟨r, by rw [hs, hr], hiff.trans ⟨fun h => ?_, fun h => ?_⟩⟩
      · intro x hx a' ha' hn' has'
        rcases List.mem_cons.mp hx with rfl | hx
        · rw [huniq a' ha' has']
          exact hnear
        · exact h x hx a' ha' hn' has'
      · exact fun x hx => h x (List.mem_cons_of_mem _ hx)
    · refine ⟨true, hs, ?_⟩
      simp only [Bool.true_eq_false, false_iff]
      exact fun h => hfar (h b List.mem_cons_self a ha hn hasset)

/-- The two plans send the same legs. -/
def SameLegs (old new : List PlannedLeg) : Prop :=
  (∀ a ∈ old, a.note = none → ∃ b ∈ new, b.note = none ∧ b.asset = a.asset ∧ b.side = a.side) ∧
    ∀ b ∈ new, b.note = none → ∃ a ∈ old, a.note = none ∧ a.asset = b.asset ∧ a.side = b.side

theorem keys_subset_iff {old new : List PlannedLeg} {f g : String}
    (ho : (old.map PlannedLeg.asset).Nodup) (hn : (new.map PlannedLeg.asset).Nodup) :
    (∀ k ∈ (sendable (planDocument f old)).keys, k ∈ (sendable (planDocument g new)).keys) ↔
      ∀ a ∈ old, a.note = none → ∃ b ∈ new, b.note = none ∧ b.asset = a.asset ∧ b.side = a.side := by
  have hkeys : ∀ {legs : List PlannedLeg} {fiat : String}, (legs.map PlannedLeg.asset).Nodup →
      ∀ k, k ∈ (sendable (planDocument fiat legs)).keys ↔
        ∃ leg ∈ legs, leg.note = none ∧ k = (leg.asset, leg.side.value) := by
    intro legs fiat h k
    rw [Dict.keys, List.mem_map]
    constructor
    · rintro ⟨⟨k', d⟩, hmem, rfl⟩
      obtain ⟨leg, hl, hnote, hk, -⟩ := (mem_sendable h).mp hmem
      exact ⟨leg, hl, hnote, hk⟩
    · rintro ⟨leg, hl, hnote, rfl⟩
      exact ⟨(_, documentLeg leg), (mem_sendable h).mpr ⟨leg, hl, hnote, rfl, rfl⟩, rfl⟩
  constructor
  · intro h a ha hnote
    obtain ⟨b, hb, hbn, hk⟩ := (hkeys hn _).mp (h _ ((hkeys ho _).mpr ⟨a, ha, hnote, rfl⟩))
    rw [Prod.mk.injEq] at hk
    exact ⟨b, hb, hbn, hk.1.symm, (side_value_inj hk.2).symm⟩
  · intro h k hk
    obtain ⟨a, ha, hnote, rfl⟩ := (hkeys ho _).mp hk
    obtain ⟨b, hb, hbn, hasset, hside⟩ := h a ha hnote
    exact (hkeys hn _).mpr ⟨b, hb, hbn, by rw [hasset, hside]⟩

/-- Comparing two plans never raises, and finds no material change exactly when they send the same
legs and every two of one asset are near. -/
theorem isMaterial_spec {old new : List PlannedLeg} (f g : String)
    (ho : (old.map PlannedLeg.asset).Nodup) (hn : (new.map PlannedLeg.asset).Nodup) :
    ∃ r, isMaterial (planDocument f old) (planDocument g new) = .ok r ∧
      (r = false ↔ SameLegs old new ∧ ∀ b ∈ new, b.note = none → ∀ a ∈ old, a.note = none →
        a.asset = b.asset → Near a b) := by
  unfold isMaterial
  dsimp only
  have hiff : ((∀ k ∈ (sendable (planDocument f old)).keys, k ∈ (sendable (planDocument g new)).keys) ∧
      ∀ k ∈ (sendable (planDocument g new)).keys, k ∈ (sendable (planDocument f old)).keys) ↔
      SameLegs old new := and_congr (keys_subset_iff ho hn) (keys_subset_iff hn ho)
  by_cases hs : SameLegs old new
  · rw [if_pos (hiff.mpr hs), sendable_planDocument g hn]
    obtain ⟨r, hr, hrf⟩ := anyMoved_spec f ho (new.filter fun leg => leg.note = none) (by
      intro b hb
      rw [List.mem_filter, decide_eq_true_eq] at hb
      exact ⟨hb.2, hs.2 b hb.1 hb.2⟩)
    refine ⟨r, hr, hrf.trans ⟨fun h => ⟨hs, fun b hb hbn => ?_⟩, fun h b hb => ?_⟩⟩
    · exact h b (List.mem_filter.mpr ⟨hb, by simpa using hbn⟩)
    · rw [List.mem_filter, decide_eq_true_eq] at hb
      exact h.2 b hb.1 hb.2
  · rw [if_neg (fun h => hs (hiff.mp h))]
    exact ⟨true, rfl, by simp [hs]⟩

end Coinpilot.Core
