import Coinpilot.Lib.Decimal

/-!
# One number, one text

The form without trailing zeros is the same for every decimal of one number (`normalize_eq_iff`), and so
is its text in plain notation (`plain_eq_iff`). That text is made of digits, a sign and a point
(`plain_chars`), and what follows the point does not end in a zero (`plain_places`).
-/

set_option autoImplicit false

namespace Coinpilot.Lib.Decimal

/-! ## The form without trailing zeros -/

/-- Zero is `0`, and no other coefficient ends in a zero. -/
def Stripped (d : Decimal) : Prop := d = zero ∨ d.coeff % 10 ≠ 0

/-- Enough fuel divides all the trailing zeros out. -/
theorem stripZeros_spec {fuel : Nat} {c : Int} (e : Int) (hc : c ≠ 0) (hfuel : c.natAbs ≤ fuel) :
    ∃ k : Nat, c = (stripZeros fuel c e).coeff * 10 ^ k ∧ (stripZeros fuel c e).exp = e + k ∧
      (stripZeros fuel c e).coeff % 10 ≠ 0 := by
  induction fuel generalizing c e with
  | zero => omega
  | succ fuel ih =>
    rw [stripZeros]
    by_cases h : c % 10 = 0
    · rw [if_pos h]
      obtain ⟨k, hk, hexp, hlast⟩ := ih (c := c / 10) (e + 1) (by omega) (by omega)
      refine ⟨k + 1, ?_, by rw [hexp]; push_cast; omega, hlast⟩
      calc c = c / 10 * 10 := by omega
        _ = _ := by rw [pow_succ, ← mul_assoc, ← hk]
    · rw [if_neg h]
      exact ⟨0, by simp, by simp, h⟩

/-- What `normalize` takes off a coefficient other than zero. -/
theorem normalize_spec {d : Decimal} (hd : d.coeff ≠ 0) :
    ∃ k : Nat, d.coeff = d.normalize.coeff * 10 ^ k ∧ d.normalize.exp = d.exp + k ∧
      d.normalize.coeff % 10 ≠ 0 := by
  rw [normalize, if_neg hd]
  exact stripZeros_spec d.exp hd le_rfl

theorem stripped_normalize (d : Decimal) : Stripped d.normalize := by
  by_cases hd : d.coeff = 0
  · rw [normalize, if_pos hd]
    exact .inl rfl
  · obtain ⟨k, -, -, hlast⟩ := normalize_spec hd
    exact .inr hlast

theorem value_eq_zero {d : Decimal} : d.value = 0 ↔ d.coeff = 0 := by
  rw [value, mul_eq_zero, Int.cast_eq_zero, or_iff_left (ten_zpow_pos d.exp).ne']

/-- Of two decimals of one number, the one at the larger exponent leaves zeros in the other. -/
theorem coeff_eq_of_value {a b : Decimal} (h : a.value = b.value) (he : a.exp ≤ b.exp) :
    a.coeff = b.coeff * 10 ^ (b.exp - a.exp).toNat := by
  have hb := value_coeffAt b he
  rw [← h, value] at hb
  exact_mod_cast (mul_right_cancel₀ (ten_zpow_pos a.exp).ne' hb).symm

/-- Two stripped decimals of one number are the same, from the one at the smaller exponent. -/
theorem stripped_eq_of_le {a b : Decimal} (ha : a.coeff % 10 ≠ 0) (h : a.value = b.value)
    (he : a.exp ≤ b.exp) : a = b := by
  have hcoeff := coeff_eq_of_value h he
  have hexp : b.exp - a.exp = 0 := by
    by_contra hne
    obtain ⟨k, hk⟩ : ∃ k, (b.exp - a.exp).toNat = k + 1 := ⟨(b.exp - a.exp).toNat - 1, by omega⟩
    rw [hk, pow_succ, ← mul_assoc] at hcoeff
    omega
  rw [hexp] at hcoeff
  have hexp' : a.exp = b.exp := by omega
  cases a
  cases b
  simp_all

theorem stripped_ext {a b : Decimal} (ha : Stripped a) (hb : Stripped b) (h : a.value = b.value) :
    a = b := by
  rcases ha with rfl | ha
  · rcases hb with rfl | hb
    · rfl
    · rw [value_zero, eq_comm, value_eq_zero] at h
      exact absurd h fun h0 => hb (by simp [h0])
  · rcases hb with rfl | hb
    · rw [value_zero, value_eq_zero] at h
      exact absurd h fun h0 => ha (by simp [h0])
    · rcases le_total a.exp b.exp with he | he
      · exact stripped_eq_of_le ha h he
      · exact (stripped_eq_of_le hb h.symm he).symm

/-- One number has one form without trailing zeros. -/
theorem normalize_eq_iff (a b : Decimal) : a.normalize = b.normalize ↔ a.value = b.value := by
  constructor
  · intro h
    rw [← value_normalize a, h, value_normalize]
  · intro h
    apply stripped_ext (stripped_normalize a) (stripped_normalize b)
    rw [value_normalize, value_normalize, h]

/-! ## Its text -/

/-- One number has one text, and no other number has it. -/
theorem plain_eq_iff (a b : Decimal) : a.normalize.fixed = b.normalize.fixed ↔ a.value = b.value := by
  constructor
  · intro h
    obtain ⟨x, hx, hxa⟩ := parse_fixed a.normalize
    obtain ⟨y, hy, hyb⟩ := parse_fixed b.normalize
    rw [h, hy] at hx
    cases hx
    rw [← value_normalize a, ← hxa, hyb, value_normalize]
  · intro h
    rw [(normalize_eq_iff a b).mpr h]

/-- What plain notation is written with. -/
def PlainChar (x : Char) : Prop := x.isDigit = true ∨ x = '-' ∨ x = '.'

theorem fixedUnsigned_chars (c : Nat) (e : Int) :
    ∀ x ∈ fixedUnsigned c e, x.isDigit = true ∨ (x = '.' ∧ e < 0) := by
  intro x hx
  rw [fixedUnsigned] at hx
  split at hx
  · left
    split at hx
    · rw [List.mem_singleton.mp hx]
      decide
    · rcases List.mem_append.mp hx with hx | hx
      · exact List.all_eq_true.mp (all_isDigit_toDigits c) x hx
      · rw [(List.mem_replicate.mp hx).2]
        decide
  · rename_i he
    have hall := List.all_eq_true.mp (all_isDigit_padDigits c ((-e).toNat + 1))
    rcases List.mem_append.mp hx with hx | hx
    · exact .inl (hall x (List.mem_of_mem_take hx))
    · rcases List.mem_cons.mp hx with rfl | hx
      · exact .inr ⟨rfl, by omega⟩
      · exact .inl (hall x (List.mem_of_mem_drop hx))

/-- The characters of a decimal in plain notation: one without places has no point. -/
theorem fixed_chars (d : Decimal) :
    ∀ x ∈ d.fixed.toList, x.isDigit = true ∨ x = '-' ∨ (x = '.' ∧ d.exp < 0) := by
  intro x hx
  rw [fixed, String.toList_ofList] at hx
  split at hx
  · rcases List.mem_cons.mp hx with rfl | hx
    · exact .inr (.inl rfl)
    · exact (fixedUnsigned_chars _ _ x hx).imp_right .inr
  · exact (fixedUnsigned_chars _ _ x hx).imp_right .inr

theorem plain_chars (d : Decimal) : ∀ x ∈ d.fixed.toList, PlainChar x := by
  intro x hx
  rcases fixed_chars d x hx with h | h | ⟨h, -⟩
  · exact .inl h
  · exact .inr (.inl h)
  · exact .inr (.inr h)

/-- The digits of a number end in its last digit. -/
theorem getLast?_toDigits (n : Nat) : (Nat.toDigits 10 n).getLast? = some (Nat.digitChar (n % 10)) := by
  by_cases h : n < 10
  · rw [Nat.toDigits_of_lt_base h, Nat.mod_eq_of_lt h]
    rfl
  · rw [Nat.toDigits_of_base_le (by decide) (not_lt.mp h), List.getLast?_append]
    rfl

theorem getLast?_padDigits (n width : Nat) :
    (padDigits n width).getLast? = some (Nat.digitChar (n % 10)) := by
  rw [padDigits, List.getLast?_append, getLast?_toDigits]
  rfl

/-- A text with places ends in the last digit of the coefficient. -/
theorem getLast?_fixedUnsigned (c : Nat) {e : Int} (he : e < 0) :
    (fixedUnsigned c e).getLast? = some (Nat.digitChar (c % 10)) := by
  have hlen := length_padDigits c ((-e).toNat + 1)
  rw [fixedUnsigned, if_neg (by omega)]
  dsimp only
  generalize hds : padDigits c ((-e).toNat + 1) = ds at hlen ⊢
  have hlast : ds.getLast? = some (Nat.digitChar (c % 10)) := hds ▸ getLast?_padDigits _ _
  have hdrop : (ds.drop (ds.length - (-e).toNat)).getLast? = ds.getLast? := by
    rw [List.getLast?_drop, if_neg (by omega)]
  rw [List.getLast?_append, List.getLast?_cons, hdrop, hlast]
  rfl

theorem getLast?_fixed (d : Decimal) (he : d.exp < 0) :
    d.fixed.toList.getLast? = some (Nat.digitChar (d.coeff.natAbs % 10)) := by
  rw [fixed, String.toList_ofList]
  split
  · rw [List.getLast?_cons, getLast?_fixedUnsigned _ he]
    rfl
  · exact getLast?_fixedUnsigned _ he

/-- A digit other than zero is not written `0`, nor as a point. -/
theorem digitChar_ne {n : Nat} (h : n < 10) (h0 : n ≠ 0) :
    Nat.digitChar n ≠ '0' ∧ Nat.digitChar n ≠ '.' := by
  have hall : ∀ n < 10, n ≠ 0 → Nat.digitChar n ≠ '0' ∧ Nat.digitChar n ≠ '.' := by decide
  exact hall n h h0

/-- What follows the point of a text without padding is there, and does not end in a zero. -/
theorem plain_places (d : Decimal) {whole places : List Char}
    (h : d.normalize.fixed.toList = whole ++ '.' :: places) :
    places ≠ [] ∧ places.getLast? ≠ some '0' := by
  have hpoint : '.' ∈ d.normalize.fixed.toList := by
    rw [h]
    exact List.mem_append_right _ List.mem_cons_self
  have hexp : d.normalize.exp < 0 := by
    rcases fixed_chars _ '.' hpoint with hd | hd | ⟨-, hd⟩
    · exact absurd hd (by decide)
    · exact absurd hd (by decide)
    · exact hd
  have hcoeff : d.normalize.coeff % 10 ≠ 0 := by
    rcases stripped_normalize d with hz | hlast
    · rw [hz] at hexp
      exact absurd hexp (by decide)
    · exact hlast
  obtain ⟨hzero, hdot⟩ := digitChar_ne (n := d.normalize.coeff.natAbs % 10) (by omega) (by omega)
  have hlast := getLast?_fixed _ hexp
  rw [h, List.getLast?_append, List.getLast?_cons] at hlast
  have hend : places.getLast?.getD '.' = Nat.digitChar (d.normalize.coeff.natAbs % 10) := by
    simpa using hlast
  constructor
  · rintro rfl
    exact hdot hend.symm
  · intro hz
    rw [hz] at hend
    exact hzero hend.symm

end Coinpilot.Lib.Decimal
