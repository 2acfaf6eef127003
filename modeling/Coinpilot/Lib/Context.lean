import Coinpilot.Lib.Binary64
import Coinpilot.Lib.PlainText

/-!
# A decimal context

A context keeps so many digits, and exponents between two bounds. `fix` brings a finite decimal into it:
what has no place is rounded half to even, and what is too large raises. `normalize` does so and strips
the trailing zeros. On a decimal that is in range without its trailing zeros nothing is rounded
(`normalize_of_inRange`).
-/

set_option autoImplicit false

namespace Coinpilot.Lib

open Coinpilot.Lib.Binary64

/-- A finite `Decimal` by its sign, its digits and its exponent. Zero has both signs. -/
structure SignedDecimal where
  negative : Bool
  digits : Nat
  exp : Int
  deriving DecidableEq, Repr

namespace SignedDecimal

/-- The number, whose zero has no sign. -/
def toDecimal (d : SignedDecimal) : Decimal := ⟨if d.negative then -(d.digits : Int) else d.digits, d.exp⟩

def value (d : SignedDecimal) : Rat := d.toDecimal.value

/-- A number with the sign it has; zero is positive. -/
def ofDecimal (d : Decimal) : SignedDecimal := ⟨decide (d.coeff < 0), d.coeff.natAbs, d.exp⟩

def NegativeZero (d : SignedDecimal) : Prop := d.negative = true ∧ d.digits = 0

instance (d : SignedDecimal) : Decidable d.NegativeZero := inferInstanceAs (Decidable (_ ∧ _))

/-- `format(d, "f")`: every digit, and no exponent. -/
def format (d : SignedDecimal) : String :=
  String.ofList (if d.negative then '-' :: Decimal.fixedUnsigned d.digits d.exp
    else Decimal.fixedUnsigned d.digits d.exp)

@[simp] theorem toDecimal_ofDecimal (d : Decimal) : (ofDecimal d).toDecimal = d := by
  have hcoeff : (if decide (d.coeff < 0) then -(d.coeff.natAbs : Int) else d.coeff.natAbs) = d.coeff := by
    by_cases h : d.coeff < 0
    · rw [if_pos (decide_eq_true h)]
      omega
    · rw [if_neg (by simpa using h)]
      omega
  exact congrArg (fun c => (⟨c, d.exp⟩ : Decimal)) hcoeff

/-- The digits are those of the number without its sign. -/
theorem natAbs_toDecimal (d : SignedDecimal) : d.toDecimal.coeff.natAbs = d.digits := by
  rw [toDecimal]
  split <;> simp

theorem not_negativeZero_ofDecimal (d : Decimal) : ¬(ofDecimal d).NegativeZero := by
  rintro ⟨hneg, hzero⟩
  have hlt : d.coeff < 0 := of_decide_eq_true hneg
  have habs : d.coeff.natAbs = 0 := hzero
  omega

theorem format_ofDecimal (d : Decimal) : (ofDecimal d).format = d.fixed := by
  by_cases h : d.coeff < 0 <;> simp [format, ofDecimal, Decimal.fixed, h]

/-- A text reads back as the number it was written from, a negative zero as zero. -/
theorem parse_format (d : SignedDecimal) : ∃ x, Decimal.parse d.format = some x ∧ x.value = d.value := by
  cases d with
  | mk negative digits exp =>
    cases negative with
    | false =>
      obtain ⟨x, hx, hv⟩ := Decimal.parse_fixed ⟨digits, exp⟩
      refine ⟨x, ?_, hv⟩
      have hsign : decide ((digits : Int) < 0) = false := decide_eq_false (by omega)
      rw [← hx, ← format_ofDecimal, ofDecimal, hsign]
      rfl
    | true =>
      obtain ⟨u, hu, hv, -⟩ := Decimal.parseUnsigned_fixed digits exp
      refine ⟨u.neg, ?_, ?_⟩
      · rw [format, if_pos rfl, Decimal.parse, String.toList_ofList, Decimal.parseChars, hu]
        rfl
      · rw [Decimal.value_neg, hv]
        simp [value, toDecimal, Decimal.value]

/-- Strip trailing zeros as long as the exponent is below the limit, `fuel` of them at most. -/
def stripUpTo (negative : Bool) (limit : Int) : Nat → Nat → Int → SignedDecimal
  | 0, c, e => ⟨negative, c, e⟩
  | fuel + 1, c, e =>
      if c % 10 = 0 ∧ e < limit then stripUpTo negative limit fuel (c / 10) (e + 1)
      else ⟨negative, c, e⟩

end SignedDecimal

/-- The digits that a number is written with. -/
def numDigits (n : Nat) : Nat := (Nat.toDigits 10 n).length

/-- How many digits are kept, and between which exponents the first of them may stand. -/
structure DecimalContext where
  prec : Nat
  emin : Int
  emax : Int

/-- The context that a thread starts with. -/
def defaultContext : DecimalContext := ⟨28, -999999, 999999⟩

namespace DecimalContext

/-- The least exponent of a last digit. -/
def etiny (ctx : DecimalContext) : Int := ctx.emin - ctx.prec + 1

/-- The exponent of the last digit of the largest numbers, all digits written. -/
def etop (ctx : DecimalContext) : Int := ctx.emax - ctx.prec + 1

/-- Bring a decimal into the context, or `none` where that raises `Overflow`. -/
def fix (ctx : DecimalContext) (d : SignedDecimal) : Option SignedDecimal :=
  if d.digits = 0 then some { d with exp := min (max d.exp ctx.etiny) ctx.emax }
  else
    let expMin := numDigits d.digits + d.exp - ctx.prec
    if ctx.etop < expMin then none
    else
      let expMin := max expMin ctx.etiny
      if d.exp < expMin then
        let coeff := nearest d.digits (10 ^ (expMin - d.exp).toNat)
        -- rounding up may have added a digit
        if numDigits coeff ≤ ctx.prec then some ⟨d.negative, coeff, expMin⟩
        else if ctx.etop < expMin + 1 then none
        else some ⟨d.negative, coeff / 10, expMin + 1⟩
      else some d

/-- `d.normalize()`. -/
def normalize (ctx : DecimalContext) (d : SignedDecimal) : Option SignedDecimal :=
  (ctx.fix d).map fun fixed =>
    if fixed.digits = 0 then ⟨fixed.negative, 0, 0⟩
    else SignedDecimal.stripUpTo fixed.negative ctx.emax fixed.digits fixed.digits fixed.exp

/-- Without its trailing zeros, the decimal has a place for each of its digits. -/
structure InRange (ctx : DecimalContext) (d : Decimal) : Prop where
  precise : numDigits d.normalize.coeff.natAbs ≤ ctx.prec
  not_tiny : ctx.etiny ≤ d.normalize.exp
  not_huge : numDigits d.normalize.coeff.natAbs + d.normalize.exp ≤ ctx.emax + 1

end DecimalContext

/-! ## Digits -/

theorem numDigits_pos (n : Nat) : 0 < numDigits n := Nat.length_toDigits_pos

theorem numDigits_mul_ten {n : Nat} (h : 0 < n) : numDigits (n * 10) = numDigits n + 1 := by
  rw [numDigits, Nat.toDigits_of_base_le (by decide) (by omega), List.length_append,
    Nat.mul_div_cancel n (by decide)]
  rfl

theorem numDigits_mul_pow {n : Nat} (h : 0 < n) (k : Nat) : numDigits (n * 10 ^ k) = numDigits n + k := by
  induction k with
  | zero => simp
  | succ k ih =>
    rw [pow_succ, ← mul_assoc, numDigits_mul_ten (by positivity), ih]
    rfl

namespace SignedDecimal

theorem value_stripUpTo (negative : Bool) (limit : Int) (fuel c : Nat) (e : Int) :
    (stripUpTo negative limit fuel c e).value = (⟨negative, c, e⟩ : SignedDecimal).value := by
  induction fuel generalizing c e with
  | zero => rfl
  | succ fuel ih =>
    rw [stripUpTo]
    split
    · rename_i h
      obtain ⟨q, hq⟩ : ∃ q, c = q * 10 := ⟨c / 10, by omega⟩
      rw [ih, hq, Nat.mul_div_cancel q (by decide)]
      cases negative <;>
        simp [value, toDecimal, Decimal.value, zpow_add₀ (show (10 : Rat) ≠ 0 by norm_num)] <;> ring
    · rfl

/-- Zeros behind a digit other than zero are all stripped, when the limit leaves room. -/
theorem stripUpTo_mul_pow (negative : Bool) {limit e : Int} {c : Nat} (hc : c % 10 ≠ 0) (m : Nat)
    {fuel : Nat} (hfuel : m ≤ fuel) (he : e + m ≤ limit) :
    stripUpTo negative limit fuel (c * 10 ^ m) e = ⟨negative, c, e + m⟩ := by
  induction m generalizing fuel e with
  | zero =>
    cases fuel with
    | zero => simp [stripUpTo]
    | succ fuel => simp [stripUpTo, hc]
  | succ m ih =>
    cases fuel with
    | zero => omega
    | succ fuel =>
      have hten : c * 10 ^ (m + 1) = c * 10 ^ m * 10 := by rw [pow_succ, mul_assoc]
      rw [stripUpTo, hten, if_pos ⟨by omega, by push_cast at he; omega⟩, Nat.mul_div_cancel _ (by decide),
        ih (by omega) (by push_cast at he; omega)]
      push_cast
      congr 1
      omega

end SignedDecimal

/-! ## Decimals in range -/

namespace DecimalContext

variable {ctx : DecimalContext} {d : SignedDecimal}

/-- A decimal in range keeps its value: at most some of its trailing zeros go. -/
theorem fix_of_inRange {c k : Nat} (hc : 0 < c) (hdigits : d.digits = c * 10 ^ k)
    (hprec : numDigits c ≤ ctx.prec) (htiny : ctx.etiny ≤ d.exp + k)
    (htop : numDigits c + (d.exp + k) ≤ ctx.emax + 1) :
    ∃ (m : Nat) (e : Int), ctx.fix d = some ⟨d.negative, c * 10 ^ m, e⟩ ∧ e + m = d.exp + k := by
  have hpos : d.digits ≠ 0 := by
    rw [hdigits]
    positivity
  have hwidth : numDigits d.digits = numDigits c + k := by rw [hdigits, numDigits_mul_pow hc]
  rw [fix, if_neg hpos, hwidth]
  dsimp only
  rw [if_neg (by rw [etop]; push_cast; omega)]
  set low := max ((↑(numDigits c + k) : Int) + d.exp - ctx.prec) ctx.etiny with hlow
  by_cases hexp : d.exp < low
  · rw [if_pos hexp]
    obtain ⟨j, hj⟩ : ∃ j : Nat, (low - d.exp).toNat = j := ⟨_, rfl⟩
    have hjk : j ≤ k := by
      push_cast at hlow
      omega
    have hsplit : c * 10 ^ k = c * 10 ^ (k - j) * 10 ^ j := by
      rw [mul_assoc, ← pow_add, Nat.sub_add_cancel hjk]
    have hkept : nearest d.digits (10 ^ j) = c * 10 ^ (k - j) := by
      rw [hdigits, hsplit, nearest_of_dvd (by positivity) (Nat.mul_mod_left _ _),
        Nat.mul_div_cancel _ (by positivity)]
    rw [hj, hkept, numDigits_mul_pow hc, if_pos (by push_cast at hlow; omega)]
    exact ⟨k - j, low, rfl, by omega⟩
  · rw [if_neg hexp]
    refine ⟨k, d.exp, ?_, rfl⟩
    rw [← hdigits]

/-- On a decimal in range that is no negative zero, `normalize` strips the trailing zeros and rounds
nothing. -/
theorem normalize_of_inRange (hz : ¬d.NegativeZero) (h : ctx.InRange d.toDecimal) :
    ctx.normalize d = some (.ofDecimal d.toDecimal.normalize) := by
  by_cases hd : d.digits = 0
  · have hneg : d.negative = false := by
      cases hn : d.negative with
      | false => rfl
      | true => exact absurd ⟨hn, hd⟩ hz
    have hcoeff : d.toDecimal.coeff = 0 := by simp [SignedDecimal.toDecimal, hd]
    rw [Decimal.normalize, if_pos hcoeff, normalize, fix, if_pos hd]
    simp [hd, hneg, SignedDecimal.ofDecimal, Decimal.zero]
  · have habs : d.toDecimal.coeff.natAbs = d.digits := d.natAbs_toDecimal
    have hsign : d.toDecimal.coeff < 0 ↔ d.negative = true := by
      cases hn : d.negative <;> simp [SignedDecimal.toDecimal, hn]
      omega
    obtain ⟨k, hk, hexp, hlast⟩ := Decimal.normalize_spec (d := d.toDecimal) (by omega)
    obtain ⟨hprec, htiny, htop⟩ := h
    generalize d.toDecimal.normalize = stripped at *
    have hdigits : d.digits = stripped.coeff.natAbs * 10 ^ k := by
      rw [← habs, hk, Int.natAbs_mul, Int.natAbs_pow]
      rfl
    have hpos : 0 < stripped.coeff.natAbs := by omega
    have hsame : stripped.coeff < 0 ↔ d.negative = true := by
      rw [← hsign, hk]
      have hten : (0 : Int) < 10 ^ k := by positivity
      constructor
      · exact fun hneg => Int.mul_neg_of_neg_of_pos hneg hten
      · intro hneg
        by_contra hge
        exact absurd hneg (not_lt.mpr (Int.mul_nonneg (by omega) hten.le))
    have hexp' : stripped.exp = d.exp + k := hexp
    obtain ⟨m, e, hfix, hm⟩ := fix_of_inRange hpos hdigits hprec (by omega) (by omega)
    have hne : stripped.coeff.natAbs * 10 ^ m ≠ 0 := by positivity
    have hfuel : m ≤ stripped.coeff.natAbs * 10 ^ m :=
      (Nat.lt_pow_self (by decide)).le.trans (Nat.le_mul_of_pos_left _ hpos)
    have hroom : e + m ≤ ctx.emax := by
      have := numDigits_pos stripped.coeff.natAbs
      omega
    rw [normalize, hfix, Option.map_some]
    dsimp only
    rw [if_neg hne, SignedDecimal.stripUpTo_mul_pow _ (by omega) m hfuel hroom, hm, ← hexp']
    have hneg : d.negative = decide (stripped.coeff < 0) := by
      rw [Bool.eq_iff_iff, decide_eq_true_eq, hsame]
    rw [hneg]
    rfl

/-! ## Decimals out of range -/

theorem numDigits_le_iff {n k : Nat} (hk : 0 < k) : numDigits n ≤ k ↔ n < 10 ^ k :=
  Nat.length_toDigits_le_iff (by decide) hk

theorem lt_pow_numDigits (n : Nat) : n < 10 ^ numDigits n := (numDigits_le_iff (numDigits_pos n)).mp le_rfl

/-- What `fix` leaves has a place for each of its digits. -/
structure Fits (ctx : DecimalContext) (d : SignedDecimal) : Prop where
  precise : numDigits d.digits ≤ ctx.prec
  not_tiny : ctx.etiny ≤ d.exp
  not_huge : numDigits d.digits + d.exp ≤ ctx.emax + 1

/-- A rounded coefficient has one digit more than the context keeps, at most. -/
theorem nearest_lt {prec n j : Nat} (h : numDigits n ≤ prec + j) :
    nearest n (10 ^ j) < 10 ^ (prec + 1) := by
  have hlt : n < 10 ^ prec * 10 ^ j := by
    rw [← pow_add]
    exact (lt_pow_numDigits n).trans_le (Nat.pow_le_pow_right (by decide) h)
  have hquotient : n / 10 ^ j < 10 ^ prec := Nat.div_lt_of_lt_mul (by rwa [mul_comm])
  have hle := (nearest_bounds n (10 ^ j)).2
  have hpos : 0 < 10 ^ prec := by positivity
  rw [pow_succ]
  omega

theorem fits_of_fix (hctx : ctx.emin ≤ ctx.emax) {fixed : SignedDecimal} (h : ctx.fix d = some fixed)
    (hne : fixed.digits ≠ 0) : ctx.Fits fixed := by
  rw [fix] at h
  split at h
  · rename_i hd
    cases h
    exact absurd hd hne
  dsimp only at h
  split at h
  · cases h
  rename_i htop
  rw [etop] at htop
  have hbounds : ctx.etiny ≤ ctx.emax - ctx.prec + 1 := by
    rw [etiny]
    omega
  split at h
  · rename_i hexp
    generalize hlow : max ((numDigits d.digits : Int) + d.exp - ctx.prec) ctx.etiny = low at h hexp
    have hlow_le : low ≤ ctx.emax - ctx.prec + 1 := by omega
    have hkept : nearest d.digits (10 ^ (low - d.exp).toNat) < 10 ^ (ctx.prec + 1) :=
      nearest_lt (by omega)
    generalize nearest d.digits (10 ^ (low - d.exp).toNat) = kept at h hkept
    split at h
    · rename_i hprec
      cases h
      exact ⟨hprec, by show ctx.etiny ≤ low; omega, by show (numDigits kept : Int) + low ≤ _; omega⟩
    · rename_i hprec
      split at h
      · cases h
      · rename_i hcarry
        rw [etop] at hcarry
        cases h
        have hwidth : numDigits kept ≤ ctx.prec + 1 := (numDigits_le_iff (by omega)).mpr hkept
        have htenth : numDigits (kept / 10) + 1 ≤ numDigits kept := by
          rw [numDigits, numDigits, Nat.toDigits_of_base_le (n := kept) (by decide) (by
            by_contra hsmall
            exact hne (Nat.div_eq_of_lt (not_le.mp hsmall))), List.length_append]
          rfl
        refine ⟨by show numDigits (kept / 10) ≤ _; omega, by show ctx.etiny ≤ low + 1; omega, ?_⟩
        show (numDigits (kept / 10) : Int) + (low + 1) ≤ _
        omega
  · rename_i hexp
    cases h
    exact ⟨by omega, by omega, by omega⟩

/-- Fewer digits at a larger exponent fit as well. -/
theorem Fits.inRange (h : ctx.Fits d) (hd : d.digits ≠ 0) : ctx.InRange d.toDecimal := by
  have habs : d.toDecimal.coeff.natAbs = d.digits := d.natAbs_toDecimal
  obtain ⟨k, hk, hexp, hlast⟩ := Decimal.normalize_spec (d := d.toDecimal) (by omega)
  obtain ⟨hprec, htiny, hhuge⟩ := h
  have hexp' : d.toDecimal.normalize.exp = d.exp + k := hexp
  have hwidth : numDigits d.digits = numDigits d.toDecimal.normalize.coeff.natAbs + k := by
    rw [← habs, hk, Int.natAbs_mul, Int.natAbs_pow]
    exact numDigits_mul_pow (by omega) k
  exact ⟨by omega, by omega, by omega⟩

/-- Where `normalize` gives the number itself, the number is in range. -/
theorem inRange_of_normalize (hctx : ctx.emin ≤ ctx.emax) {n : SignedDecimal} (hd : d.digits ≠ 0)
    (h : ctx.normalize d = some n) (hvalue : n.value = d.value) : ctx.InRange d.toDecimal := by
  obtain ⟨fixed, hfix, hn⟩ := Option.map_eq_some_iff.mp h
  have hne : d.value ≠ 0 := fun h0 => by
    have habs : d.toDecimal.coeff.natAbs = d.digits := d.natAbs_toDecimal
    rw [SignedDecimal.value, Decimal.value_eq_zero] at h0
    omega
  by_cases hzero : fixed.digits = 0
  · rw [if_pos hzero] at hn
    subst hn
    exact absurd (hvalue.symm.trans (by cases fixed.negative <;> simp [SignedDecimal.value,
      SignedDecimal.toDecimal, Decimal.value])) hne
  · rw [if_neg hzero] at hn
    have hfixed : fixed.value = d.value := by
      rw [← hvalue, ← hn, SignedDecimal.value_stripUpTo]
    have hsame : fixed.toDecimal.normalize = d.toDecimal.normalize :=
      (Decimal.normalize_eq_iff _ _).mpr hfixed
    obtain ⟨hprec, htiny, hhuge⟩ := (fits_of_fix hctx hfix hzero).inRange hzero
    rw [hsame] at hprec htiny hhuge
    exact ⟨hprec, htiny, hhuge⟩

end DecimalContext

end Coinpilot.Lib
