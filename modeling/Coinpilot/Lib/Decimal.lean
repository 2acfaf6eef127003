import Mathlib.Data.Rat.Floor
import Mathlib.Algebra.Order.Field.Power
import Mathlib.Tactic.Ring
import Mathlib.Tactic.Linarith
import Mathlib.Tactic.Positivity
import Mathlib.Tactic.FieldSimp

/-!
# Decimal numbers

A finite decimal is an integer coefficient and a power of ten (`Decimal`); two of them may be one
number. Sums and products are exact. `quantize` rounds a rational to a number of decimal places,
`normalize` strips the trailing zeros of the coefficient, `fixed` writes a decimal without an
exponent and `parse` reads one. Reading what `fixed` wrote gives the same number (`parse_fixed`).
-/

set_option autoImplicit false

namespace Coinpilot.Lib

/-- The number `coeff * 10 ^ exp`. -/
structure Decimal where
  coeff : Int
  exp : Int
  deriving DecidableEq, Repr

/-- How a rational becomes an integer. `down` is towards zero and `up` away from it. -/
inductive Rounding where
  | down
  | up
  | halfUp
  | halfEven
  deriving DecidableEq, Repr

/-- The integer a rational is rounded to. -/
def Rounding.round : Rounding → Rat → Int
  | .down, q => if 0 ≤ q then ⌊q⌋ else ⌈q⌉
  | .up, q => if 0 ≤ q then ⌈q⌉ else ⌊q⌋
  | .halfUp, q => if 0 ≤ q then ⌊q + 1 / 2⌋ else ⌈q - 1 / 2⌉
  | .halfEven, q =>
      if q - ⌊q⌋ < 1 / 2 then ⌊q⌋
      else if 1 / 2 < q - ⌊q⌋ then ⌊q⌋ + 1
      else if ⌊q⌋ % 2 = 0 then ⌊q⌋ else ⌊q⌋ + 1

/-- A rational with no whole number strictly between its floor and its ceiling is whole. -/
theorem whole_of_ceil_le_floor {x : Rat} (h : ⌈x⌉ ≤ ⌊x⌋) : x = ⌊x⌋ := by
  apply le_antisymm
  · exact (Int.le_ceil x).trans (by exact_mod_cast h)
  · exact Int.floor_le x

theorem Rounding.abs_round_down_sub (x : Rat) : |(Rounding.down.round x : Rat) - x| < 1 := by
  rw [abs_lt]
  have hf := Int.floor_le x
  have hf' := Int.lt_floor_add_one x
  have hc := Int.le_ceil x
  have hc' := Int.ceil_lt_add_one x
  rw [Rounding.round]
  split
  · constructor <;> linarith
  · constructor <;> linarith

theorem Rounding.abs_round_up_sub (x : Rat) : |(Rounding.up.round x : Rat) - x| < 1 := by
  rw [abs_lt]
  have hf := Int.floor_le x
  have hf' := Int.lt_floor_add_one x
  have hc := Int.le_ceil x
  have hc' := Int.ceil_lt_add_one x
  rw [Rounding.round]
  split
  · constructor <;> linarith
  · constructor <;> linarith

/-- Towards zero is down for what is at least zero, or whole. -/
theorem Rounding.round_down_le_iff (x : Rat) :
    (∀ n : Int, |(n : Rat) - x| < 1 → Rounding.down.round x ≤ n) ↔ 0 ≤ x ∨ ∃ n : Int, x = n := by
  constructor
  · intro h
    by_cases hx : 0 ≤ x
    · exact .inl hx
    · have hfloor : |(⌊x⌋ : Rat) - x| < 1 := by
        rw [abs_lt]
        constructor <;> linarith [Int.floor_le x, Int.lt_floor_add_one x]
      have hle := h ⌊x⌋ hfloor
      rw [Rounding.round, if_neg hx] at hle
      exact .inr ⟨⌊x⌋, whole_of_ceil_le_floor hle⟩
  · intro h n hn
    obtain ⟨hlow, hhigh⟩ := abs_lt.mp hn
    rcases h with hx | ⟨k, rfl⟩
    · rw [Rounding.round, if_pos hx]
      have hlt : (⌊x⌋ : Rat) < n + 1 := by linarith [Int.floor_le x]
      have hlt' : ⌊x⌋ < n + 1 := by exact_mod_cast hlt
      omega
    · have hk : Rounding.down.round (k : Rat) = k := by
        rw [Rounding.round, Int.floor_intCast, Int.ceil_intCast, ite_self]
      have hlt : (k : Rat) < n + 1 := by linarith
      have hlt' : k < n + 1 := by exact_mod_cast hlt
      omega

/-- Away from zero is up for what is at least zero, or whole. -/
theorem Rounding.le_round_up_iff (x : Rat) :
    (∀ n : Int, |(n : Rat) - x| < 1 → n ≤ Rounding.up.round x) ↔ 0 ≤ x ∨ ∃ n : Int, x = n := by
  constructor
  · intro h
    by_cases hx : 0 ≤ x
    · exact .inl hx
    · have hceil : |(⌈x⌉ : Rat) - x| < 1 := by
        rw [abs_lt]
        constructor <;> linarith [Int.le_ceil x, Int.ceil_lt_add_one x]
      have hle := h ⌈x⌉ hceil
      rw [Rounding.round, if_neg hx] at hle
      exact .inr ⟨⌊x⌋, whole_of_ceil_le_floor hle⟩
  · intro h n hn
    obtain ⟨hlow, hhigh⟩ := abs_lt.mp hn
    rcases h with hx | ⟨k, rfl⟩
    · rw [Rounding.round, if_pos hx]
      have hlt : (n : Rat) < ⌈x⌉ + 1 := by linarith [Int.le_ceil x]
      have hlt' : n < ⌈x⌉ + 1 := by exact_mod_cast hlt
      omega
    · have hk : Rounding.up.round (k : Rat) = k := by
        rw [Rounding.round, Int.floor_intCast, Int.ceil_intCast, ite_self]
      have hlt : (n : Rat) < k + 1 := by linarith
      have hlt' : n < k + 1 := by exact_mod_cast hlt
      omega

namespace Decimal

/-- The number a decimal stands for. -/
def value (d : Decimal) : Rat := d.coeff * (10 : Rat) ^ d.exp

/-- `Decimal("0")`. -/
def zero : Decimal := ⟨0, 0⟩

/-- The coefficient of `d` at a smaller or equal exponent `e`. -/
def coeffAt (d : Decimal) (e : Int) : Int := d.coeff * 10 ^ (d.exp - e).toNat

def add (a b : Decimal) : Decimal :=
  let e := min a.exp b.exp
  ⟨a.coeffAt e + b.coeffAt e, e⟩

def neg (a : Decimal) : Decimal := ⟨-a.coeff, a.exp⟩

def sub (a b : Decimal) : Decimal := a.add b.neg

def mul (a b : Decimal) : Decimal := ⟨a.coeff * b.coeff, a.exp + b.exp⟩

/-- The larger of two, the first when they are one number. -/
def max (a b : Decimal) : Decimal := if a.value < b.value then b else a

/-- The smaller of two, the first when they are one number. -/
def min (a b : Decimal) : Decimal := if b.value < a.value then b else a

/-- `q` rounded to `places` decimal places. -/
def quantize (q : Rat) (places : Int) (mode : Rounding) : Decimal :=
  ⟨mode.round (q * (10 : Rat) ^ places), -places⟩

/-- Divide the trailing zeros out of the coefficient, `fuel` of them at most. -/
def stripZeros : Nat → Int → Int → Decimal
  | 0, c, e => ⟨c, e⟩
  | fuel + 1, c, e => if c % 10 = 0 then stripZeros fuel (c / 10) (e + 1) else ⟨c, e⟩

/-- The same number without trailing zeros; zero is `0`. -/
def normalize (d : Decimal) : Decimal :=
  if d.coeff = 0 then zero else stripZeros d.coeff.natAbs d.coeff d.exp

/-! ## Text -/

/-- The digits of a natural number, with zeros in front up to `width` of them. -/
def padDigits (n width : Nat) : List Char :=
  List.replicate (width - (Nat.toDigits 10 n).length) '0' ++ Nat.toDigits 10 n

/-- The digits of the absolute value, the point between them when there are places after it. -/
def fixedUnsigned (c : Nat) (e : Int) : List Char :=
  if 0 ≤ e then (if c = 0 then ['0'] else Nat.toDigits 10 c ++ List.replicate e.toNat '0')
  else
    let places := (-e).toNat
    let ds := padDigits c (places + 1)
    ds.take (ds.length - places) ++ '.' :: ds.drop (ds.length - places)

/-- The number in plain notation: every digit, and no exponent. -/
def fixed (d : Decimal) : String :=
  String.ofList (if d.coeff < 0 then '-' :: fixedUnsigned d.coeff.natAbs d.exp
    else fixedUnsigned d.coeff.natAbs d.exp)

/-- A non-empty run of digits. -/
def parseNat (cs : List Char) : Option Nat :=
  if cs ≠ [] ∧ cs.all Char.isDigit then some (Nat.ofDigitChars 10 cs 0) else none

/-- What may follow the digits: nothing, or `e` and a signed integer. -/
def parseExp : List Char → Option Int
  | [] => some 0
  | c :: cs =>
      if c = 'e' ∨ c = 'E' then
        match cs with
        | '-' :: ds => (parseNat ds).map fun n => -(n : Int)
        | '+' :: ds => (parseNat ds).map fun n => (n : Int)
        | ds => (parseNat ds).map fun n => (n : Int)
      else none

/-- Digits, a point and more digits, then an exponent; one digit at least. -/
def parseUnsigned (cs : List Char) : Option Decimal :=
  let whole := cs.takeWhile Char.isDigit
  let rest := cs.dropWhile Char.isDigit
  let (places, tail) := match rest with
    | '.' :: r => (r.takeWhile Char.isDigit, r.dropWhile Char.isDigit)
    | r => ([], r)
  if whole = [] ∧ places = [] then none
  else (parseExp tail).map fun e =>
    ⟨Nat.ofDigitChars 10 (whole ++ places) 0, e - places.length⟩

/-- Read a finite numeral. -/
def parseChars : List Char → Option Decimal
  | '-' :: cs => (parseUnsigned cs).map neg
  | '+' :: cs => parseUnsigned cs
  | cs => parseUnsigned cs

def parse (s : String) : Option Decimal := parseChars s.toList

/-! ## Exact arithmetic -/

theorem ten_zpow_pos (e : Int) : (0 : Rat) < (10 : Rat) ^ e := zpow_pos (by norm_num) e

theorem value_zero : zero.value = 0 := by simp [zero, value]

theorem value_coeffAt (d : Decimal) {e : Int} (h : e ≤ d.exp) :
    (d.coeffAt e : Rat) * (10 : Rat) ^ e = d.value := by
  have hk : d.exp = ((d.exp - e).toNat : Int) + e := by omega
  unfold coeffAt value
  conv_rhs => rw [hk, zpow_add₀ (by norm_num), zpow_natCast]
  push_cast
  ring

@[simp] theorem value_add (a b : Decimal) : (a.add b).value = a.value + b.value := by
  have ha := value_coeffAt a (min_le_left a.exp b.exp)
  have hb := value_coeffAt b (min_le_right a.exp b.exp)
  rw [← ha, ← hb]
  simp [add, value, add_mul]

@[simp] theorem value_neg (a : Decimal) : a.neg.value = -a.value := by
  simp [neg, value]

@[simp] theorem value_sub (a b : Decimal) : (a.sub b).value = a.value - b.value := by
  simp [sub, sub_eq_add_neg]

@[simp] theorem value_mul (a b : Decimal) : (a.mul b).value = a.value * b.value := by
  simp only [mul, value, Int.cast_mul, zpow_add₀ (show (10 : Rat) ≠ 0 by norm_num)]
  ring

theorem value_max (a b : Decimal) : (a.max b).value = Max.max a.value b.value := by
  unfold max
  split
  · rename_i h
    rw [max_eq_right h.le]
  · rename_i h
    rw [max_eq_left (not_lt.mp h)]

theorem value_min (a b : Decimal) : (a.min b).value = Min.min a.value b.value := by
  unfold min
  split
  · rename_i h
    rw [min_eq_right h.le]
  · rename_i h
    rw [min_eq_left (not_lt.mp h)]

/-! ## Rounding -/

/-- A number with `places` decimal places. -/
def OnGrid (places : Int) (q : Rat) : Prop := ∃ n : Int, q = n * (10 : Rat) ^ (-places)

theorem onGrid_quantize (q : Rat) (places : Int) (mode : Rounding) :
    OnGrid places (quantize q places mode).value :=
  ⟨mode.round (q * (10 : Rat) ^ places), rfl⟩

theorem scaled_back (q : Rat) (places : Int) :
    q * (10 : Rat) ^ places * (10 : Rat) ^ (-places) = q := by
  rw [mul_assoc, ← zpow_add₀ (by norm_num), add_neg_cancel, zpow_zero, mul_one]

theorem quantize_down_nonneg {q : Rat} (hq : 0 ≤ q) (places : Int) :
    0 ≤ (quantize q places .down).value := by
  have hs : 0 ≤ q * (10 : Rat) ^ places := mul_nonneg hq (ten_zpow_pos places).le
  have hf : (0 : Int) ≤ ⌊q * (10 : Rat) ^ places⌋ := Int.floor_nonneg.mpr hs
  simp only [quantize, Rounding.round, if_pos hs, value]
  exact mul_nonneg (by exact_mod_cast hf) (ten_zpow_pos _).le

theorem quantize_down_le {q : Rat} (hq : 0 ≤ q) (places : Int) :
    (quantize q places .down).value ≤ q := by
  have hs : 0 ≤ q * (10 : Rat) ^ places := mul_nonneg hq (ten_zpow_pos places).le
  simp only [quantize, Rounding.round, if_pos hs, value]
  calc (⌊q * (10 : Rat) ^ places⌋ : Rat) * (10 : Rat) ^ (-places)
      ≤ q * (10 : Rat) ^ places * (10 : Rat) ^ (-places) :=
        mul_le_mul_of_nonneg_right (Int.floor_le _) (ten_zpow_pos _).le
    _ = q := scaled_back q places

/-- The least number with `places` decimal places that is not below `q`. -/
def gridCeil (places : Int) (q : Rat) : Rat := (⌈q * (10 : Rat) ^ places⌉ : Rat) * (10 : Rat) ^ (-places)

theorem quantize_down_eq {q : Rat} (hq : 0 ≤ q) (places : Int) :
    (quantize q places .down).value = (⌊q * (10 : Rat) ^ places⌋ : Rat) * (10 : Rat) ^ (-places) := by
  have hround : Rounding.down.round (q * (10 : Rat) ^ places) = ⌊q * (10 : Rat) ^ places⌋ :=
    if_pos (mul_nonneg hq (ten_zpow_pos places).le)
  rw [← hround]
  rfl

/-- A number is reached after rounding down where the next grid point from it on is reached before. -/
theorem le_quantize_down_iff {q : Rat} (hq : 0 ≤ q) (places : Int) (least : Rat) :
    least ≤ (quantize q places .down).value ↔ gridCeil places least ≤ q := by
  have hunit : ∀ x y : Rat, x * (10 : Rat) ^ (-places) ≤ y * (10 : Rat) ^ (-places) ↔ x ≤ y :=
    fun x y => mul_le_mul_iff_left₀ (ten_zpow_pos (-places))
  -- Both sides say that the ceiling of one is at most the floor of the other, in units of the grid.
  have hleft : least ≤ (⌊q * (10 : Rat) ^ places⌋ : Rat) * (10 : Rat) ^ (-places) ↔
      ⌈least * (10 : Rat) ^ places⌉ ≤ ⌊q * (10 : Rat) ^ places⌋ := by
    rw [Int.ceil_le, ← hunit (least * (10 : Rat) ^ places), scaled_back]
  have hright : gridCeil places least ≤ q ↔
      ⌈least * (10 : Rat) ^ places⌉ ≤ ⌊q * (10 : Rat) ^ places⌋ := by
    rw [Int.le_floor, gridCeil, ← hunit _ (q * (10 : Rat) ^ places), scaled_back]
  rw [quantize_down_eq hq, hleft, hright]

theorem quantize_down_mono {a b : Rat} (ha : 0 ≤ a) (hab : a ≤ b) (places : Int) :
    (quantize a places .down).value ≤ (quantize b places .down).value := by
  rw [quantize_down_eq ha, quantize_down_eq (ha.trans hab)]
  have hscaled : a * (10 : Rat) ^ places ≤ b * (10 : Rat) ^ places :=
    mul_le_mul_of_nonneg_right hab (ten_zpow_pos places).le
  have hfloor : (⌊a * (10 : Rat) ^ places⌋ : Rat) ≤ ⌊b * (10 : Rat) ^ places⌋ := by
    exact_mod_cast Int.floor_le_floor hscaled
  exact mul_le_mul_of_nonneg_right hfloor (ten_zpow_pos _).le

/-- Rounding down leaves less than one unit. -/
theorem sub_quantize_down_lt {q : Rat} (hq : 0 ≤ q) (places : Int) :
    q - (quantize q places .down).value < (10 : Rat) ^ (-places) := by
  have hunit := ten_zpow_pos (-places)
  have hlt := mul_lt_mul_of_pos_right (Int.lt_floor_add_one (q * (10 : Rat) ^ places)) hunit
  rw [scaled_back, add_mul, one_mul] at hlt
  rw [quantize_down_eq hq]
  linarith

theorem quantize_down_nonpos {q : Rat} (hq : q ≤ 0) (places : Int) :
    (quantize q places .down).value ≤ 0 := by
  have hs : q * (10 : Rat) ^ places ≤ 0 := mul_nonpos_of_nonpos_of_nonneg hq (ten_zpow_pos places).le
  have hr : Rounding.down.round (q * (10 : Rat) ^ places) ≤ 0 := by
    simp only [Rounding.round]
    split
    · exact Int.floor_nonpos hs
    · exact Int.ceil_nonpos.mpr hs
  exact mul_nonpos_of_nonpos_of_nonneg (by exact_mod_cast hr) (ten_zpow_pos _).le

/-! ## Reading back -/

theorem value_stripZeros (fuel : Nat) (c e : Int) :
    (stripZeros fuel c e).value = (⟨c, e⟩ : Decimal).value := by
  induction fuel generalizing c e with
  | zero => rfl
  | succ fuel ih =>
    unfold stripZeros
    split
    · rename_i h
      rw [ih]
      have hc : c = c / 10 * 10 := by omega
      conv_rhs => rw [hc]
      simp only [value, zpow_add₀ (show (10 : Rat) ≠ 0 by norm_num), zpow_one, Int.cast_mul]
      push_cast
      ring
    · rfl

@[simp] theorem value_normalize (d : Decimal) : d.normalize.value = d.value := by
  unfold normalize
  split
  · rename_i h
    simp [value, h, zero]
  · exact value_stripZeros _ _ _

theorem all_isDigit_toDigits (n : Nat) : (Nat.toDigits 10 n).all Char.isDigit = true :=
  List.all_eq_true.mpr fun _ hc => Nat.isDigit_of_mem_toDigits (by decide) (by decide) hc

theorem all_isDigit_padDigits (n width : Nat) : (padDigits n width).all Char.isDigit = true := by
  rw [padDigits, List.all_append, all_isDigit_toDigits, Bool.and_true, List.all_eq_true]
  intro c hc
  rw [(List.mem_replicate.mp hc).2]
  decide

theorem ofDigitChars_padDigits (n width : Nat) :
    Nat.ofDigitChars 10 (padDigits n width) 0 = n := by
  simp [padDigits, Nat.ofDigitChars_append]

theorem length_padDigits (n width : Nat) : width ≤ (padDigits n width).length := by
  simp only [padDigits, List.length_append, List.length_replicate]
  omega

theorem takeWhile_digits {ds : List Char} (h : ds.all Char.isDigit = true) (rest : List Char)
    (hr : ∀ c ∈ rest.head?, c.isDigit = false) :
    (ds ++ rest).takeWhile Char.isDigit = ds ∧ (ds ++ rest).dropWhile Char.isDigit = rest := by
  induction ds with
  | nil =>
    cases rest with
    | nil => exact ⟨rfl, rfl⟩
    | cons c cs =>
      have hc : c.isDigit = false := hr c rfl
      simp [hc]
  | cons d ds ih =>
    rw [List.all_cons, Bool.and_eq_true] at h
    obtain ⟨h1, h2⟩ := ih h.2
    simp only [List.cons_append, List.takeWhile_cons, List.dropWhile_cons, h.1, if_true]
    exact ⟨by rw [h1], h2⟩

/-- Digits alone read as an integer. -/
theorem parseUnsigned_digits {ds : List Char} (h : ds.all Char.isDigit = true) (hne : ds ≠ []) :
    parseUnsigned ds = some ⟨Nat.ofDigitChars 10 ds 0, 0⟩ := by
  obtain ⟨h1, h2⟩ := takeWhile_digits h [] (by simp)
  rw [List.append_nil] at h1 h2
  simp [parseUnsigned, h1, h2, hne, parseExp]

/-- Digits with a point between them. -/
theorem parseUnsigned_point {ds fs : List Char} (hd : ds.all Char.isDigit = true)
    (hf : fs.all Char.isDigit = true) (hne : ds ≠ []) :
    parseUnsigned (ds ++ '.' :: fs) =
      some ⟨Nat.ofDigitChars 10 (ds ++ fs) 0, -(fs.length : Int)⟩ := by
  obtain ⟨h1, h2⟩ := takeWhile_digits hd ('.' :: fs) (by
    intro c hc
    simp only [List.head?_cons, Option.mem_def, Option.some.injEq] at hc
    subst hc
    decide)
  obtain ⟨h3, h4⟩ := takeWhile_digits hf [] (by simp)
  rw [List.append_nil] at h3 h4
  simp [parseUnsigned, h1, h2, h3, h4, hne, parseExp]

theorem parseUnsigned_fixed (c : Nat) (e : Int) :
    ∃ d, parseUnsigned (fixedUnsigned c e) = some d ∧ d.value = (⟨c, e⟩ : Decimal).value ∧
      ∀ x ∈ (fixedUnsigned c e).head?, x.isDigit = true := by
  unfold fixedUnsigned
  by_cases he : 0 ≤ e
  · rw [if_pos he]
    by_cases hc : c = 0
    · rw [if_pos hc]
      have h0 : Nat.ofDigitChars 10 ['0'] 0 = 0 := by decide
      refine ⟨_, parseUnsigned_digits (by decide) (by simp), by simp [value, hc, h0], ?_⟩
      intro x hx
      cases hx
      decide
    · rw [if_neg hc]
      have hall : (Nat.toDigits 10 c ++ List.replicate e.toNat '0').all Char.isDigit = true := by
        rw [List.all_append, all_isDigit_toDigits, Bool.true_and, List.all_eq_true]
        intro x hx
        rw [(List.mem_replicate.mp hx).2]
        decide
      refine ⟨_, parseUnsigned_digits hall (by simp [Nat.toDigits_ne_nil]), ?_, ?_⟩
      · have hz : (10 : Rat) ^ e = (10 : Rat) ^ e.toNat := by
          conv_lhs => rw [← Int.toNat_of_nonneg he, zpow_natCast]
        simp only [Nat.ofDigitChars_append, Nat.ofDigitChars_ten_toDigits,
          Nat.ofDigitChars_replicate_zero, value, hz]
        push_cast
        ring
      · intro x hx
        exact List.all_eq_true.mp hall x (List.mem_of_mem_head? hx)
  · rw [if_neg he]
    dsimp only
    have hall := all_isDigit_padDigits c ((-e).toNat + 1)
    have hlen := length_padDigits c ((-e).toNat + 1)
    have hval := ofDigitChars_padDigits c ((-e).toNat + 1)
    generalize padDigits c ((-e).toNat + 1) = ds at hall hlen hval ⊢
    have htake : (ds.take (ds.length - (-e).toNat)).all Char.isDigit = true :=
      List.all_eq_true.mpr fun x hx => List.all_eq_true.mp hall x (List.mem_of_mem_take hx)
    have hdrop : (ds.drop (ds.length - (-e).toNat)).all Char.isDigit = true :=
      List.all_eq_true.mpr fun x hx => List.all_eq_true.mp hall x (List.mem_of_mem_drop hx)
    have hne : ds.take (ds.length - (-e).toNat) ≠ [] := by
      intro h
      have := congrArg List.length h
      simp only [List.length_take, List.length_nil] at this
      omega
    refine ⟨_, parseUnsigned_point htake hdrop hne, ?_, ?_⟩
    · have hfl : -((ds.drop (ds.length - (-e).toNat)).length : Int) = e := by
        rw [List.length_drop]
        omega
      rw [hfl, List.take_append_drop, hval]
    · intro x hx
      rw [List.head?_append_of_ne_nil _ hne] at hx
      exact List.all_eq_true.mp htake x (List.mem_of_mem_head? hx)

/-- Reading what `fixed` wrote gives the same number. -/
theorem parse_fixed (d : Decimal) : ∃ d', parse d.fixed = some d' ∧ d'.value = d.value := by
  obtain ⟨u, hu, hv, hh⟩ := parseUnsigned_fixed d.coeff.natAbs d.exp
  unfold parse fixed
  rw [String.toList_ofList]
  by_cases hc : d.coeff < 0
  · rw [if_pos hc]
    refine ⟨u.neg, by simp [parseChars, hu], ?_⟩
    have habs : ((d.coeff.natAbs : Int) : Rat) = -(d.coeff : Rat) := by
      have : (d.coeff.natAbs : Int) = -d.coeff := by omega
      rw [this, Int.cast_neg]
    rw [value_neg, hv, value, value, habs]
    ring
  · rw [if_neg hc]
    refine ⟨u, ?_, ?_⟩
    · rw [← hu]
      cases hf : fixedUnsigned d.coeff.natAbs d.exp with
      | nil => rfl
      | cons x xs =>
        have hx := hh x (by simp [hf])
        unfold parseChars
        split
        · rename_i h
          injection h with h1 h2
          subst h1
          simp at hx
        · rename_i h
          injection h with h1 h2
          subst h1
          simp at hx
        · rfl
    · have habs : (d.coeff.natAbs : Int) = d.coeff := by omega
      rw [hv, habs]

end Decimal

end Coinpilot.Lib
