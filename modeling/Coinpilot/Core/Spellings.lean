import Coinpilot.Core.Balances
import Mathlib.Data.List.TakeWhile

/-!
# The names of an asset

An asset list gives every asset an internal and a short name. Where no name is another asset's, whatever
the case, and none has blanks around it (`Distinct`), the searches of the list agree: a spelling names one
asset (`shortName_eq`), the short name leads back to it (`krakenKey_rowCode`), and so do the balance keys
that are counted under it (`placeOf_held_iff`).
-/

set_option autoImplicit false

namespace Coinpilot.Core

open Coinpilot.Lib Coinpilot.Exchange

/-! ## Case and blanks -/

/-- Only the small letters change, by 32. -/
theorem toUpper_cases (c : Char) : c.toUpper = c ∨
    97 ≤ c.toNat ∧ c.toNat ≤ 122 ∧ c.toUpper.toNat = c.toNat - 32 := by
  by_cases h : 'a'.val ≤ c.val ∧ c.val ≤ 'z'.val
  · have hlow : 97 ≤ c.val.toNat := h.1
    have hhigh : c.val.toNat ≤ 122 := h.2
    have hstep : ('A'.val - 'a'.val).toNat = 4294967264 := rfl
    obtain ⟨hvalid, hupper⟩ : ∃ hvalid, c.toUpper = ⟨c.val + ('A'.val - 'a'.val), hvalid⟩ :=
      ⟨_, dif_pos h⟩
    refine Or.inr ⟨hlow, hhigh, ?_⟩
    rw [hupper]
    change (c.val + ('A'.val - 'a'.val)).toNat = c.val.toNat - 32
    rw [UInt32.toNat_add, hstep]
    omega
  · exact Or.inl (dif_neg h)

theorem toUpper_toUpper (c : Char) : c.toUpper.toUpper = c.toUpper := by
  rcases toUpper_cases c with h | ⟨-, hhigh, hupper⟩
  · rw [h, h]
  · rcases toUpper_cases c.toUpper with h | ⟨hlow, -, -⟩
    · exact h
    · omega

theorem isWhitespace_iff (c : Char) :
    c.isWhitespace = true ↔ c.toNat = 32 ∨ c.toNat = 9 ∨ c.toNat = 13 ∨ c.toNat = 10 := by
  have hcode : ∀ d : Char, c = d ↔ c.toNat = d.toNat := fun d => Char.toNat_inj.symm
  simp [Char.isWhitespace, hcode, or_assoc]

/-- A blank has no other case, and no letter becomes one. -/
theorem isWhitespace_toUpper (c : Char) : c.toUpper.isWhitespace = c.isWhitespace := by
  rw [Bool.eq_iff_iff, isWhitespace_iff, isWhitespace_iff]
  rcases toUpper_cases c with h | ⟨hlow, hhigh, hupper⟩
  · rw [h]
  · omega

theorem upper_upper (s : String) : upper (upper s) = upper s := by
  rw [upper, upper, String.toList_ofList, List.map_map]
  congr 1
  refine List.map_congr_left ?_
  intro c _
  exact toUpper_toUpper c

theorem strip_upper (s : String) : strip (upper s) = upper (strip s) := by
  have hblank : Char.isWhitespace ∘ Char.toUpper = Char.isWhitespace := funext isWhitespace_toUpper
  rw [strip, upper, upper, strip, String.toList_ofList, String.toList_ofList, List.dropWhile_map, hblank,
    ← List.map_reverse, List.dropWhile_map, hblank, ← List.map_reverse]

theorem upper_eq_empty {s : String} : upper s = "" ↔ s = "" := by
  constructor
  · intro h
    have hlist := congrArg String.toList h
    rw [upper, String.toList_ofList] at hlist
    exact String.toList_inj.mp (List.map_eq_nil_iff.mp hlist)
  · rintro rfl
    rfl

/-! ## Lists of assets -/

/-- The code under which an asset is stored. -/
def rowCode (A : String × String) : String := upper A.2

/-- Either name of the asset, in any case and with blanks around it. -/
def Spells (spelling : String) (A : String × String) : Prop :=
  upper (strip spelling) = upper A.1 ∨ upper (strip spelling) = upper A.2

instance (spelling : String) (A : String × String) : Decidable (Spells spelling A) :=
  inferInstanceAs (Decidable (_ ∨ _))

/-- A name that is there, without blanks around it. -/
structure Plain (name : String) : Prop where
  stripped : strip name = name
  nonempty : name ≠ ""

instance (name : String) : Decidable (Plain name) :=
  decidable_of_iff (strip name = name ∧ name ≠ "")
    ⟨fun h => ⟨h.1, h.2⟩, fun h => ⟨h.stripped, h.nonempty⟩⟩

/-- No short name is another asset's name, whatever the case. -/
structure Separate (names : Dict String String) : Prop where
  shorts : ∀ A ∈ names.entries, ∀ B ∈ names.entries, upper A.2 = upper B.2 → A = B
  apart : ∀ A ∈ names.entries, ∀ B ∈ names.entries, upper A.1 = upper B.2 → A = B

/-- Nor is an internal name, and every name is plain. -/
structure Distinct (names : Dict String String) : Prop extends Separate names where
  internals : ∀ A ∈ names.entries, ∀ B ∈ names.entries, upper A.1 = upper B.1 → A = B
  plain : ∀ A ∈ names.entries, Plain A.1 ∧ Plain A.2

theorem Plain.spells {name : String} (h : Plain name) {A : String × String}
    (hname : name = A.1 ∨ name = A.2) : Spells name A := by
  rw [Spells, h.stripped]
  exact hname.imp (congrArg upper) (congrArg upper)

section Listed

variable {names : Dict String String} (h : Distinct names) {A B : String × String} (hA : A ∈ names.entries)
  (hB : B ∈ names.entries)

include h hA

theorem Distinct.rowCode_ne : rowCode A ≠ "" := fun hempty =>
  (h.plain A hA).2.nonempty (upper_eq_empty.mp hempty)

theorem Distinct.strip_rowCode : upper (strip (rowCode A)) = rowCode A := by
  rw [rowCode, strip_upper, (h.plain A hA).2.stripped, upper_upper]

theorem Distinct.spelled_ne {spelling : String} (hs : Spells spelling A) : upper (strip spelling) ≠ "" := by
  rcases hs with hs | hs
  · rw [hs, ne_eq, upper_eq_empty]
    exact (h.plain A hA).1.nonempty
  · rw [hs]
    exact h.rowCode_ne hA

/-- The short name leads back to the asset. -/
theorem krakenKey_rowCode : krakenKey (rowCode A) names = some A.1 := by
  have hfind : names.entries.find? (fun e => upper e.2 = rowCode A) = some A := by
    refine find?_eq_some_of_unique hA (decide_eq_true rfl) ?_
    intro B hB hsame
    exact h.shorts B hB A hA (of_decide_eq_true hsame)
  simp only [krakenKey, h.strip_rowCode hA, hfind]
  rfl

include hB

theorem Distinct.spells_unique {spelling : String} (hsA : Spells spelling A)
    (hsB : Spells spelling B) : A = B := by
  rcases hsA with hsA | hsA
  · rcases hsB with hsB | hsB
    · exact h.internals A hA B hB (hsA.symm.trans hsB)
    · exact h.apart A hA B hB (hsA.symm.trans hsB)
  · rcases hsB with hsB | hsB
    · exact (h.apart B hB A hA (hsB.symm.trans hsA)).symm
    · exact h.shorts A hA B hB (hsA.symm.trans hsB)

end Listed

/-- A spelling of a listed asset has its short name, and no other text has any. -/
theorem shortName_eq {names : Dict String String} (h : Distinct names) {spelling code : String} :
    shortName spelling names = some code ↔
      ∃ A ∈ names.entries, Spells spelling A ∧ code = rowCode A := by
  rw [shortName]
  constructor
  · intro hcode
    split at hcode
    · cases hcode
    · obtain ⟨A, hfind, rfl⟩ := Option.map_eq_some_iff.mp hcode
      have hs := List.find?_some hfind
      exact ⟨A, List.mem_of_find?_eq_some hfind, of_decide_eq_true hs, rfl⟩
  · rintro ⟨A, hA, hs, rfl⟩
    have hfind : names.entries.find? (fun e =>
        upper (strip spelling) = upper e.1 ∨ upper (strip spelling) = upper e.2) = some A := by
      refine find?_eq_some_of_unique hA (decide_eq_true hs) ?_
      intro B hB hsB
      exact h.spells_unique hB hA (of_decide_eq_true hsB) hs
    rw [if_neg (h.spelled_ne hA hs), hfind]
    rfl

theorem krakenKey_some {names : Dict String String} {short internal : String}
    (h : krakenKey short names = some internal) :
    ∃ A ∈ names.entries, A.1 = internal ∧ upper A.2 = upper (strip short) := by
  obtain ⟨A, hfind, hname⟩ := Option.map_eq_some_iff.mp h
  have hshort := List.find?_some hfind
  exact ⟨A, List.mem_of_find?_eq_some hfind, hname, of_decide_eq_true hshort⟩

/-! ## Pairs -/

/-- A pair that trades one internal name against the fiat with a market order: it is listed under its
name, takes market orders, and is no dark pool. -/
structure Trades (names : Dict String String) (pairs : Dict String PairMeta) (fiat base : String)
    (pair : PairMeta) : Prop where
  listed : ∃ name, (name, pair) ∈ pairs.entries ∧ DARK_POOL_SUFFIX.toList.isSuffixOf name.toList = false
  base_eq : pair.base = base
  quote_eq : ∃ F ∈ names.entries, upper F.2 = upper (strip fiat) ∧ pair.quote = F.1
  tradable : pair.tradable = true

theorem resolvePair_trades {names : Dict String String} (h : Distinct names) {A : String × String}
    (hA : A ∈ names.entries) {pairs : Dict String PairMeta} {fiat : String} {pair : PairMeta}
    (hpair : resolvePair (rowCode A) fiat names pairs = some pair) : Trades names pairs fiat A.1 pair := by
  rw [resolvePair, krakenKey_rowCode h hA] at hpair
  cases hquote : krakenKey fiat names with
  | none =>
    rw [hquote] at hpair
    cases hpair
  | some quote =>
    obtain ⟨F, hF, rfl, hfiat⟩ := krakenKey_some hquote
    rw [hquote] at hpair
    change (if A.1 = F.1 then none else _) = some pair at hpair
    split at hpair
    · cases hpair
    · obtain ⟨⟨name, found⟩, hfind, rfl⟩ := Option.map_eq_some_iff.mp hpair
      have hmem := (List.perm_insertionSort _ _).mem_iff.mp (List.mem_of_find?_eq_some hfind)
      have hgood := List.find?_some hfind
      simp only [Bool.and_eq_true, Bool.not_eq_true', decide_eq_true_eq] at hgood
      obtain ⟨⟨⟨hdark, hbase⟩, hquote⟩, htradable⟩ := hgood
      exact ⟨⟨name, hmem, hdark⟩, hbase, ⟨F, hF, hfiat, hquote⟩, htradable⟩

/-! ## Balance keys -/

/-- The part of a balance key before its first dot. -/
def beforeDot (key : String) : String := String.ofList (key.toList.takeWhile (· ≠ '.'))

/-- The part after it. -/
def afterDot (key : String) : String := String.ofList ((key.toList.dropWhile (· ≠ '.')).drop 1)

/-- A balance key of the asset that can be traded: a spelling of it, as it is or in rewards. -/
def CountsFor (A : String × String) (key : String) : Prop :=
  Spells (beforeDot key) A ∧ afterDot key ∈ TRADABLE_SUFFIXES

instance (A : String × String) (key : String) : Decidable (CountsFor A key) :=
  inferInstanceAs (Decidable (_ ∧ _))

theorem splitBalanceKey_eq (key : String) (names : Dict String String) :
    splitBalanceKey key names =
      (if (shortName (beforeDot key) names).getD "" = "" then upper (beforeDot key)
        else (shortName (beforeDot key) names).getD "", afterDot key) := by
  rw [splitBalanceKey, beforeDot, afterDot]

theorem splitBalanceKey_rowCode {names : Dict String String} (h : Distinct names) {A : String × String}
    (hA : A ∈ names.entries) (key : String) :
    (splitBalanceKey key names).1 = rowCode A ↔ Spells (beforeDot key) A := by
  rw [splitBalanceKey_eq]
  dsimp only
  cases hshort : shortName (beforeDot key) names with
  | none =>
    rw [Option.getD_none, if_pos rfl]
    -- what no search finds is not the code either
    have hnot : ¬Spells (beforeDot key) A := by
      intro hs
      rw [(shortName_eq h).mpr ⟨A, hA, hs, rfl⟩] at hshort
      cases hshort
    refine iff_of_false (fun hcode => hnot (Or.inr ?_)) hnot
    rw [← strip_upper, hcode, rowCode, strip_upper, (h.plain A hA).2.stripped]
  | some code =>
    obtain ⟨B, hB, hsB, rfl⟩ := (shortName_eq h).mp hshort
    rw [Option.getD_some, if_neg (h.rowCode_ne hB)]
    constructor
    · intro hcode
      exact h.shorts B hB A hA hcode ▸ hsB
    · intro hs
      rw [h.spells_unique hA hB hs hsB]

/-- What is counted under the code of an asset is what its balance keys hold. -/
theorem placeOf_held_iff {names : Dict String String} (h : Distinct names) {A : String × String}
    (hA : A ∈ names.entries) {fiat : String} (hfiat : rowCode A ≠ fiat) (key : String) :
    placeOf names fiat key = .held (rowCode A) ↔ CountsFor A key := by
  rw [CountsFor, ← splitBalanceKey_rowCode h hA]
  have hsuffix : (splitBalanceKey key names).2 = afterDot key := by rw [splitBalanceKey_eq]
  by_cases htradable : afterDot key ∈ TRADABLE_SUFFIXES
  · rw [placeOf_tradable fiat (hsuffix ▸ htradable)]
    by_cases hcash : (splitBalanceKey key names).1 = fiat
    · rw [if_pos hcash, hcash]
      exact iff_of_false (fun heq => by cases heq) fun heq => hfiat heq.1.symm
    · rw [if_neg hcash, Place.held.injEq]
      exact (and_iff_left htradable).symm
  · rw [placeOf_locked fiat (hsuffix ▸ htradable)]
    exact iff_of_false (fun heq => by cases heq) fun heq => htradable heq.2

/-- The keys of an asset in a balance: either name, as it is or in rewards. -/
def balanceKeys (A : String × String) : List String := [A.1, A.2, A.1 ++ ".F", A.2 ++ ".F"]

theorem dot_split {name : String} (h : '.' ∉ name.toList) :
    (beforeDot name = name ∧ afterDot name = "") ∧
      beforeDot (name ++ ".F") = name ∧ afterDot (name ++ ".F") = "F" := by
  have hall : ∀ c ∈ name.toList, decide (c ≠ '.') = true := by
    intro c hc
    exact decide_eq_true fun heq => h (heq ▸ hc)
  have hrewards : (name ++ ".F").toList = name.toList ++ ['.', 'F'] := String.toList_append
  rw [beforeDot, afterDot, beforeDot, afterDot, hrewards, List.takeWhile_append_of_pos hall,
    List.dropWhile_append_of_pos hall, List.takeWhile_eq_self_iff.mpr hall,
    List.dropWhile_eq_nil_iff.mpr hall]
  simp

/-- Where a name has no dot, its keys are counted. -/
theorem countsFor_balanceKeys {names : Dict String String} (h : Distinct names) {A : String × String}
    (hA : A ∈ names.entries) (hdots : '.' ∉ A.1.toList ∧ '.' ∉ A.2.toList) :
    ∀ key ∈ balanceKeys A, CountsFor A key := by
  have hkeys : ∀ name, name = A.1 ∨ name = A.2 → CountsFor A name ∧ CountsFor A (name ++ ".F") := by
    intro name hname
    have hfacts : Plain name ∧ '.' ∉ name.toList := by
      rcases hname with rfl | rfl
      · exact ⟨(h.plain A hA).1, hdots.1⟩
      · exact ⟨(h.plain A hA).2, hdots.2⟩
    obtain ⟨hplain, hdot⟩ := hfacts
    obtain ⟨⟨hbefore, hafter⟩, hbefore', hafter'⟩ := dot_split hdot
    rw [CountsFor, CountsFor, hbefore, hafter, hbefore', hafter']
    exact ⟨⟨hplain.spells hname, by decide⟩, hplain.spells hname, by decide⟩
  intro key hkey
  simp only [balanceKeys, List.mem_cons, List.not_mem_nil, or_false] at hkey
  rcases hkey with rfl | rfl | rfl | rfl
  · exact (hkeys A.1 (Or.inl rfl)).1
  · exact (hkeys A.2 (Or.inr rfl)).1
  · exact (hkeys A.1 (Or.inl rfl)).2
  · exact (hkeys A.2 (Or.inr rfl)).2

end Coinpilot.Core
