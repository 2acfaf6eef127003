import Coinpilot.Lib.Decimal
import Mathlib.Data.List.Lookmap

/-!
# JSON values as Python reads them

An answer of Kraken is any JSON value. `Json` keeps what the client can see of one: a float by its
`repr`, an object by its fields in order. `pyStr` is `str(x)`, `truthy` is `bool(x)`, and reading a
field of something that is not an object raises, as `.get` does on anything but a `dict`.

`PyDecimal` is what `Decimal(text)` can give: a finite decimal, an infinity or a NaN.
-/

set_option autoImplicit false

namespace Coinpilot.Exchange

open Coinpilot.Lib

/-- The exceptions of the language and its decimal library that the code can meet. -/
inductive PyError where
  | attributeError
  | keyError
  | typeError
  | valueError
  | invalidOperation
  | divisionByZero
  | overflowError
  deriving DecidableEq, Repr

/-- A JSON value. -/
inductive Json where
  | null
  | bool (b : Bool)
  | int (n : Int)
  | float (repr : String)
  | str (s : String)
  | arr (items : List Json)
  | obj (fields : List (String × Json))

namespace Json

/-- `repr` of a string without control characters. -/
def reprStr (s : String) : String :=
  let q := if s.toList.contains '\'' && !s.toList.contains '"' then '"' else '\''
  String.ofList (q :: s.toList.flatMap (fun c =>
    if c = q ∨ c = '\\' then ['\\', c] else [c]) ++ [q])

mutual

/-- `repr(x)`. -/
def pyRepr : Json → String
  | .null => "None"
  | .bool b => if b then "True" else "False"
  | .int n => toString n
  | .float r => r
  | .str s => reprStr s
  | .arr items => "[" ++ ", ".intercalate (pyReprItems items) ++ "]"
  | .obj fields => "\x7b" ++ ", ".intercalate (pyReprFields fields) ++ "\x7d"

def pyReprItems : List Json → List String
  | [] => []
  | j :: rest => pyRepr j :: pyReprItems rest

def pyReprFields : List (String × Json) → List String
  | [] => []
  | (k, j) :: rest => (reprStr k ++ ": " ++ pyRepr j) :: pyReprFields rest

end

/-- `str(x)`. -/
def pyStr : Json → String
  | .str s => s
  | .null => "None"
  | .bool b => if b then "True" else "False"
  | .int n => toString n
  | .float r => r
  | j => pyRepr j

/-- `bool(x)`. -/
def truthy : Json → Bool
  | .null => false
  | .bool b => b
  | .int n => n ≠ 0
  | .float r => r ≠ "0.0" ∧ r ≠ "-0.0"
  | .str s => s ≠ ""
  | .arr items => !items.isEmpty
  | .obj fields => !fields.isEmpty

/-- `None` where Python reads a `null`. -/
def notNone : Json → Option Json
  | .null => none
  | j => some j

theorem notNone_eq_some {j k : Json} : j.notNone = some k ↔ j = k ∧ k ≠ .null := by
  constructor
  · intro h
    cases j with
    | null => cases h
    | _ =>
      obtain rfl := Option.some.inj h
      exact ⟨rfl, by simp⟩
  · rintro ⟨rfl, hne⟩
    cases j with
    | null => exact absurd rfl hne
    | _ => rfl

/-- `isinstance(x, dict)`. -/
def isObject : Json → Bool
  | .obj _ => true
  | _ => false

/-- `x.get(key)`, which only an object has. -/
def get (j : Json) (key : String) : Except PyError (Option Json) :=
  match j with
  | .obj fields => .ok (fields.lookup key)
  | _ => .error .attributeError

/-- `x.items()`. -/
def items (j : Json) : Except PyError (List (String × Json)) :=
  match j with
  | .obj fields => .ok fields
  | _ => .error .attributeError

/-- What a `for` over `x` goes through. -/
def iterate : Json → Except PyError (List Json)
  | .arr items => .ok items
  | .str s => .ok (s.toList.map fun c => .str (String.singleton c))
  | .obj fields => .ok (fields.map fun e => .str e.1)
  | _ => .error .typeError

mutual

/-- The same value. -/
def same : Json → Json → Bool
  | .null, .null => true
  | .bool a, .bool b => a = b
  | .int a, .int b => a = b
  | .float a, .float b => a = b
  | .str a, .str b => a = b
  | .arr xs, .arr ys => sameItems xs ys
  | .obj xs, .obj ys => sameFields xs ys
  | _, _ => false

def sameItems : List Json → List Json → Bool
  | [], [] => true
  | x :: xs, y :: ys => same x y && sameItems xs ys
  | _, _ => false

def sameFields : List (String × Json) → List (String × Json) → Bool
  | [], [] => true
  | (k, x) :: xs, (l, y) :: ys => k = l && same x y && sameFields xs ys
  | _, _ => false

end

mutual

theorem eq_of_same {a b : Json} (h : same a b = true) : a = b := by
  cases a with
  | null => cases b <;> first | rfl | cases h
  | bool p => cases b <;> first | (simp [same] at h; rw [h]) | cases h
  | int p => cases b <;> first | (simp [same] at h; rw [h]) | cases h
  | float p => cases b <;> first | (simp [same] at h; rw [h]) | cases h
  | str p => cases b <;> first | (simp [same] at h; rw [h]) | cases h
  | arr xs =>
    cases b with
    | arr ys =>
      rw [same] at h
      rw [eq_of_sameItems h]
    | _ => cases h
  | obj xs =>
    cases b with
    | obj ys =>
      rw [same] at h
      rw [eq_of_sameFields h]
    | _ => cases h

theorem eq_of_sameItems {xs ys : List Json} (h : sameItems xs ys = true) : xs = ys := by
  cases xs with
  | nil => cases ys <;> first | rfl | cases h
  | cons x xs =>
    cases ys with
    | nil => cases h
    | cons y ys =>
      rw [sameItems, Bool.and_eq_true] at h
      rw [eq_of_same h.1, eq_of_sameItems h.2]

theorem eq_of_sameFields {xs ys : List (String × Json)} (h : sameFields xs ys = true) : xs = ys := by
  cases xs with
  | nil => cases ys <;> first | rfl | cases h
  | cons x xs =>
    cases ys with
    | nil => cases h
    | cons y ys =>
      obtain ⟨k, x⟩ := x
      obtain ⟨l, y⟩ := y
      rw [sameFields, Bool.and_eq_true, Bool.and_eq_true, decide_eq_true_eq] at h
      rw [h.1.1, eq_of_same h.1.2, eq_of_sameFields h.2]

end
end Json

/-- `text.startswith(start)`. -/
def startsWith (text start : String) : Bool := start.toList.isPrefixOf text.toList

/-- What `Decimal(text)` can be. -/
inductive PyDecimal where
  | finite (d : Decimal)
  | infinite (negative : Bool)
  | nan
  deriving DecidableEq, Repr

namespace PyDecimal

/-- The words for an infinity and for a NaN, in lower case and without a sign. -/
def parseWord (negative : Bool) (w : String) : Option PyDecimal :=
  if w = "inf" ∨ w = "infinity" then some (.infinite negative)
  else if w = "nan" ∨ w = "snan" then some .nan
  else none

/-- `Decimal(text)`, or `none` where it raises `InvalidOperation`. Blanks around the text and
underscores in it are allowed. -/
def parse (s : String) : Option PyDecimal :=
  let cs := ((s.toList.dropWhile Char.isWhitespace).reverse.dropWhile Char.isWhitespace).reverse
  let cs := cs.filter (· ≠ '_')
  match Decimal.parseChars cs with
  | some d => some (.finite d)
  | none =>
      match cs.map Char.toLower with
      | '-' :: w => parseWord true (String.ofList w)
      | '+' :: w => parseWord false (String.ofList w)
      | w => parseWord false (String.ofList w)

/-- `x > Decimal("0")`, which raises on a NaN. -/
def gtZero : PyDecimal → Except PyError Bool
  | .finite d => .ok (decide (0 < d.value))
  | .infinite negative => .ok (!negative)
  | .nan => .error .invalidOperation

end PyDecimal

end Coinpilot.Exchange
