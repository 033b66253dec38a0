import Mathlib.Data.Rat.Defs
import Mathlib.Algebra.Order.Field.Rat
import Mathlib.Algebra.Order.Ring.Cast
import Mathlib.Data.Int.Cast.Lemmas
import Mathlib.Tactic.Ring

/-!
# JSON values

Numbers keep their token (sign, integer part, fraction digits, exponent part), so that nothing is
lost before a reader decides how to interpret them; `JsonNumber.value` is the exact rational the
token denotes.
-/

/-- One digit or more. -/
abbrev Digits := {ds : List (Fin 10) // ds ≠ []}

/-- The exponent part of a number token; `some true` is a minus sign. -/
structure JsonExponent where
  upper : Bool
  sign : Option Bool
  digits : Digits
  deriving DecidableEq

/-- A number token. The integer part has no leading zero, so its value determines its digits. -/
structure JsonNumber where
  neg : Bool
  int : ℕ
  frac : Option Digits
  exp : Option JsonExponent
  deriving DecidableEq

/-- A JSON value; objects keep the order of their members. -/
inductive Json
  | null
  | bool (b : Bool)
  | num (n : JsonNumber)
  | str (s : String)
  | arr (elems : List Json)
  | obj (members : List (String × Json))

namespace JsonNumber

/-- The number a digit list denotes. -/
def digitsValue (ds : List (Fin 10)) : ℕ := ds.foldl (fun n d => 10 * n + d.val) 0

/-- The exponent a token denotes. -/
def expValue : Option JsonExponent → ℤ
  | none => 0
  | some e => if e.sign = some true then -(digitsValue e.digits.1 : ℤ) else digitsValue e.digits.1

/-- The exact value of a token. -/
def value (n : JsonNumber) : ℚ :=
  let frac := (n.frac.map (·.1)).getD []
  let m : ℚ := n.int + digitsValue frac / 10 ^ frac.length
  (if n.neg then -m else m) * 10 ^ expValue n.exp

/-- The token of an integer: sign and digits only. -/
def ofInt (i : ℤ) : JsonNumber := ⟨decide (i < 0), i.natAbs, none, none⟩

theorem value_ofInt (i : ℤ) : (ofInt i).value = i := by
  have h : (i : ℚ) = if decide (i < 0) = true then -(i.natAbs : ℚ) else (i.natAbs : ℚ) := by
    by_cases hi : i < 0
    · rw [if_pos (by simpa using hi), Nat.cast_natAbs, abs_of_neg hi]; push_cast; ring
    · rw [if_neg (by simpa using hi), Nat.cast_natAbs, abs_of_nonneg (not_lt.1 hi)]
  rw [h]
  simp [value, ofInt, digitsValue, expValue]

end JsonNumber
