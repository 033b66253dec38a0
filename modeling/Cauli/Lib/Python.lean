import Cauli.Lib.Binary64

/-!
# Python values

What a client program in Python hands over: strings that may hold lone surrogates, integers without
a bound, doubles, and trees of them.

* `PyStr`, `PyStr.utf8`: a string, and its encoding, which a lone surrogate does not have;
* `PyNum`: an integer or a double, with `scale` (multiplication by a positive integer), `roundInt`
  (`int(round(x))`), `truncInt` (`int(x)`) and `toFloat` (`float(x)`);
* `PyValue`: the values a JSON encoder may meet. A tuple is a `list`, and what is neither of these
  types is `other` with the name of its type.
-/

/-- A code point: a character or a lone surrogate. -/
inductive PyChar
  | char (c : Char)
  | surrogate (u : ℕ) (h : 0xD800 ≤ u ∧ u < 0xE000)
  deriving DecidableEq

/-- A Python string. -/
abbrev PyStr := List PyChar

namespace PyStr

/-- A literal. -/
def ofString (s : String) : PyStr := s.toList.map .char

/-- The characters of the encoding. -/
def utf8 : PyStr → Option (List Char)
  | [] => some []
  | .char c :: s => (utf8 s).map (c :: ·)
  | .surrogate _ _ :: _ => none

@[simp] theorem utf8_map_char (cs : List Char) : utf8 (cs.map .char) = some cs := by
  induction cs with
  | nil => rfl
  | cons c cs ih => rw [List.map_cons, utf8, ih, Option.map_some]

theorem eq_map_of_utf8 {s : PyStr} {cs : List Char} (h : utf8 s = some cs) : s = cs.map .char := by
  induction s generalizing cs with
  | nil =>
    obtain rfl : [] = cs := Option.some.inj h
    rfl
  | cons c s ih =>
    cases c with
    | char c =>
      obtain ⟨ds, hds, rfl⟩ := Option.map_eq_some_iff.1 h
      rw [List.map_cons, ← ih hds]
    | surrogate u hu => cases h

end PyStr

/-- A conversion between numbers that raises. -/
inductive ConversionError
  | nanToInt
  | infToInt
  | intTooLarge
  deriving DecidableEq

namespace F64

/-- Neither infinite nor NaN. -/
def isFinite : F64 → Bool
  | finite _ => true
  | _ => false

/-- `x <= 0`. -/
def leZero : F64 → Bool
  | finite q => decide (q ≤ 0)
  | inf neg => neg
  | nan => false

/-- The product with a positive integer. -/
def scale (k : ℕ) : F64 → F64
  | finite q => ofRat (q * k)
  | inf neg => inf neg
  | nan => nan

/-- A whole product of at most 53 bits is exact. -/
theorem scale_intCast {n : ℤ} {k : ℕ} (h : (n * k).natAbs < 2 ^ 53) :
    scale k (finite n) = finite ((n * k : ℤ) : ℚ) := by
  have hcast : (n : ℚ) * (k : ℚ) = ((n * k : ℤ) : ℚ) := by push_cast; rfl
  rw [scale, hcast]
  exact ofInt_exact h

/-- `int(x)`, with what is done to a finite value. -/
def toInt (f : ℚ → ℤ) : F64 → Except ConversionError ℤ
  | finite q => .ok (f q)
  | inf _ => .error .infToInt
  | nan => .error .nanToInt

end F64

/-- The integer part, towards zero. -/
def truncate (q : ℚ) : ℤ := if q < 0 then ⌈q⌉ else ⌊q⌋

/-- A Python number. -/
inductive PyNum
  | int (n : ℤ)
  | float (x : F64)
  deriving DecidableEq

namespace PyNum

/-- `x * k` for a positive integer. -/
def scale (k : ℕ) : PyNum → PyNum
  | int n => int (n * k)
  | float x => float (x.scale k)

/-- `int(round(x))`; a half goes to the even neighbour. -/
def roundInt : PyNum → Except ConversionError ℤ
  | int n => .ok n
  | float x => x.toInt roundEven

/-- `int(x)`. -/
def truncInt : PyNum → Except ConversionError ℤ
  | int n => .ok n
  | float x => x.toInt truncate

/-- `float(x)`. -/
def toFloat : PyNum → Except ConversionError F64
  | int n => if (F64.ofInt n).isFinite then .ok (F64.ofInt n) else .error .intTooLarge
  | float x => .ok x

end PyNum

/-- A key of a dict. -/
inductive PyKey
  | str (s : PyStr)
  | other (typeName : String)

/-- A Python value. `list` is a list or a tuple, which the codecs treat alike. -/
inductive PyValue
  | none
  | bool (b : Bool)
  | int (n : ℤ)
  | float (x : F64)
  | str (s : PyStr)
  | list (items : List PyValue)
  | dict (entries : List (PyKey × PyValue))
  | other (typeName : String)

/-- Induction over values. -/
theorem PyValue.induct {P : PyValue → Prop} (hnone : P .none) (hbool : ∀ b, P (.bool b))
    (hint : ∀ n, P (.int n)) (hfloat : ∀ x, P (.float x)) (hstr : ∀ s, P (.str s))
    (hlist : ∀ l, (∀ v ∈ l, P v) → P (.list l))
    (hdict : ∀ l : List (PyKey × PyValue), (∀ e ∈ l, P e.2) → P (.dict l))
    (hother : ∀ t, P (.other t)) : ∀ v, P v
  | .none => hnone
  | .bool b => hbool b
  | .int n => hint n
  | .float x => hfloat x
  | .str s => hstr s
  | .list l => hlist l fun v _ => induct hnone hbool hint hfloat hstr hlist hdict hother v
  | .dict l => hdict l fun e _ => induct hnone hbool hint hfloat hstr hlist hdict hother e.2
  | .other t => hother t
termination_by v => sizeOf v
decreasing_by
  · have := List.sizeOf_lt_of_mem ‹v ∈ l›
    simp only [PyValue.list.sizeOf_spec]
    omega
  · obtain ⟨k, v⟩ := e
    have := List.sizeOf_lt_of_mem ‹(k, v) ∈ l›
    simp only [PyValue.dict.sizeOf_spec, Prod.mk.sizeOf_spec] at *
    omega
