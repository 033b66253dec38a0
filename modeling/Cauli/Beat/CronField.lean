import Cauli.Lib.PyText
import Mathlib.Data.Finset.Image

/-!
# Cron fields (`py/cauli/schedules.py`)

One field of a crontab, from the argument a program gives to the set of the values it matches.

* `FieldArg`: the argument, and `exprText`, its canonical text;
* `cronNum`, `parsePart`, `parseField`.
-/

namespace Cauli

open PyText

/-- The argument of a field: `None`, a bool, an int, a text, an iterable with the texts of its
elements, or anything else. -/
inductive FieldArg
  | none
  | bool (b : Bool)
  | int (n : ℤ)
  | str (s : List Char)
  | items (xs : List (List Char))
  | other

/-- What the constructor of a crontab raises. `notIterable` is a `TypeError`, the others are a
`ValueError`. -/
inductive CronError
  | boolField
  | notIterable
  | unsupportedField
  | emptyField
  | emptyElement (expr : List Char)
  | badStep (raw : List Char)
  | stepTooSmall (step : ℤ)
  | badValue (token : List Char)
  | outOfRange (token : List Char) (lo hi : ℕ)
  | invertedRange (part : List Char)
  | matchesNothing (expr : List Char)
  deriving DecidableEq

/-- `_MONTH_NAMES`. -/
def MONTH_NAMES : List (List Char × ℕ) :=
  [("jan".toList, 1), ("feb".toList, 2), ("mar".toList, 3), ("apr".toList, 4), ("may".toList, 5),
    ("jun".toList, 6), ("jul".toList, 7), ("aug".toList, 8), ("sep".toList, 9), ("oct".toList, 10),
    ("nov".toList, 11), ("dec".toList, 12)]

/-- `_DOW_NAMES`. -/
def DOW_NAMES : List (List Char × ℕ) :=
  [("sun".toList, 0), ("mon".toList, 1), ("tue".toList, 2), ("wed".toList, 3), ("thu".toList, 4),
    ("fri".toList, 5), ("sat".toList, 6)]

/-- `_num`: a number or a name, within the range of the field. -/
def cronNum (token : List Char) (lo hi : ℕ) (names : List (List Char × ℕ)) :
    Except CronError ℕ := do
  let token := lower (strip token)
  let value ← match names.lookup token with
    | some n => .ok (n : ℤ)
    | none =>
      match toInt token with
      | some n => .ok n
      | none => .error (.badValue token)
  if lo ≤ value ∧ value ≤ hi then .ok value.toNat else .error (.outOfRange token lo hi)

/-- The step after a slash, and the part before it. -/
def splitStep (part : List Char) : Except CronError (List Char × ℕ) :=
  if '/' ∈ part then
    let (part, rawStep) := partition '/' part
    match toInt rawStep with
    | none => .error (.badStep rawStep)
    | some step => if step < 1 then .error (.stepTooSmall step) else .ok (strip part, step.toNat)
  else .ok (part, 1)

/-- One element of the list: `range(start, end + 1, step)`. -/
def parsePart (part : List Char) (lo hi : ℕ) (names : List (List Char × ℕ)) :
    Except CronError (List ℕ) := do
  let (part, step) ← splitStep part
  let (start, stop) ←
    if part = ['*'] then .ok (lo, hi)
    else if '-' ∈ part then do
      let (a, b) := partition '-' part
      let start ← cronNum a lo hi names
      let stop ← cronNum b lo hi names
      if stop < start then .error (.invertedRange part) else .ok (start, stop)
    else do
      let start ← cronNum part lo hi names
      -- "5/15" goes from 5 to the top of the range
      .ok (start, if step ≠ 1 then hi else start)
  .ok (List.range' start ((stop - start) / step + 1) step)

/-- The loop over the elements. -/
def parseParts (expr : List Char) (lo hi : ℕ) (names : List (List Char × ℕ)) :
    List (List Char) → Except CronError (Finset ℕ)
  | [] => .ok ∅
  | part :: parts => do
    let part := strip part
    if part = [] then .error (.emptyElement expr)
    else
      let values ← parsePart part lo hi names
      let rest ← parseParts expr lo hi names parts
      .ok (values.toFinset ∪ rest)

/-- The text that `_parse_field` reads. -/
def FieldArg.text : FieldArg → Except CronError (List Char)
  | none => .ok ['*']
  | bool _ => .error .boolField
  | int n => .ok (toString n).toList
  | str s => .ok s
  | items xs => .ok (List.intercalate [','] xs)
  | other => .error .unsupportedField

/-- `_parse_field`. -/
def parseField (arg : FieldArg) (lo hi : ℕ) (names : List (List Char × ℕ)) :
    Except CronError (Finset ℕ) := do
  let expr := lower (strip (← arg.text))
  if expr = [] then .error .emptyField
  else
    let values ← parseParts expr lo hi names (expr.splitOn ',')
    if values = ∅ then .error (.matchesNothing expr) else .ok values

/-- `_expr_text`: the canonical text of a field. -/
def exprText : FieldArg → Except CronError (List Char)
  | .none => .ok ['*']
  | .bool _ => .error .boolField
  | .int n => .ok (toString n).toList
  | .str s => .ok (if lower (strip s) = [] then ['*'] else lower (strip s))
  | .items xs => .ok (List.intercalate [','] (xs.map fun x => lower (strip x)))
  | .other => .error .notIterable

theorem exprText_star : exprText (.str ['*']) = .ok ['*'] := rfl

end Cauli
