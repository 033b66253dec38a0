import Cauli.Client.Codec

/-!
# Subclasses of the builtin types (`py/cauli/_codec.py`)

`_validate_json_types` has its rules twice: first for objects whose type is exactly a builtin one, then,
after the test of the depth, for instances of subclasses. Here every object carries its class.

* `PyObj`, `PyObj.strip`: an object, and its value without the classes;
* `Classed.validateJsonTypes`: both paths. They differ in what they take as a key;
* `plainKeys`: no dict of the exact type has a key of a subclass of `str`;
* `validate_eq_ok_iff`: accepted is what the walk over the values accepts, with plain keys;
* `subclasses_agree_iff`: when two objects of one value are judged alike.
-/

namespace Cauli

/-- The type of an object: a builtin type, or a subclass of it with a name of its own. -/
inductive PyClass
  | exact
  | subclass (name : String)
  deriving DecidableEq

/-- The name of the type, for a builtin type of the given name. -/
def PyClass.typeName (builtin : String) : PyClass → String
  | exact => builtin
  | subclass name => name

/-- A key of a dict; `other` has a builtin type other than `str`. -/
inductive ObjKey
  | str (cls : PyClass) (s : PyStr)
  | other (cls : PyClass) (builtin : String)

/-- An object. `bool` and `None` have no subclasses; the type of `other` is no subclass of a builtin
one. -/
inductive PyObj
  | none
  | bool (b : Bool)
  | int (cls : PyClass) (n : ℤ)
  | float (cls : PyClass) (x : F64)
  | str (cls : PyClass) (s : PyStr)
  | list (cls : PyClass) (items : List PyObj)
  | tuple (cls : PyClass) (items : List PyObj)
  | dict (cls : PyClass) (entries : List (ObjKey × PyObj))
  | other (typeName : String)

/-- The key without its class. -/
def ObjKey.strip : ObjKey → PyKey
  | str _ s => .str s
  | other _ builtin => .other builtin

mutual

/-- The value without the classes; a tuple is a list. -/
def PyObj.strip : PyObj → PyValue
  | .none => .none
  | .bool b => .bool b
  | .int _ n => .int n
  | .float _ x => .float x
  | .str _ s => .str s
  | .list _ items | .tuple _ items => .list (stripItems items)
  | .dict _ entries => .dict (stripEntries entries)
  | .other t => .other t

/-- Of every item. -/
def stripItems : List PyObj → List PyValue
  | [] => []
  | v :: vs => v.strip :: stripItems vs

/-- Of every entry. -/
def stripEntries : List (ObjKey × PyObj) → List (PyKey × PyValue)
  | [] => []
  | (k, v) :: es => (k.strip, v.strip) :: stripEntries es

end

namespace Classed

/-- `type(k) is str`. -/
def isExactStr : ObjKey → Bool
  | .str .exact _ => true
  | _ => false

/-- `isinstance(k, str)`. -/
def isStr : ObjKey → Bool
  | .str _ _ => true
  | .other _ _ => false

/-- `type(k).__name__`. -/
def keyTypeName : ObjKey → String
  | .str cls _ => cls.typeName "str"
  | .other cls builtin => cls.typeName builtin

/-- The segment of a path that a key gives. -/
def keySegment : ObjKey → Segment
  | .str _ s => .key s
  | .other _ _ => .key []

mutual

/-- `_validate_json_types`. -/
def validateJsonTypes (depth : ℕ) : PyObj → Except Rejection Unit
  -- the exact types; the test of the depth comes before the containers
  | .none | .bool _ | .int .exact _ | .str .exact _ => .ok ()
  | .float .exact x => if x.isFinite then .ok () else .error { reason := .outOfRangeFloat }
  | .dict .exact entries =>
    if MAX_NESTING < depth then .error { reason := .nestedDeeper }
    else validateEntries isExactStr (depth + 1) entries
  | .list .exact items | .tuple .exact items =>
    if MAX_NESTING < depth then .error { reason := .nestedDeeper }
    else validateItems (depth + 1) 0 items
  -- the subclasses
  | .int (.subclass _) _ | .str (.subclass _) _ => .ok ()
  | .float (.subclass _) x => if x.isFinite then .ok () else .error { reason := .outOfRangeFloat }
  | .dict (.subclass _) entries =>
    if MAX_NESTING < depth then .error { reason := .nestedDeeper }
    else validateEntries isStr (depth + 1) entries
  | .list (.subclass _) items | .tuple (.subclass _) items =>
    if MAX_NESTING < depth then .error { reason := .nestedDeeper }
    else validateItems (depth + 1) 0 items
  | .other t => .error { reason := .notSerializable t }

/-- The loop over the items of a list or a tuple, from index `i`. -/
def validateItems (depth i : ℕ) : List PyObj → Except Rejection Unit
  | [] => .ok ()
  | v :: vs =>
    match validateJsonTypes depth v with
    | .error e => .error (e.pushPath (.index i))
    | .ok () => validateItems depth (i + 1) vs

/-- The loop over the entries of a dict, with the test of its keys. -/
def validateEntries (isKey : ObjKey → Bool) (depth : ℕ) :
    List (ObjKey × PyObj) → Except Rejection Unit
  | [] => .ok ()
  | (k, v) :: es =>
    if isKey k then
      match validateJsonTypes depth v with
      | .error e => .error (e.pushPath (keySegment k))
      | .ok () => validateEntries isKey depth es
    else .error { reason := .keyNotStr (keyTypeName k) }

end

mutual

/-- No dict of the exact type has a key of a subclass of `str`. -/
def plainKeys : PyObj → Bool
  | .list _ items | .tuple _ items => plainKeysItems items
  | .dict cls entries => plainKeysEntries cls entries
  | _ => true

/-- Of every item. -/
def plainKeysItems : List PyObj → Bool
  | [] => true
  | v :: vs => plainKeys v && plainKeysItems vs

/-- Of every entry of a dict of the given class. -/
def plainKeysEntries (cls : PyClass) : List (ObjKey × PyObj) → Bool
  | [] => true
  | (k, v) :: es =>
    (decide (cls ≠ .exact) || isExactStr k || !isStr k) && plainKeys v && plainKeysEntries cls es

end

/-! ### What both paths accept -/

theorem orElseLocated_eq_ok_iff {segment : Segment} {r next : Except Rejection Unit} :
    orElseLocated segment r next = .ok () ↔ r = .ok () ∧ next = .ok () := by
  cases r <;> simp [orElseLocated]

mutual

/-- **Accepted is what the walk over the values accepts, if the keys are plain.** -/
theorem validate_eq_ok_iff (depth : ℕ) : ∀ o : PyObj, validateJsonTypes depth o = .ok () ↔
    Cauli.validateJsonTypes depth o.strip = .ok () ∧ plainKeys o = true
  | .none | .bool _ | .int .exact _ | .int (.subclass _) _ | .str .exact _ | .str (.subclass _) _ => by
    simp [validateJsonTypes, Cauli.validateJsonTypes, PyObj.strip, plainKeys]
  | .float .exact x | .float (.subclass _) x => by
    simp [validateJsonTypes, Cauli.validateJsonTypes, PyObj.strip, plainKeys]
  | .list .exact items | .list (.subclass _) items | .tuple .exact items
  | .tuple (.subclass _) items => by
    simp only [validateJsonTypes, Cauli.validateJsonTypes, PyObj.strip, plainKeys]
    split_ifs
    · simp
    · exact validateItems_eq_ok_iff (depth + 1) 0 items
  | .dict .exact entries => by
    simp only [validateJsonTypes, Cauli.validateJsonTypes, PyObj.strip, plainKeys]
    split_ifs
    · simp
    · exact validateEntries_eq_ok_iff .exact (depth + 1) entries
  | .dict (.subclass name) entries => by
    simp only [validateJsonTypes, Cauli.validateJsonTypes, PyObj.strip, plainKeys]
    split_ifs
    · simp
    · exact validateEntries_eq_ok_iff (.subclass name) (depth + 1) entries
  | .other t => by
    simp [validateJsonTypes, Cauli.validateJsonTypes, PyObj.strip]

theorem validateItems_eq_ok_iff (depth i : ℕ) : ∀ items : List PyObj,
    validateItems depth i items = .ok () ↔
      Cauli.validateItems depth i (stripItems items) = .ok () ∧ plainKeysItems items = true
  | [] => by simp [validateItems, Cauli.validateItems, stripItems, plainKeysItems]
  | v :: vs => by
    show orElseLocated (.index i) (validateJsonTypes depth v) (validateItems depth (i + 1) vs) =
        .ok () ↔
      orElseLocated (.index i) (Cauli.validateJsonTypes depth v.strip)
        (Cauli.validateItems depth (i + 1) (stripItems vs)) = .ok () ∧
      (plainKeys v && plainKeysItems vs) = true
    rw [orElseLocated_eq_ok_iff, orElseLocated_eq_ok_iff, validate_eq_ok_iff depth v,
      validateItems_eq_ok_iff depth (i + 1) vs, Bool.and_eq_true, and_and_and_comm]

theorem validateEntries_eq_ok_iff (cls : PyClass) (depth : ℕ) : ∀ entries : List (ObjKey × PyObj),
    validateEntries (if cls = .exact then isExactStr else isStr) depth entries = .ok () ↔
      Cauli.validateEntries depth (stripEntries entries) = .ok () ∧ plainKeysEntries cls entries = true
  | [] => by simp [validateEntries, Cauli.validateEntries, stripEntries, plainKeysEntries]
  | (.other c t, v) :: es => by
    have hkey : (if cls = .exact then isExactStr else isStr) (.other c t) = false := by
      split_ifs <;> rfl
    simp [validateEntries, hkey, stripEntries, ObjKey.strip, Cauli.validateEntries]
  | (.str c k, v) :: es => by
    have hkey : (if cls = .exact then isExactStr else isStr) (.str c k) =
        (decide (cls ≠ .exact) || isExactStr (.str c k) || !isStr (.str c k)) := by
      cases cls <;> cases c <;> rfl
    rw [validateEntries, hkey, plainKeysEntries]
    cases decide (cls ≠ .exact) || isExactStr (.str c k) || !isStr (.str c k) with
    | false => simp
    | true =>
      rw [if_pos rfl, Bool.true_and, Bool.and_eq_true]
      show orElseLocated (.key k) (validateJsonTypes depth v) (validateEntries _ depth es) = .ok () ↔
        orElseLocated (.key k) (Cauli.validateJsonTypes depth v.strip)
          (Cauli.validateEntries depth (stripEntries es)) = .ok () ∧ _
      rw [orElseLocated_eq_ok_iff, orElseLocated_eq_ok_iff, validate_eq_ok_iff depth v,
        validateEntries_eq_ok_iff cls depth es, and_and_and_comm]

end

/-- **When a subclass in place of a builtin type changes nothing**: for every two objects that differ in
their classes only, at every depth. Both are judged alike exactly when their value is refused in any
case, or both or neither of them have a dict of the exact type with a key of a subclass of `str`. -/
theorem subclasses_agree_iff {o o' : PyObj} (h : o.strip = o'.strip) (depth : ℕ) :
    (validateJsonTypes depth o = .ok () ↔ validateJsonTypes depth o' = .ok ()) ↔
      (jsonTyped o.strip = true →
        pyNesting o.strip = 0 ∨ depth + pyNesting o.strip ≤ MAX_NESTING + 1 →
        (plainKeys o = true ↔ plainKeys o' = true)) := by
  rw [validate_eq_ok_iff, validate_eq_ok_iff, ← h, (judged_validate o.strip depth).ok_iff]
  constructor
  · intro hiff htyped hnesting
    simpa [htyped, hnesting] using hiff
  · intro hplain
    rw [and_congr_right_iff]
    exact fun hvalue => hplain hvalue.1 hvalue.2

/-- A point in a dict, with their classes. -/
def located (dict point : PyClass) : PyObj :=
  .dict dict [(.str .exact (PyStr.ofString "at"), .tuple point [.int .exact 1, .int .exact 2])]

/-- A named tuple in an `OrderedDict` is judged as a tuple in a dict. -/
theorem subclasses_agree_iff_ordered :
    validateJsonTypes 1 (located (.subclass "OrderedDict") (.subclass "Point")) = .ok () := by
  have hstrip : (located (.subclass "OrderedDict") (.subclass "Point")).strip =
      (located .exact .exact).strip := rfl
  have hexact : validateJsonTypes 1 (located .exact .exact) = .ok () := by decide
  exact ((subclasses_agree_iff hstrip 1).2 fun _ _ => by decide).2 hexact

/-- A dict with a key that is an instance of a subclass of `str`. -/
def keyed (cls : PyClass) : PyObj := .dict .exact [(.str cls (PyStr.ofString "k"), .int .exact 1)]

/-- The key of a subclass is refused, in a dict of the exact type. -/
theorem subclass_key_refused :
    (keyed .exact).strip = (keyed (.subclass "Name")).strip ∧
      validateJsonTypes 1 (keyed .exact) = .ok () ∧
      validateJsonTypes 1 (keyed (.subclass "Name")) ≠ .ok () ∧
      validateJsonTypes 1 (.dict (.subclass "OrderedDict")
        [(.str (.subclass "Name") (PyStr.ofString "k"), .int .exact 1)]) = .ok () := by
  refine ⟨rfl, by decide, by decide, by decide⟩

end Classed

end Cauli
