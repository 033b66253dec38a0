import Mathlib.Data.List.MinMax
import Cauli.Lib.JsonText
import Cauli.Lib.Python

/-!
# Encoding (`py/cauli/_codec.py`)

* `validateJsonTypes`: the walk that refuses other types, doubles that are not finite, keys that are
  not strings and deep nesting. A rejection carries the path to it, innermost first;
* `toText`: the standard encoding of a value, which exists unless a string holds a lone surrogate;
* `encode`: both;
* `nesting_le_of_validate`: an accepted value is nested no deeper than the limit leaves room for;
* `decodable_toText`: every string of an encoding denotes one.

How the encoder prints a finite double is the parameter `floatToken`.
-/

namespace Cauli

open JsonToken JsonText

/-- The reader's recursion limit. -/
def MAX_NESTING : ℕ := 127

/-- A step of a path: a key or an index. -/
inductive Segment
  | key (s : PyStr)
  | index (i : ℕ)
  deriving DecidableEq

/-- Why a value is refused. -/
inductive NotJson
  | outOfRangeFloat
  | nestedDeeper
  | keyNotStr (typeName : String)
  | notSerializable (typeName : String)
  deriving DecidableEq

/-- A rejection, with the path from the value at fault outwards. -/
structure Rejection where
  reason : NotJson
  path : List Segment := []
  deriving DecidableEq

/-- Record one more segment as the walk unwinds. -/
def Rejection.pushPath (segment : Segment) (e : Rejection) : Rejection :=
  { e with path := e.path ++ [segment] }

mutual

/-- Reject what is not JSON. -/
def validateJsonTypes (depth : ℕ) : PyValue → Except Rejection Unit
  | .none | .bool _ | .int _ | .str _ => .ok ()
  | .float x => if x.isFinite then .ok () else .error { reason := .outOfRangeFloat }
  | .list items =>
    if MAX_NESTING < depth then .error { reason := .nestedDeeper }
    else validateItems (depth + 1) 0 items
  | .dict entries =>
    if MAX_NESTING < depth then .error { reason := .nestedDeeper }
    else validateEntries (depth + 1) entries
  | .other t => .error { reason := .notSerializable t }

/-- The loop over the items of a list, from index `i`. -/
def validateItems (depth i : ℕ) : List PyValue → Except Rejection Unit
  | [] => .ok ()
  | v :: vs =>
    match validateJsonTypes depth v with
    | .error e => .error (e.pushPath (.index i))
    | .ok () => validateItems depth (i + 1) vs

/-- The loop over the entries of a dict. -/
def validateEntries (depth : ℕ) : List (PyKey × PyValue) → Except Rejection Unit
  | [] => .ok ()
  | (.other t, _) :: _ => .error { reason := .keyNotStr t }
  | (.str k, v) :: es =>
    match validateJsonTypes depth v with
    | .error e => .error (e.pushPath (.key k))
    | .ok () => validateEntries depth es

end

section ToText

variable (floatToken : ℚ → JsonNumber)

mutual

/-- The standard encoding; NaN and the infinities would be `null`. -/
def toText : PyValue → Option JsonText
  | .none => some .null
  | .bool b => some (.bool b)
  | .int n => some (.num (.ofInt n))
  | .float (.finite q) => some (.num (floatToken q))
  | .float _ => some .null
  | .str s => (PyStr.utf8 s).map fun cs => .str (encodeStr cs)
  | .list items => (itemsText items).map .arr
  | .dict entries => (entriesText entries).map .obj
  | .other _ => none

/-- The encodings of items. -/
def itemsText : List PyValue → Option (List JsonText)
  | [] => some []
  | v :: vs => (toText v).bind fun t => (itemsText vs).map (t :: ·)

/-- The encodings of entries. -/
def entriesText : List (PyKey × PyValue) → Option (List (List StrPart × JsonText))
  | [] => some []
  | (.other _, _) :: _ => none
  | (.str k, v) :: es =>
    (PyStr.utf8 k).bind fun cs =>
      (toText v).bind fun t => (entriesText es).map ((encodeStr cs, t) :: ·)

end

end ToText

/-- Why a value is not encoded. -/
inductive EncodeError
  | rejected (e : Rejection)
  | notUtf8
  deriving DecidableEq

/-- The tree of the encoded bytes. -/
def encode (floatToken : ℚ → JsonNumber) (obj : PyValue) : Except EncodeError JsonText :=
  match validateJsonTypes 1 obj with
  | .error e => .error (.rejected e)
  | .ok () => (toText floatToken obj).elim (.error .notUtf8) .ok

theorem encode_eq_ok {floatToken : ℚ → JsonNumber} {obj : PyValue} {t : JsonText}
    (h : encode floatToken obj = .ok t) :
    validateJsonTypes 1 obj = .ok () ∧ toText floatToken obj = some t := by
  unfold encode at h
  split at h
  · cases h
  · next hvalid =>
    refine ⟨hvalid, ?_⟩
    cases htext : toText floatToken obj with
    | none => rw [htext] at h; cases h
    | some t' => rw [htext] at h; cases h; rfl

/-! ### What an encoding looks like -/

theorem validateEntries_append (depth : ℕ) (l l' : List (PyKey × PyValue)) :
    validateEntries depth (l ++ l') =
      (validateEntries depth l).bind fun _ => validateEntries depth l' := by
  induction l with
  | nil => rfl
  | cons e l ih =>
    obtain ⟨k, v⟩ := e
    cases k with
    | other t => rfl
    | str k =>
      rw [List.cons_append, validateEntries, validateEntries, ih]
      cases validateJsonTypes depth v <;> rfl

theorem validate_of_mem_entries {depth : ℕ} {l : List (PyKey × PyValue)}
    (h : validateEntries depth l = .ok ()) : ∀ e ∈ l, validateJsonTypes depth e.2 = .ok () := by
  induction l with
  | nil => intro e he; cases he
  | cons e l ih =>
    obtain ⟨k, w⟩ := e
    cases k with
    | other t => rw [validateEntries] at h; cases h
    | str k =>
      rw [validateEntries] at h
      split at h
      · cases h
      · next hw =>
        intro e he
        rcases List.mem_cons.1 he with rfl | he
        · exact hw
        · exact ih h e he

variable {floatToken : ℚ → JsonNumber}

theorem exists_of_mem_itemsText {l : List PyValue} {ts : List JsonText}
    (h : itemsText floatToken l = some ts) :
    ∀ t ∈ ts, ∃ v ∈ l, toText floatToken v = some t := by
  induction l generalizing ts with
  | nil =>
    obtain rfl : [] = ts := Option.some.inj h
    intro t ht
    cases ht
  | cons w l ih =>
    obtain ⟨u, hu, hrest⟩ := Option.bind_eq_some_iff.1 h
    obtain ⟨us, hus, rfl⟩ := Option.map_eq_some_iff.1 hrest
    intro t ht
    rcases List.mem_cons.1 ht with rfl | ht
    · exact ⟨w, List.mem_cons_self, hu⟩
    · obtain ⟨v, hv, htext⟩ := ih hus t ht
      exact ⟨v, List.mem_cons_of_mem w hv, htext⟩

theorem exists_of_mem_entriesText {l : List (PyKey × PyValue)}
    {ms : List (List StrPart × JsonText)} (h : entriesText floatToken l = some ms) :
    ∀ m ∈ ms, (∃ cs, m.1 = encodeStr cs) ∧ ∃ e ∈ l, toText floatToken e.2 = some m.2 := by
  induction l generalizing ms with
  | nil =>
    obtain rfl : [] = ms := Option.some.inj h
    intro m hm
    cases hm
  | cons e l ih =>
    obtain ⟨k, w⟩ := e
    cases k with
    | other t => cases h
    | str k =>
      obtain ⟨cs, -, hrest⟩ := Option.bind_eq_some_iff.1 h
      obtain ⟨u, hu, hrest⟩ := Option.bind_eq_some_iff.1 hrest
      obtain ⟨us, hus, rfl⟩ := Option.map_eq_some_iff.1 hrest
      intro m hm
      rcases List.mem_cons.1 hm with rfl | hm
      · exact ⟨⟨cs, rfl⟩, _, List.mem_cons_self, hu⟩
      · obtain ⟨hkey, e, he, htext⟩ := ih hus m hm
        exact ⟨hkey, e, List.mem_cons_of_mem _ he, htext⟩

/-- **Every string of an encoding denotes one.** -/
theorem decodable_toText {v : PyValue} {t : JsonText} (h : toText floatToken v = some t) :
    t.decodable = true := by
  induction v using PyValue.induct generalizing t with
  | hnone => cases h; rfl
  | hbool b => cases h; rfl
  | hint n => cases h; rfl
  | hfloat x => cases x <;> cases h <;> rfl
  | hstr s =>
    obtain ⟨cs, -, rfl⟩ := Option.map_eq_some_iff.1 h
    show (decodeParts (encodeStr cs)).isSome = true
    rw [decodeParts_encodeStr]
    rfl
  | hlist l ih =>
    obtain ⟨ts, hts, rfl⟩ := Option.map_eq_some_iff.1 h
    rw [decodable_arr, List.all_eq_true]
    intro t ht
    obtain ⟨v, hv, htext⟩ := exists_of_mem_itemsText hts t ht
    exact ih v hv htext
  | hdict l ih =>
    obtain ⟨ms, hms, rfl⟩ := Option.map_eq_some_iff.1 h
    rw [decodable_obj, List.all_eq_true]
    intro m hm
    obtain ⟨⟨cs, hcs⟩, e, he, htext⟩ := exists_of_mem_entriesText hms m hm
    rw [hcs, decodeParts_encodeStr, ih e he htext]
    rfl
  | hother t => cases h

mutual

/-- JSON types only: finite floats, `str` keys. -/
def jsonTyped : PyValue → Bool
  | .none | .bool _ | .int _ | .str _ => true
  | .float x => x.isFinite
  | .list items => jsonTypedItems items
  | .dict entries => jsonTypedEntries entries
  | .other _ => false

/-- Of every item. -/
def jsonTypedItems : List PyValue → Bool
  | [] => true
  | v :: vs => jsonTyped v && jsonTypedItems vs

/-- Of every entry. -/
def jsonTypedEntries : List (PyKey × PyValue) → Bool
  | [] => true
  | (.other _, _) :: _ => false
  | (.str _, v) :: es => jsonTyped v && jsonTypedEntries es

end

mutual

/-- How deep the containers of a value go. -/
def pyNesting : PyValue → ℕ
  | .list items => 1 + nestingItems items
  | .dict entries => 1 + nestingEntries entries
  | _ => 0

/-- The deepest item. -/
def nestingItems : List PyValue → ℕ
  | [] => 0
  | v :: vs => max (pyNesting v) (nestingItems vs)

/-- The deepest value of an entry. -/
def nestingEntries : List (PyKey × PyValue) → ℕ
  | [] => 0
  | (_, v) :: es => max (pyNesting v) (nestingEntries es)

end

/-- What the codec makes of a value at a depth: refused for another reason than its nesting, for its
nesting, or accepted. -/
structure Judged (depth n : ℕ) (typed : Bool) (r : Except Rejection Unit) : Prop where
  ok_iff : r = .ok () ↔ typed = true ∧ (n = 0 ∨ depth + n ≤ MAX_NESTING + 1)
  reason : typed = true → ∀ e, r = .error e → e.reason = .nestedDeeper

theorem Judged.accepted {depth : ℕ} : Judged depth 0 true (.ok ()) := ⟨by simp, nofun⟩

theorem Judged.refused {depth n : ℕ} (e : Rejection) : Judged depth n false (.error e) :=
  ⟨by simp, nofun⟩

/-- A container is refused at its own bracket, or judged by its contents. -/
theorem Judged.bracket {depth n : ℕ} {typed : Bool} {r : Except Rejection Unit}
    (h : Judged (depth + 1) n typed r) :
    Judged depth (1 + n) typed
      (if MAX_NESTING < depth then .error { reason := .nestedDeeper } else r) := by
  by_cases hdepth : MAX_NESTING < depth
  · rw [if_pos hdepth]
    refine ⟨⟨nofun, fun h => ?_⟩, ?_⟩
    · omega
    · rintro - e he
      cases he
      rfl
  · rw [if_neg hdepth]
    refine ⟨h.ok_iff.trans (and_congr_right fun _ => ?_), h.reason⟩
    omega

/-- One turn of a loop: an error of the value at hand is located, else the loop goes on. -/
def orElseLocated (segment : Segment) (r next : Except Rejection Unit) : Except Rejection Unit :=
  match r with
  | .error e => .error (e.pushPath segment)
  | .ok () => next

/-- A sequence: its head, and if that is accepted its tail. -/
theorem Judged.cons {depth n m : ℕ} {typed typed' : Bool} {r r' : Except Rejection Unit}
    (h : Judged depth n typed r) (h' : Judged depth m typed' r') (segment : Segment) :
    Judged depth (max n m) (typed && typed') (orElseLocated segment r r') := by
  cases r with
  | ok u =>
    obtain ⟨htyped, hn⟩ := h.ok_iff.1 rfl
    rw [htyped, Bool.true_and]
    refine ⟨h'.ok_iff.trans (and_congr_right fun _ => ?_), h'.reason⟩
    omega
  | error e =>
    have hno : ¬ (typed = true ∧ (n = 0 ∨ depth + n ≤ MAX_NESTING + 1)) := fun h' => by
      cases h.ok_iff.2 h'
    refine ⟨⟨nofun, fun hboth => absurd ?_ hno⟩, fun htyped e' he' => ?_⟩
    · rw [Bool.and_eq_true] at hboth
      exact ⟨hboth.1.1, by omega⟩
    · cases he'
      rw [Bool.and_eq_true] at htyped
      exact h.reason htyped.1 e rfl

theorem judged_items {depth : ℕ} {l : List PyValue}
    (h : ∀ v ∈ l, Judged depth (pyNesting v) (jsonTyped v) (validateJsonTypes depth v)) (i : ℕ) :
    Judged depth (nestingItems l) (jsonTypedItems l) (validateItems depth i l) := by
  induction l generalizing i with
  | nil => exact .accepted
  | cons w l ih =>
    exact (h w List.mem_cons_self).cons (ih (fun v hv => h v (List.mem_cons_of_mem w hv)) (i + 1))
      (.index i)

theorem judged_entries {depth : ℕ} {l : List (PyKey × PyValue)}
    (h : ∀ e ∈ l, Judged depth (pyNesting e.2) (jsonTyped e.2) (validateJsonTypes depth e.2)) :
    Judged depth (nestingEntries l) (jsonTypedEntries l) (validateEntries depth l) := by
  induction l with
  | nil => exact .accepted
  | cons e l ih =>
    obtain ⟨k, w⟩ := e
    cases k with
    | other t => exact .refused _
    | str k =>
      exact (h _ List.mem_cons_self).cons (ih fun e he => h e (List.mem_cons_of_mem _ he)) (.key k)

/-- **What the codec accepts**: JSON types within the limit; and JSON types are refused for their
nesting only. -/
theorem judged_validate (v : PyValue) (depth : ℕ) :
    Judged depth (pyNesting v) (jsonTyped v) (validateJsonTypes depth v) := by
  induction v using PyValue.induct generalizing depth with
  | hnone => exact .accepted
  | hbool b => exact .accepted
  | hint n => exact .accepted
  | hfloat x =>
    cases x with
    | finite q => exact .accepted
    | inf neg => exact .refused _
    | nan => exact .refused _
  | hstr s => exact .accepted
  | hlist l ih => exact (judged_items (fun v hv => ih v hv (depth + 1)) 0).bracket
  | hdict l ih => exact (judged_entries fun e he => ih e he (depth + 1)).bracket
  | hother t => exact .refused _

/-- An encoding is nested as its value is. -/
theorem nesting_toText {v : PyValue} {t : JsonText} (h : toText floatToken v = some t) :
    t.nesting = pyNesting v := by
  induction v using PyValue.induct generalizing t with
  | hnone => cases h; rfl
  | hbool b => cases h; rfl
  | hint n => cases h; rfl
  | hfloat x => cases x <;> cases h <;> rfl
  | hstr s =>
    obtain ⟨cs, -, rfl⟩ := Option.map_eq_some_iff.1 h
    rfl
  | hlist l ih =>
    obtain ⟨ts, hts, rfl⟩ := Option.map_eq_some_iff.1 h
    rw [nesting_arr, pyNesting]
    congr 1
    clear h
    induction l generalizing ts with
    | nil => cases hts; rfl
    | cons w l ihl =>
      obtain ⟨u, hu, hrest⟩ := Option.bind_eq_some_iff.1 hts
      obtain ⟨us, hus, rfl⟩ := Option.map_eq_some_iff.1 hrest
      rw [List.map_cons, List.foldr_cons, nestingItems, ih w List.mem_cons_self hu,
        ihl (fun v hv => ih v (List.mem_cons_of_mem w hv)) us hus]
  | hdict l ih =>
    obtain ⟨ms, hms, rfl⟩ := Option.map_eq_some_iff.1 h
    rw [nesting_obj, pyNesting]
    congr 1
    clear h
    induction l generalizing ms with
    | nil => cases hms; rfl
    | cons e l ihl =>
      obtain ⟨k, w⟩ := e
      cases k with
      | other t => cases hms
      | str k =>
        obtain ⟨cs, -, hrest⟩ := Option.bind_eq_some_iff.1 hms
        obtain ⟨u, hu, hrest⟩ := Option.bind_eq_some_iff.1 hrest
        obtain ⟨us, hus, rfl⟩ := Option.map_eq_some_iff.1 hrest
        rw [List.map_cons, List.foldr_cons, nestingEntries, ih _ List.mem_cons_self hu,
          ihl (fun e he => ih e (List.mem_cons_of_mem _ he)) us hus]
  | hother t => cases h

/-- **An accepted value is nested no deeper than the limit leaves room for.** -/
theorem nesting_le_of_validate {v : PyValue} {depth : ℕ} {t : JsonText}
    (hvalid : validateJsonTypes depth v = .ok ()) (h : toText floatToken v = some t) :
    t.nesting = 0 ∨ depth + t.nesting ≤ MAX_NESTING + 1 := by
  rw [nesting_toText h]
  exact ((judged_validate v depth).ok_iff.1 hvalid).2

/-- The fields `fs` are the encodings of `fields`, under the same names. -/
structure Encoded (floatToken : ℚ → JsonNumber) (fields : List (String × PyValue))
    (fs : List (String × JsonText)) : Prop where
  names : fs.map Prod.fst = fields.map Prod.fst
  values : ∀ f ∈ fields, ∃ t, (f.1, t) ∈ fs ∧ toText floatToken f.2 = some t

/-- A dict with the given keys is encoded key by key. -/
theorem exists_encoded {fields : List (String × PyValue)} {ms : List (List StrPart × JsonText)}
    (h : entriesText floatToken (fields.map fun f => (.str (PyStr.ofString f.1), f.2)) = some ms) :
    ∃ fs, Encoded floatToken fields fs ∧ ms = fs.map fun f => (encodeStr f.1.toList, f.2) := by
  induction fields generalizing ms with
  | nil =>
    obtain rfl : [] = ms := Option.some.inj h
    exact ⟨[], ⟨rfl, by simp⟩, rfl⟩
  | cons f fields ih =>
    rw [List.map_cons, entriesText] at h
    obtain ⟨cs, hcs, h⟩ := Option.bind_eq_some_iff.1 h
    obtain ⟨t, ht, h⟩ := Option.bind_eq_some_iff.1 h
    obtain ⟨ms', hms', rfl⟩ := Option.map_eq_some_iff.1 h
    obtain ⟨fs, hfs, rfl⟩ := ih hms'
    obtain rfl : f.1.toList = cs := Option.some.inj ((PyStr.utf8_map_char _).symm.trans hcs)
    refine ⟨(f.1, t) :: fs, ⟨by rw [List.map_cons, List.map_cons, hfs.names], ?_⟩, rfl⟩
    intro g hg
    rcases List.mem_cons.1 hg with rfl | hg
    · exact ⟨t, List.mem_cons_self, ht⟩
    · obtain ⟨u, hu, htext⟩ := hfs.values g hg
      exact ⟨u, List.mem_cons_of_mem _ hu, htext⟩

/-! ### Samples -/

/-- The nearest double, if it is finite: a reader that rounds correctly. -/
def nearestDouble (n : JsonNumber) : Option F64 := some (F64.ofRat n.value) |>.filter F64.isFinite

/-- A whole double, printed with one fraction digit. -/
def wholeToken (x : ℚ) : JsonNumber := ⟨decide (x < 0), x.num.natAbs, some JsonToken.zeroDigit, none⟩

/-- `n` lists around a number. -/
def nestedList : ℕ → PyValue
  | 0 => .int 7
  | n + 1 => .list [nestedList n]

/-- Its text. -/
def nestedText : ℕ → JsonText
  | 0 => .num (.ofInt 7)
  | n + 1 => .arr [nestedText n]

theorem toText_nestedList (floatToken : ℚ → JsonNumber) (n : ℕ) :
    toText floatToken (nestedList n) = some (nestedText n) := by
  induction n with
  | zero => rfl
  | succ n ih => simp [nestedList, nestedText, toText, itemsText, ih]

theorem jsonTyped_nestedList (n : ℕ) : jsonTyped (nestedList n) = true := by
  induction n with
  | zero => rfl
  | succ n ih => simp [nestedList, jsonTyped, jsonTypedItems, ih]

end Cauli
