import Cauli.Client.Codec
import Cauli.Worker.Parse

/-!
# Outcomes on the two lanes

A task of kind `io` runs in the worker's process: its result passes `check_json`
(`worker/src/pyjson.rs`), its exception goes through `_finish_exc` (`worker/src/shim.py`) and
`outcome_from_py` (`worker/src/pyrt.rs`). A task of kind `cpu` runs in a child: both go through
`_execute` and `_serialize_response_bytes` (`py/cauli/_exec.py`) as one JSON line, which
`parse_pyresp` (`worker/src/ctx.rs`) reads.

* `checkJson`: the type gate of the io lane, which counts every node;
* `result_gates_agree_iff`: where the two gates agree;
* `Exc`: what both lanes read of an exception;
* `syncLane`, `cpuLane`: its outcome on each;
* `lanes_agree_iff`: where the lanes agree.

How Python words an encoding error and how serde words a parse error are parameters.
-/

namespace Cauli

open JsonToken JsonText

/-! ### The result gates -/

/-- Deeper than any real result. -/
def MAX_DEPTH : ℕ := 128

/-- Why the gate of the io lane refuses a value. -/
inductive ConvError
  | nestedDeeper
  | outOfRangeFloat
  | keyNotStr (typeName : String)
  | notSerializable (typeName : String)
  deriving DecidableEq

mutual

/-- `check_json`: every node counts for the depth. -/
def checkJson (depth : ℕ) : PyValue → Except ConvError Unit
  | .none | .bool _ | .int _ | .str _ => if MAX_DEPTH < depth then .error .nestedDeeper else .ok ()
  | .float x =>
    if MAX_DEPTH < depth then .error .nestedDeeper
    else if x.isFinite then .ok ()
    else .error .outOfRangeFloat
  | .list items =>
    if MAX_DEPTH < depth then .error .nestedDeeper else checkItems (depth + 1) items
  | .dict entries =>
    if MAX_DEPTH < depth then .error .nestedDeeper else checkEntries (depth + 1) entries
  | .other t => if MAX_DEPTH < depth then .error .nestedDeeper else .error (.notSerializable t)

/-- The loop over the items of a list or a tuple. -/
def checkItems (depth : ℕ) : List PyValue → Except ConvError Unit
  | [] => .ok ()
  | v :: vs => (checkJson depth v).bind fun _ => checkItems depth vs

/-- The loop over the entries of a dict. -/
def checkEntries (depth : ℕ) : List (PyKey × PyValue) → Except ConvError Unit
  | [] => .ok ()
  | (.other t, _) :: _ => .error (.keyNotStr t)
  | (.str _, v) :: es => (checkJson depth v).bind fun _ => checkEntries depth es

end

mutual

/-- The depth of the deepest node below a value. -/
def pyHeight : PyValue → ℕ
  | .list items => heightItems items
  | .dict entries => heightEntries entries
  | _ => 0

/-- The deepest node of the items, from their list. -/
def heightItems : List PyValue → ℕ
  | [] => 0
  | v :: vs => max (1 + pyHeight v) (heightItems vs)

/-- The deepest node of the entries, from their dict. -/
def heightEntries : List (PyKey × PyValue) → ℕ
  | [] => 0
  | (_, v) :: es => max (1 + pyHeight v) (heightEntries es)

end

/-- One turn of a loop. -/
theorem turn_eq_ok_iff {depth h hs : ℕ} {typed typeds : Bool} {r rs : Except ConvError Unit}
    (hr : r = .ok () ↔ typed = true ∧ depth + 1 + h ≤ MAX_DEPTH)
    (hrs : rs = .ok () ↔ typeds = true ∧ depth + hs ≤ MAX_DEPTH) :
    (r.bind fun _ => rs) = .ok () ↔
      (typed && typeds) = true ∧ depth + max (1 + h) hs ≤ MAX_DEPTH := by
  have hmax : depth + max (1 + h) hs ≤ MAX_DEPTH ↔
      depth + 1 + h ≤ MAX_DEPTH ∧ depth + hs ≤ MAX_DEPTH := by omega
  have hbind : (r.bind fun _ => rs) = .ok () ↔ r = .ok () ∧ rs = .ok () := by
    cases r <;> simp [Except.bind]
  rw [hbind, hr, hrs, Bool.and_eq_true, hmax]
  tauto

theorem checkItems_eq_ok_iff {depth : ℕ} (hdepth : depth ≤ MAX_DEPTH) {l : List PyValue}
    (h : ∀ v ∈ l, (checkJson (depth + 1) v = .ok () ↔
      jsonTyped v = true ∧ depth + 1 + pyHeight v ≤ MAX_DEPTH)) :
    checkItems (depth + 1) l = .ok () ↔
      jsonTypedItems l = true ∧ depth + heightItems l ≤ MAX_DEPTH := by
  induction l with
  | nil => simpa [checkItems, jsonTypedItems, heightItems] using hdepth
  | cons v l ih =>
    exact turn_eq_ok_iff (h v List.mem_cons_self) (ih fun w hw => h w (List.mem_cons_of_mem v hw))

theorem checkEntries_eq_ok_iff {depth : ℕ} (hdepth : depth ≤ MAX_DEPTH)
    {l : List (PyKey × PyValue)}
    (h : ∀ e ∈ l, (checkJson (depth + 1) e.2 = .ok () ↔
      jsonTyped e.2 = true ∧ depth + 1 + pyHeight e.2 ≤ MAX_DEPTH)) :
    checkEntries (depth + 1) l = .ok () ↔
      jsonTypedEntries l = true ∧ depth + heightEntries l ≤ MAX_DEPTH := by
  induction l with
  | nil => simpa [checkEntries, jsonTypedEntries, heightEntries] using hdepth
  | cons e l ih =>
    obtain ⟨k, v⟩ := e
    cases k with
    | other t => simp [checkEntries, jsonTypedEntries]
    | str k =>
      exact turn_eq_ok_iff (h _ List.mem_cons_self) (ih fun w hw => h w (List.mem_cons_of_mem _ hw))

/-- **What the io lane accepts**: JSON types with no node past the limit. -/
theorem checkJson_eq_ok_iff (v : PyValue) (depth : ℕ) :
    checkJson depth v = .ok () ↔ jsonTyped v = true ∧ depth + pyHeight v ≤ MAX_DEPTH := by
  induction v using PyValue.induct generalizing depth with
  | hnone => simp [checkJson, jsonTyped, pyHeight]
  | hbool b => simp [checkJson, jsonTyped, pyHeight]
  | hint n => simp [checkJson, jsonTyped, pyHeight]
  | hfloat x =>
    by_cases hdeep : MAX_DEPTH < depth
    · simp [checkJson, pyHeight, hdeep]
    · by_cases hx : x.isFinite = true <;> simp [checkJson, jsonTyped, pyHeight, hdeep, hx, not_lt.1 hdeep]
  | hstr s => simp [checkJson, jsonTyped, pyHeight]
  | hlist l ih =>
    by_cases hdeep : MAX_DEPTH < depth
    · have hno : ¬ depth + pyHeight (.list l) ≤ MAX_DEPTH := by omega
      simp [checkJson, hdeep, hno]
    · rw [checkJson, if_neg hdeep, jsonTyped, pyHeight]
      exact checkItems_eq_ok_iff (not_lt.1 hdeep) fun v hv => ih v hv (depth + 1)
  | hdict l ih =>
    by_cases hdeep : MAX_DEPTH < depth
    · have hno : ¬ depth + pyHeight (.dict l) ≤ MAX_DEPTH := by omega
      simp [checkJson, hdeep, hno]
    · rw [checkJson, if_neg hdeep, jsonTyped, pyHeight]
      exact checkEntries_eq_ok_iff (not_lt.1 hdeep) fun e he => ih e he (depth + 1)
  | hother t => by_cases hdeep : MAX_DEPTH < depth <;> simp [checkJson, jsonTyped, hdeep]

/-- A node is no deeper than the brackets around it. -/
theorem pyHeight_le_pyNesting (v : PyValue) : pyHeight v ≤ pyNesting v := by
  induction v using PyValue.induct with
  | hlist l ih =>
    have hitems : heightItems l ≤ 1 + nestingItems l := by
      induction l with
      | nil => simp [heightItems]
      | cons v l ihl =>
        have hv := ih v List.mem_cons_self
        have hl := ihl fun w hw => ih w (List.mem_cons_of_mem v hw)
        rw [heightItems, nestingItems]
        omega
    exact hitems
  | hdict l ih =>
    have hentries : heightEntries l ≤ 1 + nestingEntries l := by
      induction l with
      | nil => simp [heightEntries]
      | cons e l ihl =>
        have he := ih e List.mem_cons_self
        have hl := ihl fun w hw => ih w (List.mem_cons_of_mem e hw)
        rw [heightEntries, nestingEntries]
        omega
    exact hentries
  | _ => simp [pyHeight]

/-- The response of a child to a task that returned. -/
def successResponse (id : PyStr) (result : PyValue) : PyValue :=
  .dict [(.str (PyStr.ofString "id"), .str id), (.str (PyStr.ofString "ok"), .bool true),
    (.str (PyStr.ofString "result"), result)]

theorem validate_successResponse_iff (id : PyStr) (v : PyValue) :
    validateJsonTypes 1 (successResponse id v) = .ok () ↔
      jsonTyped v = true ∧ pyNesting v ≤ MAX_NESTING - 1 := by
  have hjudged := (judged_validate (successResponse id v) 1).ok_iff
  have htyped : jsonTyped (successResponse id v) = jsonTyped v := by
    simp [successResponse, jsonTyped, jsonTypedEntries]
  have hnesting : pyNesting (successResponse id v) = 1 + pyNesting v := by
    simp [successResponse, pyNesting, nestingEntries]
  rw [hjudged, htyped, hnesting]
  simp only [MAX_NESTING]
  refine and_congr_right fun _ => ?_
  omega

/-- **The result gates agree** on a value unless it is JSON, nested deeper than the cpu lane takes,
and no node of it lies deeper than the io lane takes. -/
theorem result_gates_agree_iff (id : PyStr) (v : PyValue) :
    (checkJson 0 v = .ok () ↔ validateJsonTypes 1 (successResponse id v) = .ok ()) ↔
      ¬ (jsonTyped v = true ∧ MAX_NESTING - 1 < pyNesting v ∧ pyHeight v ≤ MAX_DEPTH) := by
  have hheight := pyHeight_le_pyNesting v
  rw [checkJson_eq_ok_iff, validate_successResponse_iff]
  simp only [MAX_NESTING, MAX_DEPTH]
  by_cases htyped : jsonTyped v = true
  · simp only [htyped, true_and]
    omega
  · simp [htyped]

/-- **127 nested lists** are a result on the io lane and none on the cpu lane. -/
theorem nested_lists_split_the_gates :
    checkJson 0 (nestedList 127) = .ok () ∧
      validateJsonTypes 1 (successResponse (PyStr.ofString "7.1") (nestedList 127)) ≠ .ok () := by
  have hnesting : ∀ n, pyNesting (nestedList n) = n := by
    intro n
    induction n with
    | zero => rfl
    | succ n ih =>
      simp only [nestedList, pyNesting, nestingItems, ih]
      omega
  have hheight : pyHeight (nestedList 127) ≤ MAX_DEPTH := by
    have := pyHeight_le_pyNesting (nestedList 127)
    rw [hnesting] at this
    exact this.trans (by decide)
  constructor
  · rw [checkJson_eq_ok_iff]
    exact ⟨jsonTyped_nestedList 127, by omega⟩
  · rw [Ne, validate_successResponse_iff, hnesting]
    exact fun h => absurd h.2 (by decide)

/-! ### Exceptions on the io lane -/

/-- The countdown attribute of an exception: `None`, or what `float` makes of it (`none` if it
raises). -/
inductive Countdown
  | none
  | value (float : Option F64)

/-- What both lanes read of an exception whose `str()` gives a text: its class name, this text, its formatted
traceback and its countdown attribute, if it has one. -/
structure Exc where
  typeName : PyStr
  message : PyStr
  traceback : PyStr
  countdown : Option Countdown

/-- The cap of a traceback, in code points. -/
def TRACEBACK_CAP : ℕ := 8192

/-- The end of a text, within the cap. -/
def capped (text : PyStr) : PyStr := text.drop (text.length - TRACEBACK_CAP)

/-- `_is_retry`: by name, and with the attribute. -/
def Exc.isRetry (e : Exc) : Bool := e.typeName = PyStr.ofString "Retry" && e.countdown.isSome

/-- The fields of a dict. -/
def fieldsDict (fields : List (String × PyValue)) : PyValue :=
  .dict (fields.map fun f => (.str (PyStr.ofString f.1), f.2))

/-- An error object: `_error_dict` of the shim, `_error_json` of the child. -/
def errorDict (typeName message traceback : PyStr) (origin : String) : PyValue :=
  fieldsDict [("type", .str typeName), ("message", .str message), ("traceback", .str traceback),
    ("origin", .str (PyStr.ofString origin))]

/-- The error object of an exception. -/
def Exc.errorDict (e : Exc) : PyValue :=
  Cauli.errorDict e.typeName e.message (capped e.traceback) "task"

/-- The countdown as a double or `None`. -/
def Exc.countdownValue (e : Exc) : PyValue :=
  match e.countdown with
  | some (.value (some x)) => .float x
  | _ => .none

/-- `_finish_exc`; `_execute` builds the same fields after the id of its request. -/
def finishExc (e : Exc) : List (String × PyValue) :=
  if e.isRetry then
    [("ok", .bool false), ("retry", .bool true), ("countdown", e.countdownValue),
      ("error", e.errorDict)]
  else [("ok", .bool false), ("retryable", .bool true), ("error", e.errorDict)]

/-- Executor completion, as `ctx.rs` has it. -/
inductive LaneOutcome
  | success (result : String)
  | forceRetry (countdown : Option F64) (err : ErrorJson)
  | failure (err : ErrorJson) (retryable : Bool)

/-- `to_string_lossy`: three replacement characters for the three bytes of a lone surrogate. -/
def lossy (s : PyStr) : String :=
  String.ofList (s.flatMap fun
    | .char c => [c]
    | .surrogate _ _ => ['\uFFFD', '\uFFFD', '\uFFFD'])

/-- `get_item` with a string. -/
def getItem (v : PyValue) (k : String) : Option PyValue :=
  match v with
  | .dict entries => (entries.find? fun e =>
      match e.1 with
      | .str s => s = PyStr.ofString k
      | .other _ => false).map Prod.snd
  | _ => none

/-- `extract::<bool>`. -/
def extractBool : PyValue → Option Bool
  | .bool b => some b
  | _ => none

/-- `extract::<f64>`: a float, or an integer in range. -/
def extractF64 : PyValue → Option F64
  | .float x => some x
  | .int n => (PyNum.int n).toFloat.toOption
  | .bool b => (PyNum.int b.toNat).toFloat.toOption
  | _ => none

/-- A string of an error object, empty if it is not one. -/
def lossyItem (v : PyValue) (k : String) : String :=
  match getItem v k with
  | some (.str s) => lossy s
  | _ => ""

/-- The error of an outcome without one. -/
def unknownError : ErrorJson := ErrorJson.new "UnknownError" "executor reported failure without error"

/-- An error object read in process; one without a type is none. -/
def errorFromPy (v : PyValue) : Option ErrorJson :=
  if lossyItem v "type" = "" then none
  else some { type_ := lossyItem v "type", message := lossyItem v "message",
              traceback := lossyItem v "traceback", origin := lossyItem v "origin" }

/-- The message of the io gate. -/
def ConvError.text : ConvError → String
  | .nestedDeeper => "value nested deeper than 128 levels (circular reference?)"
  | .outOfRangeFloat => "Out of range float values are not JSON compliant"
  | .keyNotStr t => "dict keys must be str, got " ++ t
  | .notSerializable t => "Object of type " ++ t ++ " is not JSON serializable"

/-- A result that cannot be encoded. -/
def serializationError (text : String) : LaneOutcome :=
  .failure (ErrorJson.new "SerializationError" ("task result is not JSON serializable: " ++ text))
    false

section Lanes

variable (floatToken : ℚ → JsonNumber) (readF64 : JsonNumber → Option F64)
  (describe : EncodeError → String) (shimMessage : List Char → String)

/-- `encode_result`: the gate, then the encoder. -/
def encodeResult (result : PyValue) : LaneOutcome :=
  match checkJson 0 result with
  | .error e => serializationError e.text
  | .ok () =>
    match toText floatToken result with
    | none => serializationError (describe .notUtf8)
    | some t => .success (String.ofList t.chars)

/-- `outcome_from_py`. -/
def outcomeFromPy (obj : PyValue) : LaneOutcome :=
  let flag (k : String) : Bool := ((getItem obj k).bind extractBool).getD false
  if flag "ok" then
    match getItem obj "result" with
    | some r => encodeResult floatToken describe r
    | none => .success "null"
  else
    let err := ((getItem obj "error").bind errorFromPy).getD unknownError
    if flag "retry" then .forceRetry ((getItem obj "countdown").bind extractF64) err
    else
      .failure err (((getItem obj "retryable").bind extractBool).getD
        (err.type_ != "SerializationError"))

/-- An exception on the io lane. -/
def syncLane (e : Exc) : LaneOutcome := outcomeFromPy floatToken describe (fieldsDict (finishExc e))

/-! ### Exceptions on the cpu lane -/

/-- `_serialize_response_bytes`: what cannot be encoded becomes a `SerializationError`. -/
def serializeResponse (tracebackOf : EncodeError → String) (id : String)
    (fields : List (String × PyValue)) : Except EncodeError (List Char) :=
  match encode floatToken (fieldsDict (("id", .str (PyStr.ofString id)) :: fields)) with
  | .ok t => .ok t.chars
  | .error e =>
    (encode floatToken (fieldsDict [("id", .str (PyStr.ofString id)), ("ok", .bool false),
      ("retryable", .bool false),
      ("error", errorDict (PyStr.ofString "SerializationError")
        (PyStr.ofString ("task result is not JSON serializable: " ++ describe e))
        (PyStr.ofString (tracebackOf e)) "worker")])).map chars

/-- A response line. -/
structure PyResp where
  ok : Bool
  result : Option String
  error : Option ErrorJson
  retry : Bool
  countdown : Option F64
  retryable : Option Bool

/-- An error object of a line. -/
def readError (m : Member) : Option ErrorJson :=
  match m.value with
  | .obj ms => do
    let fs ← ms.mapM fun m => named ⟨m.1, m.2, []⟩
    let type_ ← readField fs "type" readString none
    let message ← readField fs "message" readString (some "")
    let traceback ← readField fs "traceback" readString (some "")
    let origin ← readField fs "origin" readString (some "")
    return { type_, message, traceback, origin }
  | _ => none

/-- A response from its fields; others are passed over. -/
def PyResp.fromFields (fs : List (String × Member)) : Option PyResp := do
  let ok ← readField fs "ok" readBool none
  let result ← readField fs "result" (readOpt readRaw) (some none)
  let error ← readField fs "error" (readOpt readError) (some none)
  let retry ← readField fs "retry" readBool (some false)
  let countdown ← readField fs "countdown" (readOpt (readDouble readF64)) (some none)
  let retryable ← readField fs "retryable" (readOpt readBool) (some none)
  return { ok, result, error, retry, countdown, retryable }

/-- `parse_pyresp`. -/
def parsePyresp (line : List Char) (fromCpu : Bool) : LaneOutcome :=
  match (textFields line).bind (PyResp.fromFields readF64) with
  | none => .failure (ErrorJson.new "WorkerShimError" (shimMessage line)) true
  | some resp =>
    if resp.ok then .success (resp.result.getD "null")
    else
      let err := resp.error.getD unknownError
      if resp.retry || (fromCpu && err.type_ == "Retry") then .forceRetry resp.countdown err
      else .failure err (resp.retryable.getD (err.type_ != "SerializationError"))

/-- An exception on the cpu lane. -/
def cpuLane (tracebackOf : EncodeError → String) (id : String) (e : Exc) :
    Except EncodeError LaneOutcome :=
  (serializeResponse floatToken describe tracebackOf id (finishExc e)).map fun line =>
    parsePyresp readF64 shimMessage line true

end Lanes

/-- Which outcome it is, and whether it is retried. -/
inductive Variant
  | success
  | forceRetry
  | failure (retryable : Bool)
  deriving DecidableEq

/-- The variant of an outcome. -/
def LaneOutcome.variant : LaneOutcome → Variant
  | .success _ => .success
  | .forceRetry _ _ => .forceRetry
  | .failure _ retryable => .failure retryable

/-- What an exception asks for. -/
def Exc.expected (e : Exc) : Variant := if e.isRetry then .forceRetry else .failure true

section Agreement

variable {floatToken : ℚ → JsonNumber} {readF64 : JsonNumber → Option F64}
  {describe tracebackOf : EncodeError → String} {shimMessage : List Char → String} {id : String}

theorem ofString_inj {s t : String} : PyStr.ofString s = PyStr.ofString t ↔ s = t := by
  constructor
  · intro h
    have hchars : s.toList = t.toList := List.map_injective_iff.2 (fun a b hab => by cases hab; rfl) h
    exact String.toList_inj.1 hchars
  · rintro rfl
    rfl

theorem getItem_fieldsDict (fields : List (String × PyValue)) (k : String) :
    getItem (fieldsDict fields) k = (fields.find? fun f => f.1 = k).map Prod.snd := by
  rw [fieldsDict, getItem, List.find?_map, Option.map_map]
  simp only [Function.comp_def, ofString_inj]

/-- **The io lane always does what the exception asks for.** -/
theorem syncLane_variant (e : Exc) : (syncLane floatToken describe e).variant = e.expected := by
  unfold syncLane finishExc Exc.expected outcomeFromPy
  cases e.isRetry <;> simp [getItem_fieldsDict, extractBool, LaneOutcome.variant]

/-- The text of an error object. -/
def errorText (typeName message traceback : List Char) (origin : String) : JsonText :=
  fieldsText [("type", .str (encodeStr typeName)), ("message", .str (encodeStr message)),
    ("traceback", .str (encodeStr traceback)), ("origin", .str (encodeStr origin.toList))]

theorem toText_str_of_utf8 {s : PyStr} {cs : List Char} (h : PyStr.utf8 s = some cs) :
    toText floatToken (.str s) = some (.str (encodeStr cs)) := by
  rw [toText, h]
  rfl

theorem toText_ofString (s : String) :
    toText floatToken (.str (PyStr.ofString s)) = some (.str (encodeStr s.toList)) :=
  toText_str_of_utf8 (PyStr.utf8_map_char s.toList)

/-- Fields that are encoded one by one make an object. -/
theorem toText_fieldsDict {fields : List (String × PyValue)} {fs : List (String × JsonText)}
    (h : List.Forall₂ (fun f g => f.1 = g.1 ∧ toText floatToken f.2 = some g.2) fields fs) :
    toText floatToken (fieldsDict fields) = some (fieldsText fs) := by
  have hentries : entriesText floatToken (fields.map fun f => (.str (PyStr.ofString f.1), f.2)) =
      some (fs.map fun f => (encodeStr f.1.toList, f.2)) := by
    induction h with
    | nil => rfl
    | @cons f g fields fs hfg _ ih =>
      rw [List.map_cons, List.map_cons, entriesText, PyStr.ofString, PyStr.utf8_map_char, hfg.2, ih,
        hfg.1]
      rfl
  rw [fieldsDict, toText, hentries]
  rfl

theorem toText_errorDict {typeName message traceback : PyStr} {tn msg tb : List Char}
    (htn : PyStr.utf8 typeName = some tn) (hmsg : PyStr.utf8 message = some msg)
    (htb : PyStr.utf8 traceback = some tb) (origin : String) :
    toText floatToken (errorDict typeName message traceback origin) =
      some (errorText tn msg tb origin) :=
  toText_fieldsDict (.cons ⟨rfl, toText_str_of_utf8 htn⟩ (.cons ⟨rfl, toText_str_of_utf8 hmsg⟩
    (.cons ⟨rfl, toText_str_of_utf8 htb⟩ (.cons ⟨rfl, toText_ofString origin⟩ .nil))))

/-- The error that is read back. -/
def decodedError (tn msg tb : List Char) (origin : String) : ErrorJson :=
  { type_ := String.ofList tn, message := String.ofList msg, traceback := String.ofList tb, origin }

theorem readOpt_readError (key : List StrPart) (raw tn msg tb : List Char) (origin : String) :
    readOpt readError ⟨key, errorText tn msg tb origin, raw⟩ =
      some (some (decodedError tn msg tb origin)) := by
  have hread : readError ⟨key, errorText tn msg tb origin, raw⟩ =
      some (decodedError tn msg tb origin) := by
    simp [readError, errorText, fieldsText, named, readField, readString, decodedError]
  show (readError _).map some = _
  rw [hread]
  rfl

theorem encode_of_toText {v : PyValue} {t : JsonText} (htyped : jsonTyped v = true)
    (hnesting : pyNesting v ≤ MAX_NESTING) (htext : toText floatToken v = some t) :
    encode floatToken v = .ok t := by
  have hvalid : validateJsonTypes 1 v = .ok () :=
    (judged_validate v 1).ok_iff.2 ⟨htyped, by omega⟩
  rw [encode, hvalid, htext]
  rfl

/-- The text of a failure response. -/
def failureText (id : String) (retryable : Bool) (err : JsonText) : JsonText :=
  fieldsText [("id", .str (encodeStr id.toList)), ("ok", .bool false),
    ("retryable", .bool retryable), ("error", err)]

/-- The text of a forced retry; the countdown is a number or null. -/
def retryText (id : String) (countdown : Option JsonNumber) (err : JsonText) : JsonText :=
  fieldsText [("id", .str (encodeStr id.toList)), ("ok", .bool false), ("retry", .bool true),
    ("countdown", countdown.elim .null .num), ("error", err)]

section Encoding

variable {typeName message traceback : PyStr} {tn msg tb : List Char}
  (htn : PyStr.utf8 typeName = some tn) (hmsg : PyStr.utf8 message = some msg)
  (htb : PyStr.utf8 traceback = some tb)

include htn hmsg htb

/-- A failure is encoded if its texts are. -/
theorem encode_failure (id : String) (retryable : Bool) (origin : String) :
    encode floatToken (fieldsDict [("id", .str (PyStr.ofString id)), ("ok", .bool false),
        ("retryable", .bool retryable), ("error", errorDict typeName message traceback origin)]) =
      .ok (failureText id retryable (errorText tn msg tb origin)) := by
  refine encode_of_toText rfl (by simp [fieldsDict, errorDict, pyNesting, nestingEntries]; decide)
    (toText_fieldsDict ?_)
  exact .cons ⟨rfl, toText_ofString id⟩ (.cons ⟨rfl, rfl⟩ (.cons ⟨rfl, rfl⟩
    (.cons ⟨rfl, toText_errorDict htn hmsg htb origin⟩ .nil)))

/-- A forced retry is encoded if its texts are and its countdown is `None` or finite. -/
theorem encode_retry (id : String) {countdown : PyValue} {n : Option JsonNumber}
    (htyped : jsonTyped countdown = true) (hnesting : pyNesting countdown = 0)
    (hcountdown : toText floatToken countdown = some (n.elim .null .num)) (origin : String) :
    encode floatToken (fieldsDict [("id", .str (PyStr.ofString id)), ("ok", .bool false),
        ("retry", .bool true), ("countdown", countdown),
        ("error", errorDict typeName message traceback origin)]) =
      .ok (retryText id n (errorText tn msg tb origin)) := by
  refine encode_of_toText ?_ ?_ (toText_fieldsDict ?_)
  · simp [fieldsDict, errorDict, jsonTyped, jsonTypedEntries, htyped]
  · simp [fieldsDict, errorDict, pyNesting, nestingEntries, hnesting]
    decide
  · exact .cons ⟨rfl, toText_ofString id⟩ (.cons ⟨rfl, rfl⟩ (.cons ⟨rfl, rfl⟩
      (.cons ⟨rfl, hcountdown⟩ (.cons ⟨rfl, toText_errorDict htn hmsg htb origin⟩ .nil))))

end Encoding

/-- The fields of a response, looked up. -/
theorem PyResp.fromFields_chars (tn msg tb : List Char) (origin : String)
    {fs : List (String × JsonText)} (hfs : (fs.map Prod.fst).Nodup)
    (hok : fs.lookup "ok" = some (.bool false)) (hresult : fs.lookup "result" = none)
    (herror : fs.lookup "error" = some (errorText tn msg tb origin)) :
    PyResp.fromFields readF64 (fs.map fun f => fieldMember f.1 f.2.chars f.2) = do
      let retry ← (fs.lookup "retry").elim (some false) fun t => readBool ⟨[], t, []⟩
      let countdown ← (fs.lookup "countdown").elim (some none) fun t =>
        readOpt (readDouble readF64) ⟨[], t, []⟩
      let retryable ← (fs.lookup "retryable").elim (some none) fun t => readOpt readBool ⟨[], t, []⟩
      return ⟨false, none, some (decodedError tn msg tb origin), retry, countdown, retryable⟩ := by
  have hrawless : ∀ (t : JsonText) (key : List StrPart) (raw : List Char),
      readOpt (readDouble readF64) ⟨key, t, raw⟩ = readOpt (readDouble readF64) ⟨[], t, []⟩ ∧
        readOpt readBool ⟨key, t, raw⟩ = readOpt readBool ⟨[], t, []⟩ := by
    intro t key raw
    cases t <;> exact ⟨rfl, rfl⟩
  rw [PyResp.fromFields]
  simp only [readField_chars hfs, hok, hresult, herror, Option.elim_some, Option.elim_none,
    readOpt_readError, (hrawless _ _ _).1, (hrawless _ _ _).2]
  rfl

/-- A failure is read back, unless its type is named `Retry`. -/
theorem parsePyresp_failure (id : String) (retryable : Bool) (tn msg tb : List Char)
    (origin : String) :
    (parsePyresp readF64 shimMessage
        (failureText id retryable (errorText tn msg tb origin)).chars true).variant =
      if String.ofList tn = "Retry" then .forceRetry else .failure retryable := by
  have hresp : PyResp.fromFields readF64 ([("id", .str (encodeStr id.toList)),
      ("ok", .bool false), ("retryable", .bool retryable),
      ("error", errorText tn msg tb origin)].map fun f => fieldMember f.1 f.2.chars f.2) =
        some ⟨false, none, some (decodedError tn msg tb origin), false, none, some retryable⟩ := by
    refine (PyResp.fromFields_chars tn msg tb origin ?_ ?_ ?_ ?_).trans ?_
    · show ["id", "ok", "retryable", "error"].Nodup
      decide
    all_goals rfl
  rw [parsePyresp, failureText, textFields_chars, Option.bind_some, hresp]
  show (if _ then LaneOutcome.forceRetry _ _ else LaneOutcome.failure _ retryable).variant = _
  by_cases hretry : String.ofList tn = "Retry" <;>
    simp [hretry, decodedError, LaneOutcome.variant]

/-- A forced retry is read back if serde reads its countdown. -/
theorem parsePyresp_retry (id : String) (countdown : Option JsonNumber) (tn msg tb : List Char)
    (origin : String) :
    (parsePyresp readF64 shimMessage
        (retryText id countdown (errorText tn msg tb origin)).chars true).variant =
      if ∀ n ∈ countdown, (readF64 n).isSome then .forceRetry else .failure true := by
  have hresp : PyResp.fromFields readF64 ([("id", .str (encodeStr id.toList)), ("ok", .bool false),
      ("retry", .bool true), ("countdown", countdown.elim .null .num),
      ("error", errorText tn msg tb origin)].map fun f => fieldMember f.1 f.2.chars f.2) =
        (readOpt (readDouble readF64) ⟨[], countdown.elim .null .num, []⟩).bind fun cd =>
          some ⟨false, none, some (decodedError tn msg tb origin), true, cd, none⟩ := by
    refine (PyResp.fromFields_chars tn msg tb origin ?_ ?_ ?_ ?_).trans ?_
    · show ["id", "ok", "retry", "countdown", "error"].Nodup
      decide
    all_goals rfl
  rw [parsePyresp, retryText, textFields_chars, Option.bind_some, hresp]
  cases countdown with
  | none => rfl
  | some n =>
    have hread : readOpt (readDouble readF64) ⟨[], (some n).elim .null .num, []⟩ =
        (readF64 n).map some := rfl
    rw [hread]
    cases hn : readF64 n <;> simp [hn, LaneOutcome.variant]

/-- What cannot be encoded becomes a failure for good. -/
theorem cpuLane_of_error {e : Exc} {r : EncodeError}
    (h : encode floatToken (fieldsDict (("id", .str (PyStr.ofString id)) :: finishExc e)) =
      .error r) :
    (cpuLane floatToken readF64 describe shimMessage tracebackOf id e).map LaneOutcome.variant =
      .ok (.failure false) := by
  have hfallback : encode floatToken (fieldsDict [("id", .str (PyStr.ofString id)),
      ("ok", .bool false), ("retryable", .bool false),
      ("error", errorDict (PyStr.ofString "SerializationError")
        (PyStr.ofString ("task result is not JSON serializable: " ++ describe r))
        (PyStr.ofString (tracebackOf r)) "worker")]) = _ :=
    encode_failure (PyStr.utf8_map_char _) (PyStr.utf8_map_char _) (PyStr.utf8_map_char _) id false
      "worker"
  rw [cpuLane, serializeResponse, h]
  simp only [hfallback, Except.map]
  rw [parsePyresp_failure, if_neg (by simp)]

/-- What the cpu lane needs to carry an exception over: texts without lone surrogates, a countdown of
a forced retry that is `None`, not numeric, or finite and readable, and no class named `Retry`
without the attribute. -/
structure AcrossLanes (readF64 : JsonNumber → Option F64) (floatToken : ℚ → JsonNumber) (e : Exc) :
    Prop where
  typeName : (PyStr.utf8 e.typeName).isSome
  message : (PyStr.utf8 e.message).isSome
  traceback : (PyStr.utf8 (capped e.traceback)).isSome
  countdown : e.isRetry = true → ∀ x, e.countdown = some (.value (some x)) →
    ∃ q, x = .finite q ∧ (readF64 (floatToken q)).isSome
  named : e.typeName = PyStr.ofString "Retry" → e.countdown.isSome

/-- Every value of an encoded dict is encoded. -/
theorem isSome_toText_of_mem {fields : List (String × PyValue)} {t : JsonText}
    (h : toText floatToken (fieldsDict fields) = some t) :
    ∀ f ∈ fields, (toText floatToken f.2).isSome := by
  obtain ⟨ms, hms, -⟩ := Option.map_eq_some_iff.1 h
  obtain ⟨fs, hfs, -⟩ := exists_encoded hms
  intro f hf
  obtain ⟨t, -, ht⟩ := hfs.values f hf
  rw [ht]
  rfl

/-- An exception whose response is encoded has encodable texts and, if it is a forced retry, no
countdown out of range. -/
theorem of_encode_finishExc {e : Exc} {t : JsonText}
    (h : encode floatToken (fieldsDict (("id", .str (PyStr.ofString id)) :: finishExc e)) = .ok t) :
    (PyStr.utf8 e.typeName).isSome ∧ (PyStr.utf8 e.message).isSome ∧
      (PyStr.utf8 (capped e.traceback)).isSome ∧
      (e.isRetry = true → ∀ x, e.countdown = some (.value (some x)) → x.isFinite = true) := by
  obtain ⟨hvalid, htext⟩ := encode_eq_ok h
  have hmem : ("error", e.errorDict) ∈ finishExc e := by
    unfold finishExc
    split_ifs <;> simp
  have herror := isSome_toText_of_mem htext _ (List.mem_cons_of_mem _ hmem)
  obtain ⟨t', ht'⟩ := Option.isSome_iff_exists.1 herror
  have hstr : ∀ name s, (name, PyValue.str s) ∈ [("type", PyValue.str e.typeName),
      ("message", .str e.message), ("traceback", .str (capped e.traceback)),
      ("origin", .str (PyStr.ofString "task"))] → (PyStr.utf8 s).isSome := by
    intro name s hs
    have := isSome_toText_of_mem ht' _ hs
    rwa [toText, Option.isSome_map] at this
  refine ⟨hstr "type" _ (by simp), hstr "message" _ (by simp), hstr "traceback" _ (by simp), ?_⟩
  intro hretry x hx
  have hcountdown : ("countdown", PyValue.float x) ∈ finishExc e := by
    simp [finishExc, hretry, Exc.countdownValue, hx]
  rw [fieldsDict, validateJsonTypes, if_neg (by decide)] at hvalid
  have hfloat := validate_of_mem_entries hvalid _
    (List.mem_map.2 ⟨_, List.mem_cons_of_mem _ hcountdown, rfl⟩)
  by_contra hfinite
  simp [validateJsonTypes, hfinite] at hfloat

/-- A line that is encoded is read back. -/
theorem cpuLane_of_encode {e : Exc} {t : JsonText}
    (h : encode floatToken (fieldsDict (("id", .str (PyStr.ofString id)) :: finishExc e)) = .ok t) :
    (cpuLane floatToken readF64 describe shimMessage tracebackOf id e).map LaneOutcome.variant =
      .ok (parsePyresp readF64 shimMessage t.chars true).variant := by
  rw [cpuLane, serializeResponse, h]
  rfl

section Carried

variable {e : Exc} {tn msg tb : List Char} (htn : PyStr.utf8 e.typeName = some tn)
  (hmsg : PyStr.utf8 e.message = some msg) (htb : PyStr.utf8 (capped e.traceback) = some tb)

include htn hmsg htb

/-- A forced retry with encodable texts, its countdown written as null or as a number. -/
theorem cpuLane_of_retry (hretry : e.isRetry = true) {n : Option JsonNumber}
    (htyped : jsonTyped e.countdownValue = true) (hnesting : pyNesting e.countdownValue = 0)
    (hcountdown : toText floatToken e.countdownValue = some (n.elim .null .num)) :
    (cpuLane floatToken readF64 describe shimMessage tracebackOf id e).map LaneOutcome.variant =
      .ok (if ∀ m ∈ n, (readF64 m).isSome then .forceRetry else .failure true) := by
  have hfields : finishExc e = [("ok", .bool false), ("retry", .bool true),
      ("countdown", e.countdownValue), ("error", e.errorDict)] := if_pos hretry
  have henc : encode floatToken (fieldsDict (("id", .str (PyStr.ofString id)) :: finishExc e)) =
      .ok (retryText id n (errorText tn msg tb "task")) := by
    rw [hfields]
    exact encode_retry htn hmsg htb id htyped hnesting hcountdown "task"
  rw [cpuLane_of_encode henc, parsePyresp_retry]

/-- A forced retry with encodable texts and a countdown in range is one if serde reads it. -/
theorem cpuLane_of_retry_iff (hretry : e.isRetry = true)
    (hfinite : ∀ x, e.countdown = some (.value (some x)) → x.isFinite = true) :
    (cpuLane floatToken readF64 describe shimMessage tracebackOf id e).map LaneOutcome.variant =
        .ok .forceRetry ↔
      ∀ x, e.countdown = some (.value (some x)) →
        ∃ q, x = .finite q ∧ (readF64 (floatToken q)).isSome := by
  by_cases hcountdown : ∃ x, e.countdown = some (.value (some x))
  · obtain ⟨x, hx⟩ := hcountdown
    have hvalue : e.countdownValue = .float x := by simp [Exc.countdownValue, hx]
    obtain ⟨q, rfl⟩ : ∃ q, x = .finite q := by
      have hxf := hfinite x hx
      cases x with
      | finite q => exact ⟨q, rfl⟩
      | inf neg => cases hxf
      | nan => cases hxf
    rw [cpuLane_of_retry htn hmsg htb hretry (n := some (floatToken q)) (by rw [hvalue]; rfl)
      (by rw [hvalue]; rfl) (by rw [hvalue]; rfl)]
    constructor
    · intro h y hy
      obtain rfl : F64.finite q = y := by simpa [hx] using hy
      refine ⟨q, rfl, ?_⟩
      by_contra hread
      simp [hread] at h
    · intro h
      obtain ⟨q', hq', hread⟩ := h _ hx
      obtain rfl := F64.finite.inj hq'
      simp [hread]
  · have hvalue : e.countdownValue = .none := by
      unfold Exc.countdownValue
      split
      · next x hx => exact absurd ⟨x, hx⟩ hcountdown
      · rfl
    rw [cpuLane_of_retry htn hmsg htb hretry (n := none) (by rw [hvalue]; rfl) (by rw [hvalue]; rfl)
      (by rw [hvalue]; rfl), if_pos nofun]
    exact ⟨fun _ x hx => absurd ⟨x, hx⟩ hcountdown, fun _ => rfl⟩

/-- Any other exception with encodable texts, unless its class is named `Retry`. -/
theorem cpuLane_of_failure (hretry : e.isRetry = false) :
    (cpuLane floatToken readF64 describe shimMessage tracebackOf id e).map LaneOutcome.variant =
      .ok (if String.ofList tn = "Retry" then .forceRetry else .failure true) := by
  have hfields : finishExc e = [("ok", .bool false), ("retryable", .bool true),
      ("error", e.errorDict)] := if_neg (by simp [hretry])
  rw [cpuLane_of_encode (t := failureText id true (errorText tn msg tb "task"))
    (by rw [hfields]; exact encode_failure htn hmsg htb id true "task"), parsePyresp_failure]

end Carried

/-- **The cpu lane does what the exception asks for exactly when it can be carried over.** -/
theorem cpuLane_variant_iff (e : Exc) :
    (cpuLane floatToken readF64 describe shimMessage tracebackOf id e).map LaneOutcome.variant =
        .ok e.expected ↔ AcrossLanes readF64 floatToken e := by
  by_cases hencodable : (PyStr.utf8 e.typeName).isSome ∧ (PyStr.utf8 e.message).isSome ∧
      (PyStr.utf8 (capped e.traceback)).isSome ∧
      (e.isRetry = true → ∀ x, e.countdown = some (.value (some x)) → x.isFinite = true)
  · obtain ⟨hstn, hsmsg, hstb, hfinite⟩ := hencodable
    obtain ⟨tn, htn⟩ := Option.isSome_iff_exists.1 hstn
    obtain ⟨msg, hmsg⟩ := Option.isSome_iff_exists.1 hsmsg
    obtain ⟨tb, htb⟩ := Option.isSome_iff_exists.1 hstb
    cases hretry : e.isRetry with
    | true =>
      have hattr : e.countdown.isSome = true := by
        simp only [Exc.isRetry, Bool.and_eq_true] at hretry
        exact hretry.2
      rw [Exc.expected, if_pos hretry, cpuLane_of_retry_iff htn hmsg htb hretry (hfinite hretry)]
      exact ⟨fun h => ⟨hstn, hsmsg, hstb, fun _ => h, fun _ => hattr⟩, fun h => h.countdown hretry⟩
    | false =>
      have hname : String.ofList tn = "Retry" ↔ e.typeName = PyStr.ofString "Retry" := by
        rw [PyStr.eq_map_of_utf8 htn, ← ofString_inj, PyStr.ofString, String.toList_ofList]
      rw [Exc.expected, if_neg (by simp [hretry]), cpuLane_of_failure htn hmsg htb hretry]
      have hno : e.typeName = PyStr.ofString "Retry" → ¬ e.countdown.isSome = true := by
        intro htype hattr
        simp [Exc.isRetry, htype, hattr] at hretry
      constructor
      · intro h
        refine ⟨hstn, hsmsg, hstb, fun hr => absurd hr (by simp [hretry]), fun htype => ?_⟩
        rw [if_pos (hname.2 htype)] at h
        cases h
      · intro h
        rw [if_neg fun heq => hno (hname.1 heq) (h.named (hname.1 heq))]
  · cases henc : encode floatToken (fieldsDict (("id", .str (PyStr.ofString id)) :: finishExc e)) with
    | ok t => exact absurd (of_encode_finishExc henc) hencodable
    | error err =>
      rw [cpuLane_of_error henc]
      constructor
      · intro h
        unfold Exc.expected at h
        split_ifs at h <;> cases h
      · intro h
        refine absurd ⟨h.typeName, h.message, h.traceback, fun hr x hx => ?_⟩ hencodable
        obtain ⟨q, rfl, -⟩ := h.countdown hr x hx
        rfl

end Agreement

/-- Texts of the errors below. -/
def describeSample : EncodeError → String
  | .rejected _ => "countdown: Out of range float values are not JSON compliant"
  | .notUtf8 => "surrogates not allowed"

/-- An exception of a class with a message and a countdown. -/
def sampleExc (typeName : String) (message : PyStr) (countdown : Option Countdown) : Exc :=
  { typeName := PyStr.ofString typeName, message, traceback := PyStr.ofString "Traceback", countdown }

/-- The outcome of an exception on the cpu lane. -/
def sampleVariant (e : Exc) : Except EncodeError Variant :=
  (cpuLane wholeToken nearestDouble describeSample (fun _ => "") describeSample "7.1" e).map
    LaneOutcome.variant

end Cauli
