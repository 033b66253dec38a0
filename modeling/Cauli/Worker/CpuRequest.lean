import Cauli.Client.Task
import Cauli.Worker.Gates
import Cauli.Worker.Hop
import Cauli.Worker.Lanes

/-!
# The request line of a cpu task (`worker/src/exec.rs`, `py/cauli/_exec.py`)

The worker writes a request as one line: the arguments are copied as the producer wrote them, and a
newline in them becomes a space. The child decodes the line and answers with the id of the request;
when the decoder refuses the line, the id is taken from its front.

* `requestLine`: what `run_cpu_task` hands to the pool;
* `Raised`: an exception whose `str()` may raise another one;
* `handleRequestLine`, `execute`: what the child makes of a line;
* `Leaves`: the exceptions that leave `_execute`, by what raised them;
* `DecodesObjects`: what the child relies on in its decoder;
* `bareId_wireId`: the task sees the id of the envelope;
* `cpu_request_framed`: the line is one line and spells the request, and an answer has its id; there
  is an answer exactly if `str()` of what leaves `_execute` raises nothing.
-/

namespace Cauli

open JsonToken JsonText

/-! ### The line -/

/-- `args_raw`. -/
def Envelope.argsRaw (env : Envelope) : List Char := (env.args.getD "[]").toList

/-- `kwargs_raw`. -/
def Envelope.kwargsRaw (env : Envelope) : List Char := (env.kwargs.getD "\x7b\x7d").toList

/-- The id on the wire; `seq` is what `CPU_SEQ` gives. -/
def wireId (env : Envelope) (seq : ℕ) : String :=
  env.id ++ "." ++ String.ofList (Nat.toDigits 16 seq)

/-- The fields of a `CpuRequest` with their texts. -/
def cpuRequestTexts (env : Envelope) (seq : ℕ) : List (String × List Char) :=
  [("id", (strTree (wireId env seq)).chars),
    ("task", (strTree env.task).chars),
    ("args", env.argsRaw),
    ("kwargs", env.kwargsRaw),
    ("soft_timeout_ms", (optTree wholeTree env.softTimeoutMs).chars)]

/-- `serde_json::to_string(&CpuRequest)`. -/
def cpuRequest (env : Envelope) (seq : ℕ) : List Char := objectText (cpuRequestTexts env seq)

/-- A newline becomes a space. -/
def unbreak (c : Char) : Char := if c = '\n' then ' ' else c

/-- The request line, without its terminator. -/
def requestLine (env : Envelope) (seq : ℕ) : List Char :=
  let req := cpuRequest env seq
  if '\n' ∈ req then req.map unbreak else req

/-! ### The child -/

/-- `TaskContext`: what `current_task` reports. -/
structure TaskContext where
  id : Option PyStr
  task : PyValue
  retries : Option ℤ
  maxRetries : Option ℤ
  queue : PyValue

/-- An exception in the child: `str()` of it, and the test for its countdown, may raise. -/
inductive Raised
  | mk (typeName traceback : PyStr) (countdown : Except Raised (Option Countdown))
    (str : Except Raised PyStr)

/-- `str(exc)`. -/
def Raised.str : Raised → Except Raised PyStr
  | .mk _ _ _ str => str

/-- `_error_json`. -/
def Raised.errorJson : Raised → Except Raised PyValue
  | .mk typeName traceback _ str => do
    return errorDict typeName (← str) (capped traceback) "task"

/-- What `_execute` reads of an exception of a task: the countdown of a `Retry` first. -/
def Raised.exc : Raised → Except Raised Exc
  | .mk typeName traceback countdown str => do
    let countdown ← if typeName = PyStr.ofString "Retry" then countdown else pure none
    return ⟨typeName, ← str, traceback, countdown⟩

/-- A registered task, by what it does in its context with `args`, `kwargs` and `soft_timeout_ms`;
the hooks of an `async` one run inside it. -/
structure CpuTask where
  isAsync : Bool
  run : TaskContext → PyValue → PyValue → PyValue → Except Raised PyValue

/-- The application in a child: its tasks by name, and what its hooks let through, which is no
`Exception`. The rest is Python's: `repr`, `str`, `int` and what a value without a method `get`
raises. -/
structure ChildApp where
  tasks : PyValue → Except Raised (Option CpuTask)
  before : Option Raised
  after : Option Raised
  repr : PyValue → PyStr
  str : PyValue → PyStr
  int : PyValue → Except Raised ℤ
  noGet : PyValue → Raised

variable (app : ChildApp) (request : PyValue)

/-- `request.get(k)`. -/
def requestGet (k : String) : Except Raised PyValue :=
  match request with
  | .dict _ => .ok ((getItem request k).getD .none)
  | _ => .error (app.noGet request)

/-- `v or dflt`. -/
def orDefault (v dflt : PyValue) : PyValue :=
  match v with
  | .none | .bool false | .int 0 | .str [] | .list [] | .dict [] => dflt
  | .float x => if x = .finite 0 then dflt else v
  | _ => v

/-- A response: its id first. -/
def response (id : PyValue) (fields : List (String × PyValue)) : PyValue :=
  fieldsDict (("id", id) :: fields)

/-- `[0-9a-f]`. -/
def isLowerHex : PyChar → Bool
  | .char c => c.isDigit || ('a' ≤ c && c ≤ 'f')
  | .surrogate _ _ => false

/-- `_WIRE_SUFFIX_RE.sub("", s)`: no digit is a dot, so the match starts at the last dot. -/
def dropWireSuffix (s : PyStr) : PyStr :=
  let front := s.rdropWhile isLowerHex
  if front.length < s.length ∧ front.getLast? = some (.char '.') then front.dropLast else s

/-- The id a task sees: without the suffix of the wire. -/
def bareId : PyValue → PyValue
  | .str s => .str (dropWireSuffix s)
  | v => v

/-- A count of the context, if the request has it. -/
def contextCount (k : String) : Except Raised (Option ℤ) := do
  match ← requestGet app request k with
  | .none => return none
  | v => (app.int v).map some

/-- `make_context`. -/
def makeContext (taskId : PyValue) : Except Raised TaskContext := do
  let rawId ← match taskId with
    | .none => requestGet app request "id"
    | v => pure v
  let retries ← contextCount app request "retries"
  let maxRetries ← contextCount app request "max_retries"
  return {
    id := match rawId with
      | .none => none
      | .str s => some s
      | v => some (app.str v)
    task := ← requestGet app request "task"
    retries := retries
    maxRetries := maxRetries
    queue := ← requestGet app request "queue" }

/-- `_execute`: run one task request and build the response. -/
def execute : Except Raised PyValue := do
  let requestId ← requestGet app request "id"
  let taskName ← requestGet app request "task"
  let args := orDefault (← requestGet app request "args") (.list [])
  let kwargs := orDefault (← requestGet app request "kwargs") (.dict [])
  let softTimeoutMs ← requestGet app request "soft_timeout_ms"
  match ← app.tasks taskName with
  | none =>
    return response requestId [("ok", .bool false), ("retryable", .bool false),
      ("error", errorDict (PyStr.ofString "UnregisteredTask")
        (PyStr.ofString "task " ++ app.repr taskName ++
          PyStr.ofString " is not registered in this app")
        [] "worker")]
  | some task =>
    let context ← makeContext app request (bareId requestId)
    let outcome : Except Raised PyValue :=
      match if task.isAsync then none else app.before with
      | some e => .error e
      | none =>
        match task.run context args kwargs softTimeoutMs with
        | .ok result => .ok (response requestId [("ok", .bool true), ("result", result)])
        | .error e => e.exc.map fun exc => response requestId (finishExc exc)
    -- the `finally` block: what the hooks let through replaces the outcome
    match if task.isAsync then none else app.after with
    | some e => .error e
    | none => outcome

/-- `_REQUEST_ID_RE.match`: the first group. -/
def requestIdMatch (line : List Char) : Option (List Char) :=
  let front := ['\x7b', '"', 'i', 'd', '"', ':', '"']
  if line.take front.length = front then
    let rest := line.drop front.length
    let group := rest.takeWhile fun c => c != '"' && c != '\\'
    if (rest.drop group.length).head? = some '"' then some group else none
  else none

/-- `_handle_request_line`; `decode` gives the text of an error of the decoder. What the report of an
exception raises is raised. -/
def handleRequestLine (decode : List Char → Except PyStr PyValue) (line : List Char) :
    Except Raised PyValue :=
  match decode line with
  | .error message =>
    return response (((requestIdMatch line).map fun id => .str (id.map .char)).getD .none)
      [("ok", .bool false), ("retryable", .bool false),
        ("error", errorDict (PyStr.ofString "ProtocolError")
          (PyStr.ofString "malformed request line: " ++ message) [] "worker")]
  | .ok request =>
    match execute app request with
    | .ok resp => return resp
    | .error e => do
      let error ← e.errorJson
      return response ((getItem request "id").getD .none)
        [("ok", .bool false), ("retryable", .bool true), ("error", error)]

/-- The value of a field of a request that is a dict. -/
def requestField (k : String) : PyValue := (getItem request k).getD .none

/-- The task of a request was found and its context made. -/
structure Prepared (task : CpuTask) (context : TaskContext) : Prop where
  found : app.tasks (requestField request "task") = .ok (some task)
  made : makeContext app request (bareId (requestField request "id")) = .ok context

/-- What the hooks around a task let through: a later exception takes the place of an earlier. -/
def hooksRaise (task : CpuTask) : Option Raised := if task.isAsync then none else app.after <|> app.before

/-- The exceptions that leave `_execute` for a request that is a dict: the lookup of the task, the
counts of the context or a hook raised it, or the report of an exception of the task did. -/
inductive Leaves : Raised → Prop
  | lookup {e} (h : app.tasks (requestField request "task") = .error e) : Leaves e
  | context {task e} (h : app.tasks (requestField request "task") = .ok (some task))
    (hmake : makeContext app request (bareId (requestField request "id")) = .error e) : Leaves e
  | hook {task context e} (h : Prepared app request task context)
    (hhook : hooksRaise app task = some e) : Leaves e
  | report {task context raised e} (h : Prepared app request task context)
    (hhook : hooksRaise app task = none)
    (hrun : task.run context (orDefault (requestField request "args") (.list []))
      (orDefault (requestField request "kwargs") (.dict [])) (requestField request "soft_timeout_ms") =
        .error raised)
    (hreport : raised.exc = .error e) : Leaves e

/-- What the child relies on in its decoder: an object becomes a dict that has, under a name that
occurs once with a string for its value, this string. -/
def DecodesObjects (decode : List Char → Except PyStr PyValue) : Prop :=
  ∀ text fs v, textFields text = some fs → decode text = .ok v → ∀ name s,
    readField fs name readString none = some s → getItem v name = some (.str (PyStr.ofString s))

/-! ### The line is one line and spells the request -/

theorem keepsSpelling_unbreak : KeepsSpelling unbreak := by
  constructor
  · intro c hc
    refine if_neg ?_
    rintro rfl
    exact absurd hc (by decide)
  · intro c hc
    unfold unbreak
    split_ifs
    · rfl
    · exact hc

theorem requestLine_eq (env : Envelope) (seq : ℕ) :
    requestLine env seq = (cpuRequest env seq).map unbreak := by
  unfold requestLine
  simp only
  split_ifs with hline
  · rfl
  · have hkeep : ∀ c ∈ cpuRequest env seq, unbreak c = c := by
      intro c hc
      refine if_neg ?_
      rintro rfl
      exact hline hc
    conv_lhs => rw [← List.map_id (cpuRequest env seq)]
    exact List.map_congr_left fun c hc => (hkeep c hc).symm

theorem newline_not_mem_requestLine (env : Envelope) (seq : ℕ) : '\n' ∉ requestLine env seq := by
  rw [requestLine_eq, List.mem_map]
  rintro ⟨c, -, hc⟩
  unfold unbreak at hc
  split_ifs at hc with hne
  · cases hc
  · exact hne hc

theorem spells_objectText {fs : List (String × List Char × JsonText)}
    (h : ∀ f ∈ fs, Spells f.2.1 f.2.2) :
    Spells (objectText (fs.map fun f => (f.1, f.2.1)))
      (fieldsText (fs.map fun f => (f.1, f.2.2))) := by
  have hnil : IsWs [] := by simp [IsWs]
  have hobj := Spells.obj hnil
    (fs.map fun f => (⟨[], encodeStr f.1.toList, [], f.2.1, f.2.2⟩, []))
    (List.forall_mem_map.2 fun f _ => hnil) (List.forall_mem_map.2 fun f _ => ⟨hnil, hnil⟩)
    (List.forall_mem_map.2 h)
  simpa [objectText, fieldsText, memberChars, MemberText.chars, Function.comp_def] using hobj

theorem map_objectText {f : Char → Char} (hf : KeepsSpelling f) (fs : List (String × List Char)) :
    (objectText fs).map f = objectText (fs.map fun x => (x.1, x.2.map f)) := by
  have hopen : f '\x7b' = '\x7b' := hf.visible '\x7b' (by decide)
  have hquote : f '"' = '"' := hf.visible '"' (by decide)
  have hcolon : f ':' = ':' := hf.visible ':' (by decide)
  rw [objectText, objectText, List.map_cons, hopen, hf.map_seqChars (by decide)]
  simp [Function.comp_def, memberChars, hquote, hcolon, hf.map_partsChars]

/-- The fields of a request with their texts and trees. -/
def cpuRequestFields (env : Envelope) (seq : ℕ) (a k : JsonText) :
    List (String × List Char × JsonText) :=
  [compact "id" (strTree (wireId env seq)), compact "task" (strTree env.task),
    ("args", env.argsRaw, a), ("kwargs", env.kwargsRaw, k),
    compact "soft_timeout_ms" (optTree wholeTree env.softTimeoutMs)]

/-- The tree of a request. -/
def cpuRequestTree (env : Envelope) (seq : ℕ) (a k : JsonText) : JsonText :=
  fieldsText [("id", strTree (wireId env seq)), ("task", strTree env.task), ("args", a),
    ("kwargs", k), ("soft_timeout_ms", optTree wholeTree env.softTimeoutMs)]

variable {env : Envelope} {a k : JsonText}

theorem spells_cpuRequestFields (ha : Spells env.argsRaw a) (hk : Spells env.kwargsRaw k) (seq : ℕ) :
    ∀ f ∈ cpuRequestFields env seq a k, Spells f.2.1 f.2.2 := by
  simp only [cpuRequestFields, List.forall_mem_cons, List.not_mem_nil, false_implies, implies_true,
    and_true]
  exact ⟨spells_chars _, spells_chars _, ha, hk, spells_chars _⟩

theorem spells_cpuRequest (ha : Spells env.argsRaw a) (hk : Spells env.kwargsRaw k) (seq : ℕ) :
    Spells (cpuRequest env seq) (cpuRequestTree env seq a k) :=
  spells_objectText (spells_cpuRequestFields ha hk seq)

/-- The captures of an envelope spell values, also when a default stands for them. -/
theorem exists_spells_raw {readF64 : JsonNumber → Option F64} {text : List Char}
    (h : Envelope.fromText readF64 text = some env) :
    (∃ a, Spells env.argsRaw a ∧ skipWs env.argsRaw = env.argsRaw) ∧
      ∃ k, Spells env.kwargsRaw k ∧ skipWs env.kwargsRaw = env.kwargsRaw := by
  obtain ⟨hargs, hkwargs⟩ := rawOk_of_fromText h
  have hraw : ∀ {raw : Option String}, RawOk raw → ∀ (t : JsonText) (dflt : String),
      dflt.toList = t.chars → ∃ t, Spells (raw.getD dflt).toList t ∧
        skipWs (raw.getD dflt).toList = (raw.getD dflt).toList := by
    intro raw hok t dflt hdflt
    cases raw with
    | none =>
      rw [Option.getD_none, hdflt]
      exact ⟨t, spells_chars t, skipWs_chars t⟩
    | some s =>
      obtain ⟨t', -, hspells, hskip⟩ := hok s rfl
      exact ⟨t', hspells, hskip⟩
  exact ⟨hraw hargs (.arr []) "[]" (by decide), hraw hkwargs (.obj []) "\x7b\x7d" (by decide)⟩

/-- The fields that are read from the line. -/
theorem textFields_requestLine (ha : Spells env.argsRaw a ∧ skipWs env.argsRaw = env.argsRaw)
    (hk : Spells env.kwargsRaw k ∧ skipWs env.kwargsRaw = env.kwargsRaw) (seq : ℕ) :
    textFields (requestLine env seq) = some ((cpuRequestFields env seq a k).map fun f =>
      fieldMember f.1 (f.2.1.map unbreak) f.2.2) := by
  have hskip : ∀ {text t}, Spells text t → skipWs text = text →
      skipWs (text.map unbreak) = text.map unbreak := by
    intro text t hspells hskip
    obtain ⟨c, cs, hc, heq, -⟩ := hspells.skipWs_eq
    have hws := isWs_of_isStart hc
    have hunbreak : unbreak c = c := by
      refine if_neg ?_
      rintro rfl
      cases hws
    rw [← hskip, heq, List.map_cons, hunbreak]
    exact skipWs_cons hws _
  have hfields : ∀ f ∈ cpuRequestFields env seq a k, skipWs f.2.1 = f.2.1 := by
    simp only [cpuRequestFields, List.forall_mem_cons, List.not_mem_nil, false_implies, implies_true,
      and_true]
    exact ⟨skipWs_chars _, skipWs_chars _, ha.2, hk.2, skipWs_chars _⟩
  have hspells := spells_cpuRequestFields ha.1 hk.1 seq
  have hline : ∀ f ∈ (cpuRequestFields env seq a k).map fun f => (f.1, f.2.1.map unbreak, f.2.2),
      Spells f.2.1 f.2.2 ∧ skipWs f.2.1 = f.2.1 :=
    List.forall_mem_map.2 fun f hf =>
      ⟨(hspells f hf).map keepsSpelling_unbreak, hskip (hspells f hf) (hfields f hf)⟩
  have hparse := textFields_objectText hline
  rw [requestLine_eq, cpuRequest, map_objectText keepsSpelling_unbreak]
  simpa [Function.comp_def, cpuRequestTexts, cpuRequestFields, compact] using hparse

theorem readField_id_requestLine (env : Envelope) (seq : ℕ) (a k : JsonText) :
    readField ((cpuRequestFields env seq a k).map fun f =>
      fieldMember f.1 (f.2.1.map unbreak) f.2.2) "id" readString none = some (wireId env seq) := by
  have hfilter : ((cpuRequestFields env seq a k).map fun f =>
      fieldMember f.1 (f.2.1.map unbreak) f.2.2).filter (fun f => f.1 = "id") =
      [fieldMember "id" ((strTree (wireId env seq)).chars.map unbreak)
        (strTree (wireId env seq))] := by
    rfl
  rw [readField, hfilter]
  simp [fieldMember, readString, strTree]

/-! ### The id at the front of the line -/

theorem isLowerHex_of_mem_toDigits (n : ℕ) :
    ∀ c ∈ Nat.toDigits 16 n, isLowerHex (.char c) = true := by
  have hdigit : ∀ d < 16, isLowerHex (.char (Nat.digitChar d)) = true := by decide
  induction n using Nat.strong_induction_on with
  | _ n ih =>
    rw [Nat.toDigits_eq_if (by decide)]
    split_ifs with hn
    · intro c hc
      obtain rfl := List.mem_singleton.1 hc
      exact hdigit n hn
    · intro c hc
      rcases List.mem_append.1 hc with hc | hc
      · exact ih (n / 16) (by omega) c hc
      · obtain rfl := List.mem_singleton.1 hc
        exact hdigit _ (Nat.mod_lt _ (by decide))

theorem isPlain_of_isLowerHex {c : Char} (h : isLowerHex (.char c) = true) : isPlain c = true := by
  have hne : ∀ {d : Char}, isLowerHex (.char d) = false → c ≠ d := by
    rintro d hd rfl
    rw [hd] at h
    cases h
  have hlow : ' ' ≤ c := by
    simp only [isLowerHex, Char.isDigit, Bool.or_eq_true, Bool.and_eq_true, decide_eq_true_eq] at h
    rcases h with ⟨hlow, -⟩ | ⟨hlow, -⟩
    · exact le_trans (by decide) hlow
    · exact le_trans (by decide) hlow
  simp [isPlain, hlow, hne (d := '"') rfl, hne (d := '\\') rfl]

/-- The characters of the id on the wire stand for themselves. -/
theorem isPlain_of_mem_wireId (h : validTaskId env.id = true) (seq : ℕ) :
    ∀ c ∈ (wireId env seq).toList, isPlain c = true := by
  intro c hc
  simp only [wireId, String.toList_append, List.mem_append, String.toList_ofList] at hc
  rcases hc with (hc | hc) | hc
  · simp only [validTaskId, Bool.and_eq_true, List.all_eq_true] at h
    exact isPlain_of_isLowerHex (h.2 c hc)
  · obtain rfl : c = '.' := by simpa using hc
    rfl
  · exact isPlain_of_isLowerHex (isLowerHex_of_mem_toDigits seq c hc)

theorem partsChars_encodeStr {cs : List Char} (h : ∀ c ∈ cs, isPlain c = true) :
    partsChars (encodeStr cs) = cs ++ ['"'] := by
  induction cs with
  | nil => rfl
  | cons c cs ih =>
    have hc : isPlain c = true := h c List.mem_cons_self
    rw [encodeStr, List.map_cons, dif_pos hc, partsChars, ← encodeStr,
      ih fun d hd => h d (List.mem_cons_of_mem c hd)]
    rfl

/-- The line starts with the name and the value of the id. -/
theorem exists_requestLine_eq (h : validTaskId env.id = true) (seq : ℕ) :
    ∃ rest, requestLine env seq =
      ['\x7b', '"', 'i', 'd', '"', ':', '"'] ++ ((wireId env seq).toList ++ '"' :: rest) := by
  have hid : ((strTree (wireId env seq)).chars).map unbreak =
      '"' :: ((wireId env seq).toList ++ ['"']) := by
    rw [strTree, chars_str, List.map_cons, keepsSpelling_unbreak.map_partsChars,
      partsChars_encodeStr (isPlain_of_mem_wireId h seq)]
    rfl
  rw [requestLine_eq, cpuRequest, map_objectText keepsSpelling_unbreak, cpuRequestTexts,
    List.map_cons, hid, objectText, List.map_cons, seqChars, memberChars]
  simp only [List.cons_append, List.append_assoc, List.nil_append]
  exact ⟨_, rfl⟩

/-- **The line names its request at its front.** -/
theorem requestIdMatch_requestLine (h : validTaskId env.id = true) (seq : ℕ) :
    requestIdMatch (requestLine env seq) = some (wireId env seq).toList := by
  obtain ⟨rest, hline⟩ := exists_requestLine_eq h seq
  have hgroup : ((wireId env seq).toList ++ '"' :: rest).takeWhile (fun c => c != '"' && c != '\\') =
      (wireId env seq).toList := by
    rw [List.takeWhile_append_of_pos]
    · simp
    · intro c hc
      have hplain := isPlain_of_mem_wireId h seq c hc
      rw [isPlain, Bool.and_eq_true] at hplain
      exact hplain.1
  rw [hline, requestIdMatch]
  simp only [List.take_left, List.drop_left, if_true, hgroup]
  simp

/-! ### The answer -/

theorem getItem_response_id (id : PyValue) (fields : List (String × PyValue)) :
    getItem (response id fields) "id" = some id := by
  rw [response, getItem_fieldsDict]
  rfl

@[simp] theorem requestGet_dict (app : ChildApp) (entries : List (PyKey × PyValue)) (k : String) :
    requestGet app (.dict entries) k = .ok (requestField (.dict entries) k) := rfl

/-- `_execute` of a request that is a dict, once its task was found and its context made. -/
theorem execute_of_prepared {app : ChildApp} {entries : List (PyKey × PyValue)} {task : CpuTask}
    {context : TaskContext} (h : Prepared app (.dict entries) task context) :
    execute app (.dict entries) =
      match hooksRaise app task with
      | some e => .error e
      | none =>
        match task.run context (orDefault (requestField (.dict entries) "args") (.list []))
          (orDefault (requestField (.dict entries) "kwargs") (.dict []))
          (requestField (.dict entries) "soft_timeout_ms") with
        | .ok result => .ok (response (requestField (.dict entries) "id")
            [("ok", .bool true), ("result", result)])
        | .error raised => raised.exc.map fun exc =>
            response (requestField (.dict entries) "id") (finishExc exc) := by
  unfold execute hooksRaise
  simp only [requestGet_dict, bind, Except.bind, h.found, h.made]
  cases task.isAsync
  · cases app.after <;> cases app.before <;> rfl
  · rfl

/-- **What leaves `_execute`.** -/
theorem execute_eq_error_iff {app : ChildApp} {entries : List (PyKey × PyValue)} {e : Raised} :
    execute app (.dict entries) = .error e ↔ Leaves app (.dict entries) e := by
  constructor
  · intro h
    cases hfound : app.tasks (requestField (.dict entries) "task") with
    | error e' =>
      simp only [execute, requestGet_dict, bind, Except.bind, hfound] at h
      cases h
      exact .lookup hfound
    | ok found =>
      cases found with
      | none =>
        simp only [execute, requestGet_dict, bind, Except.bind, hfound] at h
        cases h
      | some task =>
        cases hmade : makeContext app (.dict entries) (bareId (requestField (.dict entries) "id")) with
        | error e' =>
          simp only [execute, requestGet_dict, bind, Except.bind, hfound, hmade] at h
          cases h
          exact .context hfound hmade
        | ok context =>
          have hprepared : Prepared app (.dict entries) task context := ⟨hfound, hmade⟩
          rw [execute_of_prepared hprepared] at h
          split at h
          · next hhook =>
            cases h
            exact .hook hprepared hhook
          · next hhook =>
            split at h
            · cases h
            · next raised hrun =>
              cases hexc : raised.exc with
              | ok exc =>
                rw [hexc] at h
                cases h
              | error e' =>
                rw [hexc] at h
                cases h
                exact .report hprepared hhook hrun hexc
  · rintro (hfound | ⟨hfound, hmade⟩ | ⟨hprepared, hhook⟩ | ⟨hprepared, hhook, hrun, hreport⟩)
    · simp only [execute, requestGet_dict, bind, Except.bind, hfound]
    · simp only [execute, requestGet_dict, bind, Except.bind, hfound, hmade]
    · rw [execute_of_prepared hprepared, hhook]
    · rw [execute_of_prepared hprepared, hhook]
      simp only [hrun, hreport, Except.map]

theorem exists_errorJson_iff {e : Raised} :
    (∃ v, e.errorJson = .ok v) ↔ ∃ message, e.str = .ok message := by
  obtain ⟨typeName, traceback, countdown, str⟩ := e
  cases str with
  | ok message => exact ⟨fun _ => ⟨message, rfl⟩, fun _ => ⟨_, rfl⟩⟩
  | error e' => exact ⟨(fun ⟨_, h⟩ => nomatch h), (fun ⟨_, h⟩ => nomatch h)⟩

theorem requestGet_of_getItem {app : ChildApp} {request v : PyValue} {name : String}
    (h : getItem request name = some v) : requestGet app request name = .ok v := by
  cases request with
  | dict entries => rw [requestGet, h, Option.getD_some]
  | _ => cases h

theorem exists_dict_of_getItem {request v : PyValue} {name : String}
    (h : getItem request name = some v) : ∃ entries, request = .dict entries := by
  cases request with
  | dict entries => exact ⟨entries, rfl⟩
  | _ => cases h

/-- What `_execute` answers has the id of the request. -/
theorem getItem_of_execute {app : ChildApp} {request resp id : PyValue}
    (h : execute app request = .ok resp) (hid : getItem request "id" = some id) :
    getItem resp "id" = some id := by
  unfold execute at h
  obtain ⟨requestId, hrequestId, h⟩ := bind_eq_ok h
  rw [requestGet_of_getItem hid] at hrequestId
  cases hrequestId
  obtain ⟨taskName, -, h⟩ := bind_eq_ok h
  obtain ⟨args, -, h⟩ := bind_eq_ok h
  obtain ⟨kwargs, -, h⟩ := bind_eq_ok h
  obtain ⟨softTimeoutMs, -, h⟩ := bind_eq_ok h
  obtain ⟨task, -, h⟩ := bind_eq_ok h
  cases task with
  | none =>
    cases h
    exact getItem_response_id id _
  | some task =>
    obtain ⟨context, -, h⟩ := bind_eq_ok h
    simp only at h
    split at h
    · cases h
    · split at h
      · cases h
      · split at h
        · cases h
          exact getItem_response_id id _
        · obtain ⟨exc, -, rfl⟩ := map_eq_ok h
          exact getItem_response_id id _

section Answer

variable {app : ChildApp} {decode : List Char → Except PyStr PyValue} {line id : List Char}

/-- **An answer to a line has the id of its request**, if the decoder and the match agree on it. -/
theorem getItem_handleRequestLine {resp : PyValue} (hmatch : requestIdMatch line = some id)
    (hdecode : ∀ request, decode line = .ok request →
      getItem request "id" = some (.str (id.map .char)))
    (h : handleRequestLine app decode line = .ok resp) :
    getItem resp "id" = some (.str (id.map .char)) := by
  unfold handleRequestLine at h
  cases hline : decode line with
  | error message =>
    simp only [hline, hmatch, Option.map_some, Option.getD_some] at h
    cases h
    exact getItem_response_id _ _
  | ok request =>
    have hid := hdecode request hline
    cases hexecute : execute app request with
    | ok resp' =>
      simp only [hline, hexecute] at h
      cases h
      exact getItem_of_execute hexecute hid
    | error e =>
      simp only [hline, hexecute, hid, Option.getD_some] at h
      obtain ⟨error, -, h⟩ := bind_eq_ok h
      cases h
      exact getItem_response_id _ _

/-- **There is an answer** exactly if what leaves `_execute` can be told. -/
theorem exists_handleRequestLine_iff
    (hdict : ∀ request, decode line = .ok request → ∃ entries, request = .dict entries) :
    (∃ resp, handleRequestLine app decode line = .ok resp) ↔
      ∀ request, decode line = .ok request → ∀ e, Leaves app request e →
        ∃ message, e.str = .ok message := by
  cases hline : decode line with
  | error message =>
    have hresp : ∃ resp, handleRequestLine app decode line = .ok resp := by
      rw [handleRequestLine, hline]
      exact ⟨_, rfl⟩
    exact iff_of_true hresp nofun
  | ok request =>
    obtain ⟨entries, rfl⟩ := hdict request hline
    have hleaves : (∀ request, Except.ok (.dict entries) = (.ok request : Except PyStr PyValue) →
        ∀ e, Leaves app request e → ∃ message, e.str = .ok message) ↔
        ∀ e, execute app (.dict entries) = .error e → ∃ message, e.str = .ok message := by
      simp only [execute_eq_error_iff]
      constructor
      · exact fun h => h _ rfl
      · rintro h _ ⟨⟩
        exact h
    rw [hleaves]
    cases hexecute : execute app (.dict entries) with
    | ok resp =>
      have hresp : handleRequestLine app decode line = .ok resp := by
        simp only [handleRequestLine, hline, hexecute]
        rfl
      exact iff_of_true ⟨resp, hresp⟩ nofun
    | error e =>
      simp only [handleRequestLine, hline, hexecute, Except.error.injEq, forall_eq',
        ← exists_errorJson_iff]
      constructor
      · rintro ⟨resp, h⟩
        obtain ⟨error, herror, -⟩ := bind_eq_ok h
        exact ⟨error, herror⟩
      · rintro ⟨error, herror⟩
        rw [herror]
        exact ⟨_, rfl⟩

end Answer

/-- The id a task sees is the id of the envelope. -/
theorem bareId_wireId (env : Envelope) (seq : ℕ) :
    bareId (.str (PyStr.ofString (wireId env seq))) = .str (PyStr.ofString env.id) := by
  set digits := (Nat.toDigits 16 seq).map PyChar.char with hdigits
  have hwire : PyStr.ofString (wireId env seq) = PyStr.ofString env.id ++ [.char '.'] ++ digits := by
    simp [PyStr.ofString, wireId, hdigits]
  have hne : 0 < digits.length := by
    rw [hdigits, List.length_map]
    exact Nat.length_toDigits_pos
  have hhex : ∀ c ∈ digits.reverse, isLowerHex c = true := by
    intro c hc
    obtain ⟨d, hd, rfl⟩ := List.mem_map.1 (List.mem_reverse.1 hc)
    exact isLowerHex_of_mem_toDigits seq d hd
  have hfront : (PyStr.ofString env.id ++ [PyChar.char '.'] ++ digits).rdropWhile isLowerHex =
      PyStr.ofString env.id ++ [.char '.'] := by
    rw [List.rdropWhile, List.reverse_append, List.dropWhile_append_of_pos hhex, ← List.rdropWhile,
      List.rdropWhile_concat_neg]
    decide
  rw [bareId, dropWireSuffix, hwire, hfront]
  simp [hne]

/-- The integer or the double of a number. -/
def numberValue (n : JsonNumber) : PyValue :=
  if n.frac = none ∧ n.exp = none then .int (if n.neg then -n.int else n.int)
  else .float (F64.ofRat n.value)

/-- An entry of a dict. -/
def entryValue (m : List StrPart × Option PyValue) : Option (PyKey × PyValue) := do
  let k ← decodeParts m.1
  let v ← m.2
  return (.str (k.map .char), v)

/-- The value of a tree; a lone surrogate has none. -/
def treeValue : JsonText → Option PyValue :=
  fold (some .none) (fun b => some (.bool b)) (fun n => some (numberValue n))
    (fun ps => (decodeParts ps).map fun cs => .str (cs.map .char))
    (fun vs => (vs.mapM id).map .list) (fun ms => (ms.mapM entryValue).map .dict)

/-- A field with its value. -/
def fieldValue (f : String × Member) : Option (String × PyValue) :=
  (treeValue f.2.value).map fun v => (f.1, v)

/-- A decoder of objects. -/
def decodeFields (text : List Char) : Except PyStr PyValue :=
  match (textFields text).bind fun fs => fs.mapM fieldValue with
  | some vs => .ok (fieldsDict vs)
  | none => .error (PyStr.ofString "JSON is malformed")

theorem find?_of_mapM_fieldValue (name : String) {fs : List (String × Member)}
    {vs : List (String × PyValue)} (h : fs.mapM fieldValue = some vs) :
    (vs.find? fun v => v.1 = name) = (fs.find? fun f => f.1 = name).bind fieldValue := by
  induction fs generalizing vs with
  | nil =>
    cases h
    rfl
  | cons f fs ih =>
    rw [List.mapM_cons] at h
    obtain ⟨v, hv, h⟩ := Option.bind_eq_some_iff.1 h
    obtain ⟨vs, hvs, h⟩ := Option.bind_eq_some_iff.1 h
    cases h
    have hname : v.1 = f.1 := by
      obtain ⟨w, -, rfl⟩ := Option.map_eq_some_iff.1 hv
      rfl
    rw [List.find?_cons, List.find?_cons, hname]
    by_cases hf : f.1 = name
    · simp [hf, hv]
    · simp [hf, ih hvs]

theorem decodesObjects_decodeFields : DecodesObjects decodeFields := by
  intro text fs v hfs hdecode name s hread
  rw [decodeFields, hfs, Option.bind_some] at hdecode
  cases hvs : fs.mapM fieldValue with
  | none => simp [hvs] at hdecode
  | some vs =>
    obtain rfl : fieldsDict vs = v := by simpa [hvs] using hdecode
    rw [getItem_fieldsDict, find?_of_mapM_fieldValue name hvs, ← List.head?_filter]
    unfold readField at hread
    split at hread
    · cases hread
    · next f hfilter =>
      rw [hfilter, List.head?_cons, Option.bind_some, fieldValue, Option.map_map]
      obtain ⟨name', k, tree, text'⟩ := f
      cases tree with
      | str ps =>
        obtain ⟨cs, hcs, rfl⟩ := Option.map_eq_some_iff.1 hread
        simp [treeValue, fold, hcs, PyStr.ofString]
      | _ => cases hread
    · cases hread

/-- A text with newlines in its arguments. -/
def brokenText : List Char :=
  "\x7b\"id\":\"0123456789abcdef0123456789abcdef\",\"task\":\"t\",\"args\":[1,\n\"a\\n\"]\x7d".toList

/-- Its line. -/
def unbrokenLine : List Char :=
  ("\x7b\"id\":\"0123456789abcdef0123456789abcdef.ff\",\"task\":\"t\",\"args\":[1, \"a\\n\"]," ++
    "\"kwargs\":\x7b\x7d,\"soft_timeout_ms\":null\x7d").toList

/-- An application with one task, `t`. -/
def taskApp (run : PyValue → Except Raised PyValue) : ChildApp where
  tasks name := .ok (match name with
    | .str s => if s = PyStr.ofString "t" then some ⟨false, fun _ args _ _ => run args⟩ else none
    | _ => none)
  before := none
  after := none
  repr _ := PyStr.ofString "t"
  str _ := PyStr.ofString "t"
  int
    | .int n => .ok n
    | _ => .error (.mk (PyStr.ofString "TypeError") [] (.ok none) (.ok []))
  noGet _ := .mk (PyStr.ofString "AttributeError") [] (.ok none) (.ok [])

/-- An exception with a text. -/
def plainError : Raised := .mk (PyStr.ofString "ValueError") [] (.ok none) (.ok [])

/-- An exception whose `str()` raises another one. -/
def mute (e : Raised) : Raised := .mk (PyStr.ofString "Mute") [] (.ok none) (.error e)

end Cauli
