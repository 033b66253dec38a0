import Cauli.Client.Codec
import Cauli.Client.Task

/-!
# The application object (`py/cauli/app.py`)

* `normalizeQueueTtl`, `App.init`: the configuration and its checks;
* `App.resolveQueue`: the queue of a call, from the call itself, the routes, the task, the default;
* `App.makeEnvelope`: the envelope of a call as an ordered dict, its queue and when it is due;
* `App.encodeEnvelope`: the text that is published, no longer than the limit;
* `App.makeEnvelope_eq_ok`, `App.encodeEnvelope_eq_ok`: what a call that succeeds has passed.

An error carries what its message shows. The clock, the random bytes and what a route answers are
part of the call or of the configuration. A datetime is the double its `timestamp()` returns.
-/

namespace Cauli

/-- The largest `u64`. -/
def U64_MAX : ℤ := 2 ^ 64 - 1

/-- The `queue_ttl` key of every queue without its own entry. -/
def QUEUE_TTL_WILDCARD : PyStr := PyStr.ofString "*"

/-- A time to live in seconds. -/
abbrev Ttl := {x : F64 // x.leZero = false}

/-- An entry of `task_routes`: which tasks it matches, and what its destination answers. -/
structure Route where
  covers : PyStr → Bool
  dest : PyStr → List PyValue → List (PyKey × PyValue) → Option PyStr

/-- What `queue_ttl` may be. -/
inductive QueueTtlParam
  | none
  | bool
  | number (x : PyNum)
  | mapping (entries : List (PyStr × PyNum))
  | other (typeName : String)

/-- What the constructor raises. -/
inductive AppError
  | resultTtl (x : ℤ)
  | idempTtl (x : ℤ)
  | maxEnvelopeBytes (x : ℤ)
  | queueTtlBool
  | queueTtlType (typeName : String)
  | queueTtlNotPositive (queue : Option PyStr) (x : PyNum)
  | conversion (e : ConversionError)
  deriving DecidableEq

/-- One time to live, of one queue or of all. -/
def normalizeTtl (queue : Option PyStr) (x : PyNum) : Except AppError Ttl := do
  let ttl ← x.toFloat.mapError .conversion
  let ⟨h⟩ ← require (ttl.leZero = false) (.queueTtlNotPositive queue x)
  return ⟨ttl, h⟩

/-- `_normalize_queue_ttl`: the entries, the latest first. -/
def normalizeQueueTtl : QueueTtlParam → Except AppError (List (PyStr × Ttl))
  | .none => .ok []
  | .bool => .error .queueTtlBool
  | .number x => do return [(QUEUE_TTL_WILDCARD, ← normalizeTtl none x)]
  | .mapping entries =>
    entries.foldlM (fun out e => do return (e.1, ← normalizeTtl (some e.1) e.2) :: out) []
  | .other t => .error (.queueTtlType t)

/-- The configuration. -/
structure AppParams where
  defaultQueue : PyStr := PyStr.ofString "default"
  resultTtl : ℤ := 3600
  idempTtl : ℤ := 86400
  taskRoutes : List Route := []
  queueTtl : QueueTtlParam := .none
  maxEnvelopeBytes : ℤ := 1_048_576

/-- The application: what an enqueue reads of it. -/
structure App where
  defaultQueue : PyStr
  taskRoutes : List Route
  queueTtl : List (PyStr × Ttl)
  maxEnvelopeBytes : ℤ
  maxEnvelopeBytes_pos : 0 < maxEnvelopeBytes

/-- `Cauli.__init__`. -/
def App.init (p : AppParams) : Except AppError App := do
  let _ ← require (0 < p.resultTtl) (.resultTtl p.resultTtl)
  let _ ← require (0 < p.idempTtl) (.idempTtl p.idempTtl)
  let ⟨h⟩ ← require (0 < p.maxEnvelopeBytes) (.maxEnvelopeBytes p.maxEnvelopeBytes)
  let queueTtl ← normalizeQueueTtl p.queueTtl
  return { defaultQueue := p.defaultQueue, taskRoutes := p.taskRoutes, queueTtl,
           maxEnvelopeBytes := p.maxEnvelopeBytes, maxEnvelopeBytes_pos := h }

/-- A point in time, with a time zone or without. -/
inductive Datetime
  | naive
  | aware (timestamp : F64)
  | notDatetime (typeName : String)

/-- What `expires` may be. -/
inductive Expires
  | none
  | datetime (d : Datetime)
  | bool
  | seconds (x : PyNum)
  | other (typeName : String)

/-- The arguments of `make_envelope`, with the clock and the random bytes it reads. -/
structure Call where
  taskName : PyStr
  args : List PyValue := []
  kwargs : List (PyKey × PyValue) := []
  task : Option TaskDef := none
  queue : Option PyStr := none
  entryQueue : Option PyStr := none
  idempotencyKey : PyValue := .none
  expires : Expires := .none
  eta : Option Datetime := none
  countdown : Option PyNum := none
  now : Option ℤ := none
  taskId : Option PyStr := none
  clockMs : ℤ
  urandom : {bytes : List (Fin 256) // bytes.length = 16}

/-- What `make_envelope` and `_encode_envelope` raise. -/
inductive CallError
  | countdownAndEta
  | idempotencyKeyType (v : PyValue)
  | invalidQueueName (chosen : PyStr)
  | notDatetime (field typeName : String)
  | naiveDatetime (field : String)
  | expiresBool
  | expiresType (typeName : String)
  | expiresRange (expiresAt : ℤ)
  | firesAfterExpiry (notBefore deadline : ℤ)
  | conversion (e : ConversionError)
  | encode (e : EncodeError)
  | tooLarge (bytes : ℕ)

/-- `_aware_epoch_ms`. -/
def awareEpochMs (field : String) : Datetime → Except CallError ℤ
  | .notDatetime t => .error (.notDatetime field t)
  | .naive => .error (.naiveDatetime field)
  | .aware timestamp => ((PyNum.float timestamp).scale 1000).truncInt.mapError .conversion

/-- Seconds as a double, in milliseconds: `int(round(float(x) * 1000))`. -/
def floatSecondsToMs (x : PyNum) : Except CallError ℤ :=
  (x.toFloat >>= fun f => secondsToMs (.float f)).mapError .conversion

/-- A character of a queue name. -/
def isQueueChar (c : PyChar) : Bool :=
  match c with
  | .char c => c.isAlphanum || c == '_' || c == '.' || c == '-'
  | .surrogate _ _ => false

/-- `_route`: the first matching route that answers. -/
def App.route (app : App) (taskName : PyStr) (args : List PyValue)
    (kwargs : List (PyKey × PyValue)) : Option PyStr :=
  app.taskRoutes.findSome? fun r => if r.covers taskName then r.dest taskName args kwargs else none

/-- `_resolve_queue`. -/
def App.resolveQueue (app : App) (c : Call) : Except CallError PyStr :=
  let chosen := (c.queue <|> c.entryQueue <|> app.route c.taskName c.args c.kwargs <|>
    c.task.bind (·.queue)).getD app.defaultQueue
  if chosen ≠ [] ∧ chosen.all isQueueChar then .ok chosen else .error (.invalidQueueName chosen)

/-- `_queue_ttl_ms`: the queue's own entry, or the wildcard. -/
def App.queueTtlMs (app : App) (queueName : PyStr) : Except CallError (Option ℤ) :=
  match app.queueTtl.lookup queueName <|> app.queueTtl.lookup QUEUE_TTL_WILDCARD with
  | none => .ok none
  | some ttl => (((PyNum.float ttl.1).scale 1000).truncInt.mapError .conversion).map some

/-- The enqueue time. -/
def Call.nowMs (c : Call) : ℤ := c.now.getD c.clockMs

/-- When the call is due, if it is delayed. -/
def Call.notBefore (c : Call) : Except CallError (Option ℤ) :=
  match c.countdown, c.eta with
  | some x, _ => (floatSecondsToMs x).map fun ms => some (c.nowMs + ms)
  | none, some d => (awareEpochMs "eta" d).map some
  | none, none => .ok none

/-- The epoch milliseconds `expires` gives, before the check of their range. -/
def Call.givenExpiry (c : Call) : Except CallError (Option ℤ) :=
  match c.expires with
  | .none => .ok none
  | .datetime d => (awareEpochMs "expires" d).map some
  | .bool => .error .expiresBool
  | .seconds x => (floatSecondsToMs x).map fun ms => some (c.nowMs + ms)
  | .other t => .error (.expiresType t)

/-- `32` hex digits of `16` bytes. -/
def hex (bytes : List (Fin 256)) : List Char :=
  bytes.flatMap fun b => [JsonToken.hexChar (b.val / 16), JsonToken.hexChar b.val]

/-- `task_id or os.urandom(16).hex()`. -/
def Call.id (c : Call) : PyStr :=
  match c.taskId with
  | some id => if id = [] then (hex c.urandom.1).map .char else id
  | none => (hex c.urandom.1).map .char

/-- An optional integer. -/
def optInt : Option ℤ → PyValue
  | none => .none
  | some n => .int n

/-- The dict of an envelope, in the order of its keys. -/
def Call.envelope (c : Call) (queueName : PyStr) (notBefore expiresAt : Option ℤ) :
    List (String × PyValue) :=
  [("v", .int 1),
    ("id", .str c.id),
    ("task", .str c.taskName),
    ("args", .list c.args),
    ("kwargs", .dict c.kwargs),
    ("queue", .str queueName),
    ("kind", .str (PyStr.ofString (c.task.elim "io" (·.kind.name)))),
    ("retries", .int 0),
    ("max_retries", .int (c.task.elim 3 (·.maxRetries))),
    ("backoff_base_ms", .int (c.task.elim 500 (·.backoffBaseMs))),
    ("backoff_factor", .float (c.task.elim (.finite 2) (·.backoffFactor))),
    ("backoff_max_ms", .int (c.task.elim 60000 (·.backoffMaxMs))),
    ("jitter", .bool (c.task.elim true (·.jitter))),
    ("timeout_ms", .int (c.task.elim 300000 (·.timeoutMs))),
    ("soft_timeout_ms", optInt (c.task.bind (·.softTimeoutMs))),
    ("idempotency_key", c.idempotencyKey),
    ("store_result", .bool (c.task.elim true (·.storeResult))),
    ("enqueued_at", .int c.nowMs),
    ("not_before", optInt notBefore),
    ("expires_at", optInt expiresAt)]

/-- A key is a string or absent. -/
def isKey : PyValue → Bool
  | .none | .str _ => true
  | _ => false

/-- The `expires_at` of the envelope: the given one, else the queue's. -/
def Call.expiresAt (c : Call) (given queueTtlMs : Option ℤ) : Option ℤ :=
  given <|> queueTtlMs.map (c.nowMs + ·)

/-- The earlier of two deadlines. -/
def earlier {α : Type} [Min α] : Option α → Option α → Option α
  | some a, some b => some (min a b)
  | some a, none => some a
  | none, b => b

/-- When the call expires: the earlier of `expires_at` and the queue's time to live. -/
def Call.deadline (c : Call) (given queueTtlMs : Option ℤ) : Option ℤ :=
  earlier (c.expiresAt given queueTtlMs) (queueTtlMs.map (c.nowMs + ·))

/-- `make_envelope`: the envelope, the queue, and when to publish if not now. -/
def App.makeEnvelope (app : App) (c : Call) :
    Except CallError (List (String × PyValue) × PyStr × Option ℤ) := do
  let _ ← require (c.countdown = none ∨ c.eta.isNone) .countdownAndEta
  let _ ← require (isKey c.idempotencyKey = true) (.idempotencyKeyType c.idempotencyKey)
  let queueName ← app.resolveQueue c
  let notBefore ← c.notBefore
  let fireAt := notBefore.filter (c.nowMs < ·)
  let queueTtlMs ← app.queueTtlMs queueName
  let given ← c.givenExpiry
  let _ ← require (∀ e ∈ given, 0 ≤ e ∧ e ≤ U64_MAX) (.expiresRange (given.getD 0))
  let deadline := c.deadline given queueTtlMs
  let _ ← require (∀ n ∈ notBefore, ∀ d ∈ deadline, n ≤ d)
    (.firesAfterExpiry (notBefore.getD 0) (deadline.getD 0))
  return (c.envelope queueName notBefore (c.expiresAt given queueTtlMs), queueName, fireAt)

/-- The bytes of a text. -/
def byteLength (text : List Char) : ℕ := (text.map Char.utf8Size).sum

@[simp] theorem byteLength_nil : byteLength [] = 0 := rfl

@[simp] theorem byteLength_cons (c : Char) (cs : List Char) :
    byteLength (c :: cs) = c.utf8Size + byteLength cs := by
  simp [byteLength]

@[simp] theorem byteLength_append (cs ds : List Char) :
    byteLength (cs ++ ds) = byteLength cs + byteLength ds := by
  simp [byteLength]

/-- `_encode_envelope`: the text to publish. -/
def App.encodeEnvelope (floatToken : ℚ → JsonNumber) (app : App) (fields : List (String × PyValue)) :
    Except CallError (List Char) := do
  let tree ← (encode floatToken
    (.dict (fields.map fun f => (.str (PyStr.ofString f.1), f.2)))).mapError .encode
  let _ ← require ((byteLength tree.chars : ℤ) ≤ app.maxEnvelopeBytes)
    (.tooLarge (byteLength tree.chars))
  return tree.chars

/-! ### What a call that succeeds has passed -/

theorem App.makeEnvelope_eq_ok {app : App} {c : Call} {fields : List (String × PyValue)}
    {queueName : PyStr} {fireAt : Option ℤ}
    (h : app.makeEnvelope c = .ok (fields, queueName, fireAt)) :
    isKey c.idempotencyKey = true ∧ app.resolveQueue c = .ok queueName ∧
    ∃ notBefore queueTtlMs given, c.notBefore = .ok notBefore ∧
      app.queueTtlMs queueName = .ok queueTtlMs ∧ c.givenExpiry = .ok given ∧
      (∀ e ∈ given, 0 ≤ e ∧ e ≤ U64_MAX) ∧
      fields = c.envelope queueName notBefore (c.expiresAt given queueTtlMs) := by
  unfold App.makeEnvelope at h
  obtain ⟨-, -, h⟩ := bind_eq_ok h
  obtain ⟨⟨hkey⟩, -, h⟩ := bind_eq_ok h
  obtain ⟨queueName', hqueue, h⟩ := bind_eq_ok h
  obtain ⟨notBefore, hnotBefore, h⟩ := bind_eq_ok h
  obtain ⟨queueTtlMs, hqueueTtl, h⟩ := bind_eq_ok h
  obtain ⟨given, hgiven, h⟩ := bind_eq_ok h
  obtain ⟨⟨hrange⟩, -, h⟩ := bind_eq_ok h
  obtain ⟨-, -, h⟩ := bind_eq_ok h
  cases h
  exact ⟨hkey, hqueue, notBefore, queueTtlMs, given, hnotBefore, hqueueTtl, hgiven, hrange, rfl⟩

theorem App.encodeEnvelope_eq_ok {floatToken : ℚ → JsonNumber} {app : App}
    {fields : List (String × PyValue)} {raw : List Char}
    (h : app.encodeEnvelope floatToken fields = .ok raw) :
    ∃ tree, encode floatToken (.dict (fields.map fun f => (.str (PyStr.ofString f.1), f.2))) =
      .ok tree ∧ (byteLength raw : ℤ) ≤ app.maxEnvelopeBytes ∧ raw = tree.chars := by
  unfold App.encodeEnvelope at h
  obtain ⟨tree, htree, h⟩ := bind_eq_ok h
  obtain ⟨⟨hsize⟩, -, h⟩ := bind_eq_ok h
  cases h
  exact ⟨tree, mapError_eq_ok htree, hsize, rfl⟩

theorem Ttl.ms_nonneg (ttl : Ttl) {ms : ℤ}
    (h : ((PyNum.float ttl.1).scale 1000).truncInt = .ok ms) : 0 ≤ ms := by
  obtain ⟨x, hx⟩ := ttl
  cases x with
  | inf neg => cases h
  | nan => cases h
  | finite q =>
    have hq : 0 ≤ q := by
      have : ¬ q ≤ 0 := by simpa [F64.leZero] using hx
      exact (not_le.1 this).le
    simp only [PyNum.scale, F64.scale, PyNum.truncInt] at h
    cases hr : F64.ofRat (q * (1000 : ℕ)) with
    | inf neg => rw [hr] at h; cases h
    | nan => rw [hr] at h; cases h
    | finite r =>
      rw [hr] at h
      have hms : truncate r = ms := Except.ok.inj h
      have hnonneg := F64.nonneg_of_ofRat (by positivity) hr
      rw [← hms, truncate, if_neg (not_lt.2 hnonneg)]
      exact Int.floor_nonneg.2 hnonneg

/-- A queue's time to live is not negative. -/
theorem App.queueTtlMs_nonneg {app : App} {queueName : PyStr} {ttl : ℤ}
    (h : app.queueTtlMs queueName = .ok (some ttl)) : 0 ≤ ttl := by
  unfold App.queueTtlMs at h
  split at h
  · cases h
  · next x hx =>
    obtain ⟨ms, hms, hsome⟩ := map_eq_ok h
    obtain rfl : ms = ttl := Option.some.inj hsome
    exact x.ms_nonneg (mapError_eq_ok hms)

/-! ### Samples -/

/-- What `os.urandom(16)` may give. -/
def zeroBytes : {bytes : List (Fin 256) // bytes.length = 16} := ⟨List.replicate 16 0, by decide⟩

theorem defaultMaxEnvelopeBytes_pos : (0 : ℤ) < 1_048_576 := by decide

end Cauli
