import Cauli.Lib.Saturating
import Cauli.Lib.Binary64
import Cauli.Lib.Json

/-!
# The task envelope (`worker/src/envelope.rs`)

`Envelope` is the parsed form of the stream field `e`. The integer fields are `u32` or `u64` in
the source; the reader (`deserialize_flexible_*`) only produces values in range. `args` and
`kwargs` stay the producer's JSON text, absent and `null` both read as `none`.

* `redeliveryLimit`: how many crash redeliveries one attempt gets;
* `Envelope.expiryDeadlineMs`: the earlier of `expires_at` and the queue's time to live.
-/

namespace Cauli

/-- Highest envelope `v` understood. -/
def PROTOCOL_VERSION : ℕ := 1

/-- The `timeout_ms` clamp: 24 hours. -/
def MAX_TIMEOUT_MS : ℕ := 86_400_000

/-- Task envelope. -/
structure Envelope where
  v : ℕ := 1
  id : String
  task : String
  args : Option String := none
  kwargs : Option String := none
  queue : String := "default"
  kind : String := "io"
  retries : ℕ := 0
  maxRetries : ℕ := 3
  backoffBaseMs : ℕ := 500
  backoffFactor : F64 := .finite 2
  backoffMaxMs : ℕ := 60_000
  jitter : Bool := true
  timeoutMs : ℕ := 300_000
  softTimeoutMs : Option ℕ := none
  idempotencyKey : Option String := none
  storeResult : Bool := true
  enqueuedAt : ℕ := 0
  notBefore : Option F64 := none
  expiresAt : Option ℕ := none
  extra : List (String × Json) := []

/-- `max(3, max_retries + 1)`, or 3 if the envelope is unreadable. -/
def redeliveryLimit : Option Envelope → ℕ
  | some e => max 3 (e.maxRetries + 1)
  | none => 3

/-- The deadline past which a task is discarded unrun: the earlier of `expires_at` and
`enqueued_at + queue_ttl_ms`; the latter only when `enqueued_at` is set, and saturating. -/
def Envelope.expiryDeadlineMs (e : Envelope) (queueTtlMs : Option ℕ) : Option ℕ :=
  let byTtl := match queueTtlMs with
    | some ttl => if 0 < e.enqueuedAt then some (U64.satAdd e.enqueuedAt ttl) else none
    | none => none
  match e.expiresAt, byTtl with
  | some a, some b => some (min a b)
  | some a, none => some a
  | none, b => b

/-- An error object; those minted by the worker have origin `"worker"`. -/
structure ErrorJson where
  type_ : String
  message : String
  traceback : String := ""
  origin : String := ""
  deriving DecidableEq

/-- The origin of errors synthesized by the worker. -/
def ORIGIN_WORKER : String := "worker"

/-- An error minted by the worker. -/
def ErrorJson.new (type_ message : String) : ErrorJson :=
  { type_, message, origin := ORIGIN_WORKER }

/-- Executor completion. The countdown of a forced retry is in milliseconds, as `finish` uses
it. -/
inductive Outcome
  | success (result : String)
  | forceRetry (countdownMs : Option ℕ) (err : ErrorJson)
  | failure (err : ErrorJson) (retryable : Bool)
  deriving DecidableEq

end Cauli
