import Cauli.Worker.Exec
import Cauli.Worker.Gates
import Cauli.Worker.Idempotency

/-!
# Dispatch and completion (`worker/src/dispatch.rs`, `worker/src/broker.rs`)

What one dispatch does with a stream entry, up to the request it hands to the completion buffer.
The payload of an entry is a text of type `Raw`; `Codec` says what `serde_json` makes of it.

* `process`: the gates, the registry, expiry and the idempotency claim, in this order; the answer
  is a finished request or an envelope to execute;
* `finish`: from the outcome of an execution to its request, with `scheduleRetry` and
  `finalFailure`;
* `dlqTerminal`: a dead letter without an execution;
* `Req.Resolves`: the request holds on to the task (a retry copy or a dead letter among its own
  writes) or completes it. Every request built here resolves its entry.
-/

namespace Cauli

/-- Preview length of an oversize envelope. -/
def PREVIEW_BYTES : ℕ := 4096

/-- The JSON codec, on texts of type `Raw`. `task` names the task a text belongs to: its `id` when
it parses. `reparse` is the round trip a retry makes: the new text parses again, with the same id
and budget and the new count. -/
structure Codec (Raw : Type) where
  fromStr : Raw → Option Envelope
  toStr : Envelope → Raw
  len : Raw → ℕ
  safeTruncate : Raw → ℕ → Raw
  empty : Raw
  idOnly : Raw → Option String
  task : Raw → String
  task_eq : ∀ {r : Raw} {e : Envelope}, fromStr r = some e → task r = e.id
  reparse : ∀ {r : Raw} {e : Envelope}, fromStr r = some e → ∀ n ≤ e.maxRetries,
    ∃ e', fromStr (toStr { e with retries := n }) = some e' ∧ e'.id = e.id ∧ e'.retries = n ∧
      e'.maxRetries = e.maxRetries

/-- What a run on fixed inputs needs of an envelope. -/
structure Token where
  id : String
  retries : ℕ := 0
  maxRetries : ℕ := 3
  timeoutMs : ℕ := 300_000
  deriving DecidableEq

/-- A codec whose texts are tokens. -/
def tokenCodec : Codec Token where
  fromStr k := some
    { id := k.id
      task := "t"
      retries := k.retries
      maxRetries := k.maxRetries
      timeoutMs := k.timeoutMs }
  toStr e := ⟨e.id, e.retries, e.maxRetries, e.timeoutMs⟩
  len _ := 0
  safeTruncate k _ := k
  empty := { id := "" }
  idOnly k := some k.id
  task k := k.id
  task_eq h := by cases h; rfl
  reparse _ _ _ := ⟨_, rfl, rfl, rfl, rfl⟩

/-- Why a task was dead lettered. -/
inductive Reason
  | malformed
  | unregistered
  | redeliveryLimit
  | expired
  | maxRetries
  | notRetryable
  deriving DecidableEq

/-- The reason on the wire. -/
def Reason.text : Reason → String
  | .malformed => "malformed"
  | .unregistered => "unregistered"
  | .redeliveryLimit => "redelivery_limit"
  | .expired => "expired"
  | .maxRetries => "max_retries"
  | .notRetryable => "not_retryable"

/-- An entry of the dead letter stream. `source` is the payload of the entry it was made from; it
is not on the wire. -/
structure DeadLetter (Raw : Type) where
  e : Raw
  reason : Reason
  error : Option ErrorJson
  source : Option Raw

/-- What a result key holds. -/
inductive ResultDoc
  | success (resultJson : String) (finishedAt : ℕ)
  | failure (error : ErrorJson) (finishedAt : ℕ)
  | duplicate (finishedAt : ℕ) (claimantId : String)
  | expired (deadlineMs finishedAt : ℕ)
  deriving DecidableEq

/-- The own writes of a completion. -/
inductive Write (Raw : Type)
  | setResult (taskId : String) (doc : ResultDoc) (ttlS : ℕ)
  | zadd (member : Raw) (score : ℕ)
  | xaddDlq (d : DeadLetter Raw)
  | expireDlq (ttlS : ℕ)

/-- The completion calls of the broker. -/
inductive Kind
  | success
  | duplicate
  | retry
  | dlq
  deriving DecidableEq

/-- A buffered completion: which call made it, and its own writes. -/
structure Req (Raw : Type) where
  kind : Kind
  extra : List (Write Raw)

/-- What a worker is started with. -/
structure Settings where
  visibilityTimeoutS : ℕ := 60
  redisTimeoutS : ℕ := 5
  maxEnvelopeBytes : ℕ := 1_048_576
  registry : String → Option Lane := fun _ => some .async
  queueTtlMs : Option ℕ := none
  resultTtlS : ℕ := 3600

variable {Raw : Type} (C : Codec Raw) (S : Settings)

/-! ### The broker's completion calls -/

/-- DLQ length cap. -/
def DLQ_MAXLEN : ℕ := 1000

/-- DLQ retention. -/
def DLQ_TTL_S : ℕ := 7 * 24 * 60 * 60

/-- `[SET result EX ttl]?`. -/
def storeResult (result : Option (String × ResultDoc × ℕ)) : List (Write Raw) :=
  match result with
  | some (taskId, doc, ttl) => [.setResult taskId doc ttl]
  | none => []

/-- `finish_success`. -/
def finishSuccess (result : Option (String × ResultDoc × ℕ)) : Req Raw :=
  ⟨.success, storeResult result⟩

/-- `finish_duplicate`. -/
def finishDuplicate (result : Option (String × ResultDoc × ℕ)) : Req Raw :=
  ⟨.duplicate, storeResult result⟩

/-- `finish_retry`. -/
def finishRetry (envelopeJson : Raw) (fireAtMs : ℕ) : Req Raw :=
  ⟨.retry, [.zadd envelopeJson fireAtMs]⟩

/-- `finish_dlq`. -/
def finishDlq (source : Option Raw) (envelopeJson : Raw) (reason : Reason)
    (error : Option ErrorJson) (result : Option (String × ResultDoc × ℕ)) : Req Raw :=
  ⟨.dlq, .xaddDlq ⟨envelopeJson, reason, error, source⟩ :: .expireDlq DLQ_TTL_S ::
    storeResult result⟩

/-! ### Dispatch -/

/-- Error for a task that never ran. -/
def dlqError (reason : Reason) : ErrorJson :=
  let type_ := match reason with
    | .malformed => "Malformed"
    | .unregistered => "UnregisteredTask"
    | .redeliveryLimit => "RedeliveryLimitExceeded"
    | _ => "DeadLettered"
  ErrorJson.new type_ ("task was dead lettered before it ran (reason " ++ reason.text ++ ")")

/-- The id of a text that is dead lettered unread, when it has a valid one. -/
def recoverId (rawE : Raw) : Option String := (C.idOnly rawE).filter validTaskId

/-- `dlq_terminal`: a dead letter, and a failure result when an id can be recovered. -/
def dlqTerminal (source : Option Raw) (rawE : Raw) (reason : Reason) (err : Option ErrorJson)
    (now : ℕ) : Req Raw :=
  let store := (recoverId C rawE).map fun id =>
    (id, ResultDoc.failure (err.getD (dlqError reason)) now, S.resultTtlS)
  finishDlq source rawE reason err store

/-- `final_failure`. -/
def finalFailure (source : Option Raw) (env : Envelope) (err : ErrorJson) (now : ℕ)
    (reason : Reason) : Req Raw :=
  let result := if env.storeResult then some (env.id, ResultDoc.failure err now, S.resultTtlS)
    else none
  finishDlq source (C.toStr env) reason (some err) result

/-- Retry delay clamp: 30 days. -/
def MAX_RETRY_DELAY_MS : ℕ := 30 * 86_400_000

/-- The countdown of a forced retry or the computed backoff, clamped. -/
def retryDelayMs (countdownMs : Option ℕ) (backoffMs : ℕ) : ℕ :=
  min (countdownMs.getD backoffMs) MAX_RETRY_DELAY_MS

/-- `schedule_retry`; `backoffMs` is what `compute_backoff_ms` drew. -/
def scheduleRetry (env : Envelope) (countdownMs : Option ℕ) (now backoffMs : ℕ) : Req Raw :=
  let env' := { env with retries := env.retries + 1 }
  finishRetry (C.toStr env') (U64.satAdd now (retryDelayMs countdownMs backoffMs))

/-- `finish`: the outcome of an execution becomes a request. -/
def finish (source : Option Raw) (env : Envelope) (outcome : Outcome) (now backoffMs : ℕ) :
    Req Raw :=
  match outcome with
  | .success v =>
    finishSuccess (if env.storeResult then some (env.id, .success v now, S.resultTtlS) else none)
  | .forceRetry countdownMs err =>
    if env.retries < env.maxRetries then scheduleRetry C env countdownMs now backoffMs
    else finalFailure C S source env err now .maxRetries
  | .failure err retryable =>
    if retryable && decide (env.retries < env.maxRetries) then
      scheduleRetry C env none now backoffMs
    else finalFailure C S source env err now (if retryable then .maxRetries else .notRetryable)

/-- How far `process` gets without an executor. -/
inductive Processed (Raw : Type)
  | finished (req : Req Raw)
  | execute (env : Envelope)

/-- `process` up to the executor call. `claim` is the answer of `idemp_claim`, `none` on a Redis
error; it is asked for only when the envelope has a key. -/
def process (raw : Option Raw) (now : ℕ) (claim : Option IdempClaim) : Processed Raw :=
  match raw with
  | none => .finished (dlqTerminal C S none C.empty .malformed none now)
  | some r =>
    if S.maxEnvelopeBytes < C.len r then
      .finished (dlqTerminal C S raw (C.safeTruncate r PREVIEW_BYTES) .malformed none now)
    else
      match C.fromStr r with
      | none => .finished (dlqTerminal C S raw r .malformed none now)
      | some env =>
        if passesGates env then
          match S.registry env.task with
          | none => .finished (dlqTerminal C S raw r .unregistered none now)
          | some _ =>
            match (env.expiryDeadlineMs S.queueTtlMs).filter (· < now) with
            | some deadline =>
              .finished (finishDlq raw r .expired none
                (if env.storeResult then some (env.id, .expired deadline now, S.resultTtlS)
                  else none))
            | none =>
              match env.idempotencyKey, claim with
              | some _, some (.duplicate claimant) =>
                .finished (finishDuplicate (if env.storeResult then
                  some (env.id, .duplicate now claimant, S.resultTtlS) else none))
              | _, _ => .execute env -- fresh, own claim, no key, or failing open
        else .finished (dlqTerminal C S raw r .malformed none now)

/-! ### What a request does for its task -/

/-- The text of a dead letter made from the payload `r`: as it was, cut to a preview, or written
again from the parsed envelope. -/
def Codec.Carries (x r : Raw) : Prop :=
  x = r ∨ x = C.safeTruncate r PREVIEW_BYTES ∨ ∃ e, C.fromStr r = some e ∧ x = C.toStr e

/-- The dead letter holds the task `t`. -/
def DeadLetter.Holds (d : DeadLetter Raw) (t : String) : Prop :=
  ∃ r, d.source = some r ∧ C.task r = t ∧ C.Carries d.e r

/-- Once accepted, the write keeps the task `t` somewhere. -/
def Write.Anchors (t : String) : Write Raw → Prop
  | .zadd m _ => C.task m = t
  | .xaddDlq d => d.Holds C t
  | _ => False

/-- The request completes the task `t` or has a write that keeps it. -/
def Req.Resolves (t : String) (q : Req Raw) : Prop :=
  q.kind = .success ∨ q.kind = .duplicate ∨ ∃ w ∈ q.extra, w.Anchors C t

variable {C S} {r : Raw} {e env : Envelope}

theorem finishDlq_resolves {x : Raw} (hx : C.Carries x r) (reason : Reason)
    (error : Option ErrorJson) (result : Option (String × ResultDoc × ℕ)) :
    (finishDlq (some r) x reason error result).Resolves C (C.task r) :=
  Or.inr (Or.inr ⟨_, List.mem_cons_self, r, rfl, rfl, hx⟩)

theorem dlqTerminal_resolves {x : Raw} (hx : C.Carries x r) (reason : Reason)
    (err : Option ErrorJson) (now : ℕ) :
    (dlqTerminal C S (some r) x reason err now).Resolves C (C.task r) :=
  finishDlq_resolves hx _ _ _

theorem finalFailure_resolves (hr : C.fromStr r = some env) (err : ErrorJson) (now : ℕ)
    (reason : Reason) : (finalFailure C S (some r) env err now reason).Resolves C (C.task r) :=
  finishDlq_resolves (Or.inr (Or.inr ⟨env, hr, rfl⟩)) _ _ _

theorem task_retry (hr : C.fromStr r = some env) (hlt : env.retries < env.maxRetries) :
    C.task (C.toStr { env with retries := env.retries + 1 }) = C.task r := by
  obtain ⟨e', he', hid, -, -⟩ := C.reparse hr (env.retries + 1) hlt
  rw [C.task_eq he', hid, C.task_eq hr]

theorem scheduleRetry_resolves (hr : C.fromStr r = some env) (hlt : env.retries < env.maxRetries)
    (countdownMs : Option ℕ) (now backoffMs : ℕ) :
    (scheduleRetry C env countdownMs now backoffMs).Resolves C (C.task r) :=
  Or.inr (Or.inr ⟨_, List.mem_singleton_self _, task_retry hr hlt⟩)

/-- The three results of `finish`: a completion, a retry with budget left, or a final failure. -/
theorem finish_cases (source : Option Raw) (env : Envelope) (outcome : Outcome)
    (now backoffMs : ℕ) :
    (∃ result, finish C S source env outcome now backoffMs = finishSuccess result) ∨
    (env.retries < env.maxRetries ∧ ∃ countdownMs,
      finish C S source env outcome now backoffMs = scheduleRetry C env countdownMs now backoffMs) ∨
    ∃ err reason,
      finish C S source env outcome now backoffMs = finalFailure C S source env err now reason := by
  cases outcome with
  | success v => exact Or.inl ⟨_, rfl⟩
  | forceRetry countdownMs err =>
    simp only [finish]
    split_ifs with h
    · exact Or.inr (Or.inl ⟨h, _, rfl⟩)
    · exact Or.inr (Or.inr ⟨_, _, rfl⟩)
  | failure err retryable =>
    simp only [finish]
    split_ifs with h
    · simp only [Bool.and_eq_true, decide_eq_true_eq] at h
      exact Or.inr (Or.inl ⟨h.2, _, rfl⟩)
    · exact Or.inr (Or.inr ⟨_, _, rfl⟩)
    · exact Or.inr (Or.inr ⟨_, _, rfl⟩)

/-- **The request of an executed entry resolves its task.** -/
theorem finish_resolves (hr : C.fromStr r = some env) (outcome : Outcome) (now backoffMs : ℕ) :
    (finish C S (some r) env outcome now backoffMs).Resolves C (C.task r) := by
  rcases finish_cases (C := C) (S := S) (some r) env outcome now backoffMs with
    ⟨result, h⟩ | ⟨hlt, countdownMs, h⟩ | ⟨err, reason, h⟩
  · rw [h]; exact Or.inl rfl
  · rw [h]; exact scheduleRetry_resolves hr hlt _ _ _
  · rw [h]; exact finalFailure_resolves hr _ _ _

/-- What `process` can answer: an envelope that parsed and passed the gates, a duplicate, or a dead
letter of the entry. -/
theorem process_cases (raw : Option Raw) (now : ℕ) (claim : Option IdempClaim) :
    (∃ r env, raw = some r ∧ C.fromStr r = some env ∧ passesGates env = true ∧
      process C S raw now claim = .execute env) ∨
    (∃ result, process C S raw now claim = .finished (finishDuplicate result)) ∨
    ∃ x reason error result, (∀ r, raw = some r → C.Carries x r) ∧
      process C S raw now claim = .finished (finishDlq raw x reason error result) := by
  cases raw with
  | none => exact Or.inr (Or.inr ⟨_, _, _, _, by simp, rfl⟩)
  | some r =>
    have hself : ∀ r', some r = some r' → C.Carries r r' := by rintro _ ⟨⟩; exact Or.inl rfl
    simp only [process]
    split_ifs with hlen
    · refine Or.inr (Or.inr ⟨_, _, _, _, ?_, rfl⟩)
      rintro _ ⟨⟩
      exact Or.inr (Or.inl rfl)
    · split
      · exact Or.inr (Or.inr ⟨_, _, _, _, hself, rfl⟩)
      · next env henv =>
        by_cases hg : passesGates env = true
        · rw [if_pos hg]
          split
          · exact Or.inr (Or.inr ⟨_, _, _, _, hself, rfl⟩)
          · split
            · exact Or.inr (Or.inr ⟨_, _, _, _, hself, rfl⟩)
            · split
              · exact Or.inr (Or.inl ⟨_, rfl⟩)
              · exact Or.inl ⟨r, env, rfl, henv, hg, rfl⟩
        · rw [if_neg hg]
          exact Or.inr (Or.inr ⟨_, _, _, _, hself, rfl⟩)

end Cauli
