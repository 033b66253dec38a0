import Cauli.Worker.Envelope

/-!
# Executor lanes and their residence times (`worker/src/exec.rs`)

The three executor calls as functions of what their channels and semaphores do, each returning
the time the call takes and the outcome it reports. Time is in whole milliseconds, counted from
the start of the call; the timers are exact.

* `timeout`: `tokio::time::timeout` on a oneshot receiver;
* `runSyncTask`: wait for a pool thread, then wait for the task, each for `timeout_ms` at most;
* `runAsyncTask`: one wait, `timeout_ms` plus the backstop grace;
* `runCpuTask`: pool start, admission slot, backlog and response, none of them bounded here;
* `requiredIdleMs`, `reclaimMarginMs`, `visibilityTimeoutMs` (`loops.rs`): the idle time from
  which another worker's recovery takes an entry over.

`live_never_reclaimable_iff` compares the two sides: the async lane stays inside the reclaim
bound, the sync lane has two budgets and the bound provides for one.
-/

namespace Cauli

/-- Added to `timeout_ms` for the worker's own backstops. -/
def BACKSTOP_GRACE_MS : ℕ := 2_000

/-- What a oneshot receiver gets, and when, counted from the moment it is awaited. -/
inductive Oneshot (α : Type)
  | value (after : ℕ) (a : α)
  | dropped (after : ℕ)
  | never

/-- The result of a timed wait. -/
inductive Timed (α : Type)
  | ok (a : α)
  | closed
  | elapsed

/-- A wait of at most `budget`. The receiver is polled before the timer, so a message that
arrives at the deadline itself still counts. -/
def timeout {α : Type} (budget : ℕ) : Oneshot α → ℕ × Timed α
  | .value t a => if t ≤ budget then (t, .ok a) else (budget, .elapsed)
  | .dropped t => if t ≤ budget then (t, .closed) else (budget, .elapsed)
  | .never => (budget, .elapsed)

theorem timeout_le {α : Type} (budget : ℕ) (rx : Oneshot α) : (timeout budget rx).1 ≤ budget := by
  cases rx with
  | value t a => simp only [timeout]; split <;> simp_all
  | dropped t => simp only [timeout]; split <;> simp_all
  | never => exact le_rfl

/-- A retryable failure minted by the worker. -/
def fail (type_ msg : String) : Outcome := .failure (ErrorJson.new type_ msg) true

/-- `run_sync_task`. `submitted` is whether the pool queue took the job, `started` the signal of
the pool thread that picks it up, `resp` the task's answer once it is awaited. -/
def runSyncTask (env : Envelope) (submitted : Bool) (started : Oneshot Unit)
    (resp : Oneshot Outcome) : ℕ × Outcome :=
  if submitted then
    -- two phases, each with the full `timeout_ms`: the wait for a thread is not charged
    match timeout env.timeoutMs started with
    | (t, .closed) => (t, fail "WorkerLost" "sync executor thread vanished")
    | (t, .elapsed) => (t, fail "WorkerLost"
        s!"sync pool queue wait exceeded {env.timeoutMs}ms with no free io thread")
    | (t, .ok ()) =>
      match timeout env.timeoutMs resp with
      | (t', .ok outcome) => (t + t', outcome)
      | (t', .closed) => (t + t', fail "WorkerLost" "sync executor thread vanished")
      | (t', .elapsed) => (t + t', fail "TimeLimitExceeded"
          s!"hard timeout after {env.timeoutMs}ms (thread abandoned)")
  else (0, fail "WorkerLost" "sync pool queue full (io-threads wedged)")

/-- `run_async_task`: the shim's answer, or the Rust backstop. -/
def runAsyncTask (env : Envelope) (resp : Oneshot Outcome) : ℕ × Outcome :=
  match timeout (U64.satAdd env.timeoutMs BACKSTOP_GRACE_MS) resp with
  | (t, .ok outcome) => (t, outcome)
  | (t, .closed) => (t, fail "WorkerLost" "async completion channel dropped")
  | (t, .elapsed) => (t, fail "TimeLimitExceeded"
      s!"no completion within {env.timeoutMs}ms + grace (event loop unresponsive)")

/-- What the cpu pool answers for a job. -/
inductive CpuOutcome
  | resp (outcome : Outcome)
  | timeout
  | lost
  | dropped

/-- How the unbounded waits of `run_cpu_task` go: the first use of the pool, the admission slot
and the backlog (each with the time it takes and whether the pool was still open), the answer. -/
structure CpuWaits where
  pool : ℕ
  admission : ℕ × Bool
  backlog : ℕ × Bool
  answer : ℕ × CpuOutcome

/-- `run_cpu_task`. -/
def runCpuTask (env : Envelope) (w : CpuWaits) : ℕ × Outcome :=
  if w.admission.2 then
    if w.backlog.2 then
      (w.pool + w.admission.1 + w.backlog.1 + w.answer.1,
        match w.answer.2 with
        | .resp outcome => outcome
        | .timeout => fail "TimeLimitExceeded"
            s!"cpu child SIGKILLed after hard timeout {env.timeoutMs}ms"
        | .lost => fail "WorkerLost" "cpu child died during task"
        | .dropped => fail "WorkerLost" "cpu child dropped the task")
    else (w.pool + w.admission.1 + w.backlog.1, fail "WorkerLost" "cpu pool closed")
  else (w.pool + w.admission.1, fail "WorkerLost" "cpu pool closed")

/-- The executor lanes. -/
inductive Lane
  | async
  | sync
  | cpu
  deriving DecidableEq

/-- One executor call: its lane and everything its environment does. -/
inductive Execution
  | async (resp : Oneshot Outcome)
  | sync (submitted : Bool) (started : Oneshot Unit) (resp : Oneshot Outcome)
  | cpu (waits : CpuWaits)

/-- The lane of a call. -/
def Execution.lane : Execution → Lane
  | .async _ => .async
  | .sync _ _ _ => .sync
  | .cpu _ => .cpu

/-- Time taken and outcome of a call. -/
def Execution.run (env : Envelope) : Execution → ℕ × Outcome
  | .async resp => runAsyncTask env resp
  | .sync submitted started resp => runSyncTask env submitted started resp
  | .cpu waits => runCpuTask env waits

/-! ### The longest an io call takes -/

theorem runAsyncTask_fst (env : Envelope) (resp : Oneshot Outcome) :
    (runAsyncTask env resp).1 = (timeout (U64.satAdd env.timeoutMs BACKSTOP_GRACE_MS) resp).1 := by
  unfold runAsyncTask
  split <;> simp_all

theorem runAsyncTask_le (env : Envelope) (resp : Oneshot Outcome) :
    (runAsyncTask env resp).1 ≤ env.timeoutMs + BACKSTOP_GRACE_MS := by
  rw [runAsyncTask_fst]
  exact (timeout_le _ _).trans (U64.satAdd_le _ _)

/-- The wait for a thread and the run are bounded by `timeout_ms` each. -/
theorem runSyncTask_le (env : Envelope) (submitted : Bool) (started : Oneshot Unit)
    (resp : Oneshot Outcome) : (runSyncTask env submitted started resp).1 ≤ 2 * env.timeoutMs := by
  have h₁ := timeout_le env.timeoutMs started
  have h₂ := timeout_le env.timeoutMs resp
  unfold runSyncTask
  split
  · split
    · simp_all; omega
    · simp_all; omega
    · split <;> simp_all <;> omega
  · exact Nat.zero_le _

/-- The longest call of an io lane; the cpu lane has no bound of its own. -/
def Lane.residenceMs (timeoutMs : ℕ) : Lane → Option ℕ
  | .async => some (timeoutMs + BACKSTOP_GRACE_MS)
  | .sync => some (2 * timeoutMs)
  | .cpu => none

theorem Execution.run_le {env : Envelope} {x : Execution} {n : ℕ}
    (h : x.lane.residenceMs env.timeoutMs = some n) : (x.run env).1 ≤ n := by
  cases x with
  | async resp => cases h; exact runAsyncTask_le env resp
  | sync submitted started resp => cases h; exact runSyncTask_le env submitted started resp
  | cpu waits => cases h

/-- The bound is reached: a wedged event loop, or a job picked up at the last moment by a thread
that never answers. -/
theorem exists_run_eq {env : Envelope} {lane : Lane} {n : ℕ} (hT : env.timeoutMs ≤ MAX_TIMEOUT_MS)
    (h : lane.residenceMs env.timeoutMs = some n) :
    ∃ x : Execution, x.lane = lane ∧ (x.run env).1 = n := by
  cases lane with
  | async =>
    cases h
    refine ⟨.async .never, rfl, ?_⟩
    show (runAsyncTask env .never).1 = _
    rw [runAsyncTask_fst]
    refine U64.satAdd_of_le ?_
    unfold MAX_TIMEOUT_MS at hT
    unfold BACKSTOP_GRACE_MS U64.max
    omega
  | sync =>
    cases h
    refine ⟨.sync true (.value env.timeoutMs ()) .never, rfl, ?_⟩
    simp [Execution.run, runSyncTask, timeout]
    omega
  | cpu => cases h

/-! ### The reclaim bound of `recover_page` -/

/-- `--visibility-timeout` in milliseconds, saturating. -/
def visibilityTimeoutMs (visibilityTimeoutS : ℕ) : ℕ := U64.satMul visibilityTimeoutS 1000

/-- Margin on top of the execution backstop: at least the grace. -/
def reclaimMarginMs (redisTimeoutS : ℕ) : ℕ := max (U64.satMul redisTimeoutS 1000) BACKSTOP_GRACE_MS

/-- The idle time from which an entry may be reclaimed; the visibility timeout alone when its
envelope does not parse. -/
def requiredIdleMs (vtMs marginMs : ℕ) : Option Envelope → ℕ
  | some env => max vtMs (U64.satAdd (U64.satAdd env.timeoutMs BACKSTOP_GRACE_MS) marginMs)
  | none => vtMs

theorem requiredIdleMs_some (vtMs marginMs : ℕ) (env : Envelope) :
    requiredIdleMs vtMs marginMs (some env) =
      max vtMs (min (env.timeoutMs + BACKSTOP_GRACE_MS + marginMs) U64.max) := by
  rw [requiredIdleMs, U64.satAdd_satAdd]

/-- An entry delivered at time 0 whose executor call begins within the reclaim margin is, at every
instant before the call returns, idle for less than recovery requires. -/
def LiveNeverReclaimable (lane : Lane) (visibilityTimeoutS redisTimeoutS : ℕ) (env : Envelope) :
    Prop :=
  ∀ x : Execution, x.lane = lane → ∀ reached ≤ reclaimMarginMs redisTimeoutS,
    ∀ idle < reached + (x.run env).1,
      idle < requiredIdleMs (visibilityTimeoutMs visibilityTimeoutS)
        (reclaimMarginMs redisTimeoutS) (some env)

/-- When the reclaim bound covers the longest call of a lane. The async backstop is what the bound
was derived from, so only saturation breaks it. The sync lane runs up to twice `timeout_ms`. -/
def ReclaimCovers (visibilityTimeoutS redisTimeoutS timeoutMs : ℕ) : Lane → Prop
  | .async => timeoutMs + BACKSTOP_GRACE_MS + reclaimMarginMs redisTimeoutS ≤ U64.max
  | .sync => 2 * timeoutMs + reclaimMarginMs redisTimeoutS ≤ visibilityTimeoutMs visibilityTimeoutS ∨
      (timeoutMs ≤ BACKSTOP_GRACE_MS ∧ 2 * timeoutMs + reclaimMarginMs redisTimeoutS ≤ U64.max)
  | .cpu => False

instance (vt rt T : ℕ) : (lane : Lane) → Decidable (ReclaimCovers vt rt T lane)
  | .async => inferInstanceAs (Decidable (_ ≤ _))
  | .sync => inferInstanceAs (Decidable (_ ∨ _))
  | .cpu => inferInstanceAs (Decidable False)

theorem liveNeverReclaimable_iff_residence {lane : Lane} {vt rt n : ℕ} {env : Envelope}
    (hT : env.timeoutMs ≤ MAX_TIMEOUT_MS) (hn : lane.residenceMs env.timeoutMs = some n) (hpos : 0 < n) :
    LiveNeverReclaimable lane vt rt env ↔
      reclaimMarginMs rt + n ≤
        requiredIdleMs (visibilityTimeoutMs vt) (reclaimMarginMs rt) (some env) := by
  constructor
  · intro h
    obtain ⟨x, hx, hrun⟩ := exists_run_eq hT hn
    have := h x hx _ le_rfl (reclaimMarginMs rt + n - 1) (by rw [hrun]; omega)
    omega
  · intro h x hx reached hreached idle hidle
    have := Execution.run_le (x := x) (hx ▸ hn)
    omega

/-- **A live io execution is never reclaimable exactly when the bound covers its lane.** -/
theorem live_never_reclaimable_iff (lane : Lane) (hlane : lane ≠ .cpu) (vt rt : ℕ) (env : Envelope)
    (hpos : 1 ≤ env.timeoutMs) (hT : env.timeoutMs ≤ MAX_TIMEOUT_MS) :
    LiveNeverReclaimable lane vt rt env ↔ ReclaimCovers vt rt env.timeoutMs lane := by
  have hvt : visibilityTimeoutMs vt ≤ U64.max := U64.satMul_le_max _ _
  cases lane with
  | async =>
    rw [liveNeverReclaimable_iff_residence hT rfl (by omega), requiredIdleMs_some, ReclaimCovers]
    omega
  | sync =>
    rw [liveNeverReclaimable_iff_residence hT rfl (by omega), requiredIdleMs_some, ReclaimCovers]
    omega
  | cpu => exact absurd rfl hlane

/-- An envelope that only names its task. -/
def plainEnvelope (timeoutMs : ℕ) : Envelope := { id := "", task := "t", timeoutMs }

theorem live_never_reclaimable_async_default :
    LiveNeverReclaimable .async 60 5 (plainEnvelope 300_000) :=
  (live_never_reclaimable_iff .async (by decide) 60 5 (plainEnvelope 300_000) (by decide)
    (by decide)).2 (by decide)

/-- With the defaults a 300 s task that waits 299 s for a pool thread and then runs for 300 s is
reclaimable from idle time 307 s on, 292 s before its call returns. -/
theorem sync_task_reclaimable_while_running :
    ¬ LiveNeverReclaimable .sync 60 5 (plainEnvelope 300_000) := by
  intro h
  have := h (.sync true (.value 299_000 ()) .never) rfl 0 (by decide) 400_000 (by decide)
  revert this
  decide

end Cauli
