import Cauli.Lib.Parties
import Cauli.Lib.Transition
import Mathlib.Data.Int.Order.Basic
import Mathlib.Logic.Function.Iterate

/-!
# The sync io pool (`worker/src/pyrt.rs`)

A pool of threads serves one bounded job queue. A thread with nothing to do parks on a condition
variable; instead of one notification per job there is one *standby*, a woken thread that has not
yet reached its first `take`. A hard timeout abandons a thread and starts a replacement, up to a
ceiling. Each section of the queue's mutex and each access to the atomic counter is one step.

* `QueueState`, `waitForJob`, `recheck`, `take`, `wakeStandby`: the sections of the mutex;
* `notifyOne`: the condition variable wakes one parked thread, if there is one;
* `report`, `load`, `increment`, `spawn`: a call of `report_hard_timeout` in its atomic steps;
* `QueueOk`: parked threads are counted, and a waiting job has a standby on its way;
* `job_never_stranded`: for every interleaving;
* `live_threads_le_ceiling`: the ceiling holds as long as no load overlaps too many others.
-/

namespace Cauli.SyncPool

open Transition

/-- Where a pool thread is in its loop. -/
inductive Phase
  /-- Before `wait_for_job`. -/
  | outside
  /-- Asleep on `ready`, not notified. -/
  | parked
  /-- Notified or spuriously awake, the mutex not yet taken back. -/
  | woken
  /-- `wait_for_job` has returned and the first `take` is still ahead; `woke` says that the thread
  has slept. -/
  | arriving (woke : Bool)
  /-- In `run_sync_job`. -/
  | running
  /-- The thread has panicked. -/
  | dead
  deriving DecidableEq

/-- Counted in `parked`: a woken thread is, until it has the mutex. -/
def Phase.counted : Phase → Bool
  | .parked => true
  | .woken => true
  | _ => false

/-- Notified or woken, and its first `take` still ahead. -/
def Phase.coming : Phase → Bool
  | .woken => true
  | .arriving true => true
  | _ => false

/-- What the mutex of the queue protects. -/
structure QueueState (Job : Type*) where
  jobs : List Job := []
  parked : ℕ := 0
  standby : Bool := false

variable {Job : Type*}

namespace QueueState

/-- `wait_for_job` up to the `wait`: park if there is no job. -/
def waitForJob (q : QueueState Job) : QueueState Job × Phase :=
  if q.jobs.isEmpty then ({ q with parked := q.parked + 1 }, .parked) else (q, .arriving false)

/-- `wait_for_job` from the end of a `wait`: with no job left the thread stands down and parks
again. -/
def recheck (q : QueueState Job) : QueueState Job × Phase :=
  let q := { q with parked := q.parked - 1 }
  if q.jobs.isEmpty then waitForJob { q with standby := false } else (q, .arriving true)

/-- `take`, before it sees to a standby. -/
def take (q : QueueState Job) (arrived : Bool) : QueueState Job × Option Job :=
  let q := if arrived then { q with standby := false } else q
  ({ q with jobs := q.jobs.tail }, q.jobs.head?)

end QueueState

/-- `notify_one`: some parked thread is woken, `i` says which. With no thread parked nothing
happens. -/
def notifyOne (threads : List Phase) (i : ℕ) : Option (List Phase) :=
  if threads[i]? = some .parked then some (threads.set i .woken)
  else if Phase.parked ∈ threads then none
  else some threads

/-- `wake_standby`. -/
def wakeStandby (q : QueueState Job) (threads : List Phase) (i : ℕ) :
    Option (QueueState Job × List Phase) :=
  if !q.standby && decide (0 < q.parked) then
    (notifyOne threads i).map fun threads => ({ q with standby := true }, threads)
  else some (q, threads)

/-- The pool: its queue, its threads, its counters, and the calls of `report_hard_timeout` that are
before the load of `live_threads`, between load and increment, and between increment and spawn. -/
structure State (Job : Type*) where
  queue : QueueState Job := {}
  capacity : ℕ
  threads : List Phase := []
  maxThreads : ℤ
  abandoned : ℕ := 0
  liveThreads : ℤ := 0
  reported : ℕ := 0
  passed : ℕ := 0
  counted : ℕ := 0

namespace State

/-- `submit`; a full queue refuses the job. -/
def submit (s : State Job) (job : Job) (i : ℕ) : Option (State Job) :=
  if s.capacity ≤ s.queue.jobs.length then some s
  else
    (wakeStandby { s.queue with jobs := s.queue.jobs ++ [job] } s.threads i).map fun r =>
      { s with queue := r.1, threads := r.2 }

/-- A section of the mutex in which thread `t` only moves itself. -/
def moveThread (s : State Job) (t : ℕ) (r : QueueState Job × Phase) : State Job :=
  { s with queue := r.1, threads := s.threads.set t r.2 }

/-- `take` by thread `t`: it runs the job, or leaves the GIL and comes back to `wait_for_job`. -/
def take (s : State Job) (t : ℕ) (arrived : Bool) (i : ℕ) : Option (State Job) :=
  let r := s.queue.take arrived
  let threads := s.threads.set t (if r.2.isSome then .running else .outside)
  if r.1.jobs.isEmpty then some { s with queue := r.1, threads }
  else
    (wakeStandby r.1 threads i).map fun r => { s with queue := r.1, threads := r.2 }

/-- `report_hard_timeout` up to `spawn_worker`. -/
def report (s : State Job) : State Job :=
  { s with abandoned := s.abandoned + 1, reported := s.reported + 1 }

/-- The load of `spawn_worker`: at the ceiling the call returns. -/
def load (s : State Job) : Option (State Job) :=
  if s.reported = 0 then none
  else if s.maxThreads ≤ s.liveThreads then some { s with reported := s.reported - 1 }
  else some { s with reported := s.reported - 1, passed := s.passed + 1 }

/-- `live.fetch_add(1)`. -/
def increment (s : State Job) : Option (State Job) :=
  if s.passed = 0 then none
  else some { s with
    passed := s.passed - 1, counted := s.counted + 1, liveThreads := s.liveThreads + 1 }

/-- The thread is created; a failure panics in the caller and leaves the counter as it is. -/
def spawn (s : State Job) (created : Bool) : Option (State Job) :=
  if s.counted = 0 then none
  else some { s with
    counted := s.counted - 1
    threads := if created then s.threads ++ [.outside] else s.threads }

/-- `spawn_worker` with nothing in between. -/
def spawnWorker (s : State Job) : State Job :=
  if s.maxThreads ≤ s.liveThreads then s
  else { s with liveThreads := s.liveThreads + 1, threads := s.threads ++ [.outside] }

end State

/-- `SYNC_POOL_THREAD_CEILING_MULTIPLE`. -/
def SYNC_POOL_THREAD_CEILING_MULTIPLE : ℤ := 4

/-- `SyncPool::start`. -/
def start (Job : Type*) (threads queueCapacity : ℕ) : State Job :=
  let threads := max threads 1
  State.spawnWorker^[threads]
    { capacity := max queueCapacity 1
      maxThreads := threads * SYNC_POOL_THREAD_CEILING_MULTIPLE }

/-- A step of the pool: a submitted job, a section of the mutex in a pool thread, or an atomic step
of a call of `report_hard_timeout`. -/
inductive Label (Job : Type*)
  | submit (job : Job) (notified : ℕ)
  | waitForJob (t : ℕ)
  /-- A wait may end without a notification. -/
  | spuriousWakeup (t : ℕ)
  | recheck (t : ℕ)
  | take (t : ℕ) (notified : ℕ)
  /-- A job panics: the thread ends, its guard lowers the counter. -/
  | panic (t : ℕ)
  | report
  | load
  | increment
  | spawn (created : Bool)

/-- One step of the pool. -/
def step (s : State Job) : Label Job → Option (State Job)
  | .submit job i => s.submit job i
  | .waitForJob t =>
    if s.threads[t]? = some .outside then some (s.moveThread t s.queue.waitForJob) else none
  | .spuriousWakeup t =>
    if s.threads[t]? = some .parked then some (s.moveThread t (s.queue, .woken)) else none
  | .recheck t =>
    if s.threads[t]? = some .woken then some (s.moveThread t s.queue.recheck) else none
  | .take t i =>
    match s.threads[t]? with
    | some (.arriving _) => s.take t true i
    | some .running => s.take t false i
    | _ => none
  | .panic t =>
    if s.threads[t]? = some .running then
      some { s.moveThread t (s.queue, .dead) with liveThreads := s.liveThreads - 1 }
    else none
  | .report => some s.report
  | .load => s.load
  | .increment => s.increment
  | .spawn created => s.spawn created

/-- A pool started with any number of threads and any capacity. -/
def system (Job : Type*) : System (State Job) (Label Job) :=
  ⟨fun s => ∃ threads queueCapacity, s = start Job threads queueCapacity, step⟩

/-! ### The job queue -/

variable {q q' : QueueState Job} {threads threads' : List Phase} {t i : ℕ} {p p' : Phase}

/-- The parked threads are counted, and the standby is a thread on its way. -/
structure Sound (q : QueueState Job) (threads : List Phase) : Prop where
  parked : q.parked = threads.countP Phase.counted
  standby : q.standby = true → ∃ p ∈ threads, p.coming

/-- A waiting job has a standby, unless no thread is parked. -/
def Covered (q : QueueState Job) : Prop := q.jobs ≠ [] → 0 < q.parked → q.standby = true

/-- The invariant of the queue. -/
structure QueueOk (q : QueueState Job) (threads : List Phase) : Prop extends Sound q threads where
  covered : Covered q

/-- A thread that moves by itself. -/
theorem Sound.set (hok : Sound q threads) (h : threads[t]? = some p)
    (hparked : q'.parked + p.counted.toNat = q.parked + p'.counted.toNat)
    (hstandby : q'.standby = true → q.standby = true) (hcoming : q'.standby → p.coming → p'.coming) :
    Sound q' (threads.set t p') := by
  refine ⟨?_, fun hs => Parties.exists_set h (hcoming hs) (hok.standby (hstandby hs))⟩
  have := Parties.countP_set_add Phase.counted h p'
  have := hok.parked
  omega

/-- `notify_one` leaves a thread on its way whenever a thread is counted as parked. -/
theorem notifyOne_spec (h : notifyOne threads i = some threads') :
    threads'.countP Phase.counted = threads.countP Phase.counted ∧
      (0 < threads.countP Phase.counted → ∃ p ∈ threads', p.coming) := by
  unfold notifyOne at h
  split_ifs at h with hi hmem
  · cases h
    have hlt : i < threads.length := (List.getElem?_eq_some_iff.1 hi).1
    have hcount := Parties.countP_set_add Phase.counted hi .woken
    exact ⟨by simpa [Phase.counted] using hcount, fun _ => ⟨.woken, List.mem_set hlt _, rfl⟩⟩
  · cases h
    refine ⟨rfl, fun hpos => ?_⟩
    obtain ⟨p, hp, hcounted⟩ := List.countP_pos_iff.1 hpos
    -- nobody is asleep, so whoever is counted has been woken
    cases p with
    | woken => exact ⟨.woken, hp, rfl⟩
    | parked => exact absurd hp hmem
    | _ => cases hcounted

/-- **`wake_standby`** restores the invariant. -/
theorem Sound.wakeStandby (hok : Sound q threads)
    (h : wakeStandby q threads i = some (q', threads')) : QueueOk q' threads' := by
  unfold SyncPool.wakeStandby at h
  split_ifs at h with hc
  · obtain ⟨ts, hnotify, h⟩ := Option.map_eq_some_iff.1 h
    cases h
    obtain ⟨hcount, hcoming⟩ := notifyOne_spec hnotify
    have hpos : 0 < q.parked := by simp_all
    rw [hok.parked] at hpos
    exact ⟨⟨hok.parked.trans hcount.symm, fun _ => hcoming hpos⟩, fun _ _ => rfl⟩
  · cases h
    refine ⟨hok, fun _ hpos => ?_⟩
    simp_all

theorem QueueOk.waitForJob (hok : QueueOk q threads) (h : threads[t]? = some .outside) :
    QueueOk q.waitForJob.1 (threads.set t q.waitForJob.2) := by
  unfold QueueState.waitForJob
  split_ifs with hempty
  · refine ⟨hok.toSound.set h rfl id (fun _ => nofun), fun hne => ?_⟩
    exact absurd (List.isEmpty_iff.1 hempty) hne
  · exact ⟨hok.toSound.set h rfl id (fun _ => nofun), hok.covered⟩

theorem QueueOk.recheck (hok : QueueOk q threads) (h : threads[t]? = some .woken) :
    QueueOk q.recheck.1 (threads.set t q.recheck.2) := by
  have hpos : 0 < q.parked := by
    rw [hok.parked]
    exact List.countP_pos_iff.2 ⟨.woken, List.mem_of_getElem? h, rfl⟩
  unfold QueueState.recheck QueueState.waitForJob
  dsimp only
  split_ifs with hempty
  · refine ⟨hok.toSound.set h ?_ nofun nofun, fun hne => ?_⟩
    · show q.parked - 1 + 1 + 1 = q.parked + 1
      omega
    · exact absurd (List.isEmpty_iff.1 hempty) hne
  · refine ⟨hok.toSound.set h ?_ id fun _ _ => rfl, fun hne hlt => ?_⟩
    · show q.parked - 1 + 1 = q.parked + 0
      omega
    · exact hok.covered hne hpos

/-- Before it sees to a standby, `take` may leave a job uncovered; with no job left it does not. -/
theorem QueueOk.take (hok : QueueOk q threads) (h : threads[t]? = some p) (arrived : Bool)
    (hcounted : p.counted = false) (hp : p.coming → arrived = true) (hp' : p'.counted = false) :
    Sound (q.take arrived).1 (threads.set t p') := by
  refine hok.toSound.set h ?_ ?_ ?_
  · rw [hcounted, hp']
    cases arrived <;> rfl
  · cases arrived with
    | false => exact id
    | true => exact fun hs => Bool.noConfusion (hs : false = true)
  · cases arrived with
    | false => exact fun _ hc => Bool.noConfusion (hp hc)
    | true => exact fun hs => Bool.noConfusion (hs : false = true)

variable {s s' : State Job} {a : Label Job}

/-- Threads that neither come nor wait do not matter. -/
theorem QueueOk.spawn (hok : QueueOk q threads) : QueueOk q (threads ++ [.outside]) := by
  refine ⟨⟨?_, fun hs => ?_⟩, hok.covered⟩
  · rw [List.countP_append, ← hok.parked]
    rfl
  · obtain ⟨p, hp, hcoming⟩ := hok.standby hs
    exact ⟨p, List.mem_append_left _ hp, hcoming⟩

theorem queueOk_submit {job : Job} (hok : QueueOk s.queue s.threads)
    (h : s.submit job i = some s') : QueueOk s'.queue s'.threads := by
  unfold State.submit at h
  split_ifs at h
  · cases h
    exact hok
  · obtain ⟨r, hwake, rfl⟩ := Option.map_eq_some_iff.1 h
    have hsound : Sound { s.queue with jobs := s.queue.jobs ++ [job] } s.threads :=
      ⟨hok.parked, hok.standby⟩
    exact hsound.wakeStandby hwake

theorem queueOk_take {arrived : Bool} (hok : QueueOk s.queue s.threads)
    (hp : s.threads[t]? = some p) (hcounted : p.counted = false) (hcoming : p.coming → arrived = true)
    (h : s.take t arrived i = some s') : QueueOk s'.queue s'.threads := by
  have hsound : Sound (s.queue.take arrived).1
      (s.threads.set t (if (s.queue.take arrived).2.isSome then .running else .outside)) :=
    hok.take hp arrived hcounted hcoming (by split_ifs <;> rfl)
  unfold State.take at h
  dsimp only at h
  by_cases hempty : (s.queue.take arrived).1.jobs.isEmpty
  · rw [if_pos hempty] at h
    cases h
    exact ⟨hsound, fun hne => absurd (List.isEmpty_iff.1 hempty) hne⟩
  · rw [if_neg hempty] at h
    obtain ⟨r, hwake, rfl⟩ := Option.map_eq_some_iff.1 h
    exact hsound.wakeStandby hwake

/-- **One step** keeps the invariant of the queue. -/
theorem queueOk_step (hok : QueueOk s.queue s.threads) (h : step s a = some s') :
    QueueOk s'.queue s'.threads := by
  cases a with
  | submit job i => exact queueOk_submit hok h
  | waitForJob t =>
    obtain ⟨hp, h⟩ := Option.ite_none_right_eq_some.1 h
    cases h
    exact hok.waitForJob hp
  | spuriousWakeup t =>
    obtain ⟨hp, h⟩ := Option.ite_none_right_eq_some.1 h
    cases h
    exact ⟨hok.toSound.set hp rfl id fun _ _ => rfl, hok.covered⟩
  | recheck t =>
    obtain ⟨hp, h⟩ := Option.ite_none_right_eq_some.1 h
    cases h
    exact hok.recheck hp
  | take t i =>
    simp only [step] at h
    split at h
    case h_1 woke hp => exact queueOk_take hok hp rfl (fun _ => rfl) h
    case h_2 hp => exact queueOk_take hok hp rfl (fun hc => Bool.noConfusion hc) h
    case h_3 => cases h
  | panic t =>
    obtain ⟨hp, h⟩ := Option.ite_none_right_eq_some.1 h
    cases h
    exact ⟨hok.toSound.set hp rfl id fun _ => nofun, hok.covered⟩
  | report =>
    cases h
    exact hok
  | load =>
    simp only [step, State.load] at h
    split_ifs at h <;> cases h <;> exact hok
  | increment =>
    simp only [step, State.increment] at h
    split_ifs at h
    cases h
    exact hok
  | spawn created =>
    simp only [step, State.spawn] at h
    split_ifs at h <;> cases h
    · exact hok.spawn
    · exact hok

/-! ### The start of a pool -/

/-- What `n` sequential calls of `spawn_worker` below the ceiling do. -/
theorem iterate_spawnWorker (n : ℕ) (s : State Job) (h : s.liveThreads + n ≤ s.maxThreads) :
    State.spawnWorker^[n] s =
      { s with
        liveThreads := s.liveThreads + n
        threads := s.threads ++ List.replicate n .outside } := by
  induction n with
  | zero => simp
  | succ n ih =>
    push_cast at h
    rw [Function.iterate_succ_apply', ih (by omega), State.spawnWorker]
    dsimp only
    rw [if_neg (by omega), List.replicate_succ', List.append_assoc, Int.natCast_succ, Int.add_assoc]

theorem start_eq (threads queueCapacity : ℕ) :
    start Job threads queueCapacity =
      { capacity := max queueCapacity 1
        maxThreads := (max threads 1 : ℕ) * SYNC_POOL_THREAD_CEILING_MULTIPLE
        liveThreads := (max threads 1 : ℕ)
        threads := List.replicate (max threads 1) .outside } := by
  rw [start, iterate_spawnWorker]
  · simp
  · simp only [SYNC_POOL_THREAD_CEILING_MULTIPLE]
    omega

theorem queueOk_start (threads queueCapacity : ℕ) :
    QueueOk (start Job threads queueCapacity).queue (start Job threads queueCapacity).threads := by
  rw [start_eq]
  refine ⟨⟨?_, nofun⟩, fun hne => absurd rfl hne⟩
  simp [List.countP_replicate, Phase.counted]

/-- **Every reachable state** of a pool has a sound queue. -/
theorem queueOk_reachable (h : (system Job).Reachable System.anyStep s) :
    QueueOk s.queue s.threads := by
  refine System.Reachable.invariant (I := fun s => QueueOk s.queue s.threads) ?_
    (fun _ _ _ hok _ hstep => queueOk_step hok hstep) h
  rintro _ ⟨threads, queueCapacity, rfl⟩
  exact queueOk_start threads queueCapacity

/-- **No job is stranded**: while a job waits and a thread is asleep the standby is set, and a set
standby is a thread that was notified or woken and has not made its first `take`. So no job waits
with every idle thread asleep. -/
theorem job_never_stranded (h : (system Job).Reachable System.anyStep s) :
    (s.queue.jobs ≠ [] → .parked ∈ s.threads → s.queue.standby = true) ∧
    (s.queue.standby = true → .woken ∈ s.threads ∨ .arriving true ∈ s.threads) ∧
    (s.queue.jobs ≠ [] → .parked ∈ s.threads → .woken ∈ s.threads ∨ .arriving true ∈ s.threads) := by
  have hok := queueOk_reachable h
  have hstandby : s.queue.jobs ≠ [] → .parked ∈ s.threads → s.queue.standby = true := by
    intro hne hparked
    have hpos : 0 < s.queue.parked := by
      rw [hok.parked]
      exact List.countP_pos_iff.2 ⟨.parked, hparked, rfl⟩
    exact hok.covered hne hpos
  have hcoming : s.queue.standby = true → .woken ∈ s.threads ∨ .arriving true ∈ s.threads := by
    intro hs
    obtain ⟨p, hp, hcoming⟩ := hok.standby hs
    cases p with
    | woken => exact .inl hp
    | arriving woke =>
      cases woke with
      | true => exact .inr hp
      | false => cases hcoming
    | _ => cases hcoming
  exact ⟨hstandby, hcoming, fun hne hparked => hcoming (hstandby hne hparked)⟩

/-- Two threads park, two jobs come in: the first wakes thread `0`, the second finds a standby. -/
def twoJobs : List (Label Bool) :=
  [.waitForJob 0, .waitForJob 1, .submit true 0, .submit false 1]

theorem job_never_stranded_two_jobs :
    ∃ s, (system Bool).Reachable System.anyStep s ∧ s.queue.jobs = [true, false] ∧
      s.threads = [.woken, .parked] ∧ s.queue.standby = true := by
  have hreach := System.reachable_getD (M := system Bool) (s := start Bool 2 8)
    (C := System.anyStep) (l := twoJobs) ⟨2, 8, rfl⟩ (fun _ _ _ => trivial) rfl
  exact ⟨_, hreach, rfl, rfl, (job_never_stranded hreach).1 nofun (by decide)⟩

/-! ### The ceiling -/

/-- A load that passes the ceiling finds room also for the calls that have passed it before and not
yet raised the counter. -/
def LoadsAlone (s : State Job) : Label Job → Prop
  | .load => s.liveThreads < s.maxThreads → s.liveThreads + s.passed < s.maxThreads
  | _ => True

/-- The calls that have passed the ceiling have room under it. -/
def RoomOk (s : State Job) : Prop := s.liveThreads + s.passed ≤ s.maxThreads

theorem submit_frame {job : Job} (h : s.submit job i = some s') :
    ∃ q ts, s' = { s with queue := q, threads := ts } := by
  unfold State.submit at h
  split_ifs at h
  · cases h
    exact ⟨_, _, rfl⟩
  · obtain ⟨r, -, rfl⟩ := Option.map_eq_some_iff.1 h
    exact ⟨_, _, rfl⟩

theorem take_frame {arrived : Bool} (h : s.take t arrived i = some s') :
    ∃ q ts, s' = { s with queue := q, threads := ts } := by
  unfold State.take at h
  dsimp only at h
  by_cases hempty : (s.queue.take arrived).1.jobs.isEmpty
  · rw [if_pos hempty] at h
    cases h
    exact ⟨_, _, rfl⟩
  · rw [if_neg hempty] at h
    obtain ⟨r, -, rfl⟩ := Option.map_eq_some_iff.1 h
    exact ⟨_, _, rfl⟩

/-- What a step does to the counters: nothing, a load that passes, an increment or an exit. -/
theorem step_counters (h : step s a = some s') :
    s'.maxThreads = s.maxThreads ∧
      (s'.liveThreads = s.liveThreads ∧ s'.passed = s.passed ∨
        a = .load ∧ s.liveThreads < s.maxThreads ∧ s'.liveThreads = s.liveThreads ∧
          s'.passed = s.passed + 1 ∨
        s'.liveThreads = s.liveThreads + 1 ∧ s'.passed + 1 = s.passed ∨
        s'.liveThreads = s.liveThreads - 1 ∧ s'.passed = s.passed) := by
  cases a with
  | submit job i =>
    obtain ⟨q, ts, rfl⟩ := submit_frame h
    exact ⟨rfl, .inl ⟨rfl, rfl⟩⟩
  | waitForJob t | spuriousWakeup t | recheck t =>
    obtain ⟨-, h⟩ := Option.ite_none_right_eq_some.1 h
    cases h
    exact ⟨rfl, .inl ⟨rfl, rfl⟩⟩
  | take t i =>
    simp only [step] at h
    split at h
    case h_1 | h_2 =>
      obtain ⟨q, ts, rfl⟩ := take_frame h
      exact ⟨rfl, .inl ⟨rfl, rfl⟩⟩
    case h_3 => cases h
  | panic t =>
    obtain ⟨-, h⟩ := Option.ite_none_right_eq_some.1 h
    cases h
    exact ⟨rfl, .inr (.inr (.inr ⟨rfl, rfl⟩))⟩
  | report =>
    cases h
    exact ⟨rfl, .inl ⟨rfl, rfl⟩⟩
  | load =>
    simp only [step, State.load] at h
    split_ifs at h with _ hmax <;> cases h
    · exact ⟨rfl, .inl ⟨rfl, rfl⟩⟩
    · exact ⟨rfl, .inr (.inl ⟨rfl, Int.not_le.1 hmax, rfl, rfl⟩)⟩
  | increment =>
    simp only [step, State.increment] at h
    split_ifs at h with hpos
    cases h
    exact ⟨rfl, .inr (.inr (.inl ⟨rfl, Nat.sub_add_cancel (Nat.one_le_iff_ne_zero.2 hpos)⟩))⟩
  | spawn created =>
    simp only [step, State.spawn] at h
    split_ifs at h <;> cases h <;> exact ⟨rfl, .inl ⟨rfl, rfl⟩⟩

/-- **A step that meets the condition** keeps the room. -/
theorem roomOk_step (hok : RoomOk s) (hC : LoadsAlone s a) (h : step s a = some s') :
    RoomOk s' := by
  unfold RoomOk at hok ⊢
  obtain ⟨hmax, ⟨hlive, hpassed⟩ | ⟨rfl, hlt, hlive, hpassed⟩ | ⟨hlive, hpassed⟩ | ⟨hlive, hpassed⟩⟩ :=
    step_counters h
  · rw [hmax, hlive, hpassed]
    exact hok
  · have hroom : s.liveThreads + s.passed < s.maxThreads := hC hlt
    rw [hmax, hlive, hpassed]
    push_cast
    omega
  · omega
  · omega

theorem reach_maxThreads {C : State Job → Label Job → Prop} (h : (system Job).Reach C s s') :
    s'.maxThreads = s.maxThreads := by
  induction h with
  | refl => rfl
  | tail _ _ hstep ih => exact (step_counters hstep).1.trans ih

/-- All the calls that have passed the ceiling raise the counter. -/
theorem reach_increments (s : State Job) :
    ∃ s', (system Job).Reach System.anyStep s s' ∧
      s'.liveThreads = s.liveThreads + s.passed := by
  induction hn : s.passed generalizing s with
  | zero => exact ⟨s, .refl, by simp⟩
  | succ n ih =>
    have hstep : step s .increment = some { s with
        passed := n, counted := s.counted + 1, liveThreads := s.liveThreads + 1 } := by
      simp [step, State.increment, hn]
    obtain ⟨s', hreach, hlive⟩ := ih { s with
      passed := n, counted := s.counted + 1, liveThreads := s.liveThreads + 1 } rfl
    have hfirst : (system Job).Reach System.anyStep s _ :=
      System.Reach.refl.tail (a := .increment) trivial hstep
    refine ⟨s', hfirst.trans hreach, ?_⟩
    rw [hlive]
    push_cast
    omega

/-- **The ceiling of the pool**: a run in which every load that passes the ceiling leaves room for
the calls that have passed it and not yet raised the counter never exceeds it; and after any other
load the increments that follow exceed it. -/
theorem live_threads_le_ceiling (threads queueCapacity : ℕ) :
    (∀ s, (system Job).Reach LoadsAlone (start Job threads queueCapacity) s →
      s.liveThreads ≤ 4 * (max threads 1 : ℕ)) ∧
    ∀ s s', (system Job).Reach System.anyStep (start Job threads queueCapacity) s →
      step s .load = some s' → ¬LoadsAlone s .load →
      ∃ s'', (system Job).Reach System.anyStep s' s'' ∧
        4 * (max threads 1 : ℕ) < s''.liveThreads := by
  have hstart : (start Job threads queueCapacity).maxThreads = 4 * (max threads 1 : ℕ) := by
    rw [start_eq, SYNC_POOL_THREAD_CEILING_MULTIPLE, Int.mul_comm]
  refine ⟨fun s hreach => ?_, fun s s' hreach hload hC => ?_⟩
  · have hinit : RoomOk (start Job threads queueCapacity) := by
      rw [RoomOk, hstart, start_eq]
      dsimp only
      omega
    have hroom : RoomOk s := hreach.invariant hinit fun _ _ _ => roomOk_step
    have hmax := (reach_maxThreads hreach).trans hstart
    unfold RoomOk at hroom
    omega
  · have hmax := (reach_maxThreads hreach).trans hstart
    obtain ⟨hlt, hroom⟩ := Classical.not_imp.1 hC
    obtain ⟨s'', hincrements, hlive⟩ := reach_increments s'
    refine ⟨s'', hincrements, ?_⟩
    simp only [step, State.load] at hload
    split_ifs at hload with hzero hge
    · omega
    · cases hload
      rw [hlive, ← hmax]
      push_cast
      omega

/-- One hard timeout in a pool of one thread: its load stands alone, and a second thread starts. -/
theorem live_threads_le_ceiling_one_timeout :
    ∃ s, (system Unit).Reach LoadsAlone (start Unit 1 1) s ∧ s.threads = [.outside, .outside] ∧
      s.liveThreads = 2 ∧ s.liveThreads ≤ 4 * (max 1 1 : ℕ) := by
  have hload : LoadsAlone (start Unit 1 1).report .load := fun _ => by decide
  have hreach := (((System.Reach.refl (M := system Unit) (s := start Unit 1 1)).tail
    (a := .report) trivial rfl).tail (a := .load) hload rfl).tail (a := .increment) trivial rfl
  have hspawn : (system Unit).Reach LoadsAlone (start Unit 1 1) _ :=
    hreach.tail (a := Label.spawn true) trivial rfl
  exact ⟨_, hspawn, rfl, rfl, (live_threads_le_ceiling 1 1).1 _ hspawn⟩

/-- Four hard timeouts at once in a pool of one thread: all four load a counter of one. -/
def fourTimeouts : List (Label Unit) :=
  List.replicate 4 .report ++ List.replicate 4 .load ++ List.replicate 4 .increment

theorem ceiling_exceeded_by_four_timeouts :
    ¬∀ s, (system Unit).Reach System.anyStep (start Unit 1 1) s → s.liveThreads ≤ 4 * 1 := by
  intro h
  have hrun : (system Unit).run (start Unit 1 1) fourTimeouts =
      some { start Unit 1 1 with abandoned := 4, counted := 4, liveThreads := 5 } := rfl
  have hle := h _ (System.reach_of_run _ (fun _ _ _ => trivial) hrun)
  exact absurd hle (by decide)

end Cauli.SyncPool
