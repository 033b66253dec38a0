import Mathlib.Data.Int.Order.Basic
import Mathlib.Data.List.Basic
import Mathlib.Order.Nat
import Mathlib.Tactic.Ring
import Mathlib.Tactic.SplitIfs
import Cauli.Lib.Parties
import Cauli.Lib.Transition

/-!
# The clock of the worker (`worker/src/clock.rs`)

Absolute instants are read off the clock of Redis, which the worker asks for now and then and extrapolates
by its own monotonic clock in between. A reading loads the anchor and the elapsed time one after the other,
without a lock, while the sampler may be anywhere in `record`.

* `RedisClock`, `nowMs`, `timeReplyToMs`, `sample`: the clock, and what is computed of it;
* `step`: the steps of `init` and `sampler_loop`, of the readers and of the time;
* `extrapolated`: what a reading gives that goes back to a sample;
* `ClockOk`: what holds of the clock, of the readings under way and of the log;
* `reads_follow_redis`: how far a reading may be from the clock of Redis, and when an outage is reported.

Instants are nanoseconds of the monotonic clock of the process; `redis` and `host` say what the other two
clocks show then. Redis counts in microseconds, the host in nanoseconds since the epoch. When a tick of the
sampler comes is left open, and with it `sample_period`.
-/

namespace Cauli.Clock

open Transition

/-- `STALE_AFTER_MS`. -/
def STALE_AFTER_MS : ℤ := 90000

/-- `SKEW_WARN_MS`. -/
def SKEW_WARN_MS : ℤ := 1000

/-- The result of a saturating operation on `i64`. -/
def satI64 (n : ℤ) : ℤ := max (-2 ^ 63) (min n (2 ^ 63 - 1))

/-- `as_millis() as i64`. -/
def asMillis (d : ℕ) : ℤ := Int.bmod (d / 1000000 : ℕ) (2 ^ 64)

/-- `RedisClock`. -/
structure RedisClock where
  anchorMs : ℤ
  base : ℕ
  sampledAtMs : ℤ

/-- `RedisClock::anchored`. -/
def RedisClock.anchored (redisMs : ℤ) (now : ℕ) : RedisClock := ⟨redisMs, now, 0⟩

/-- `RedisClock::elapsed_ms`. -/
def RedisClock.elapsedMs (c : RedisClock) (now : ℕ) : ℤ := asMillis (now - c.base)

/-- `RedisClock::staleness_ms`. -/
def RedisClock.stalenessMs (c : RedisClock) (now : ℕ) : ℤ := c.elapsedMs now - c.sampledAtMs

/-- `RedisClock::now_ms`, from what its two loads gave. -/
def nowMs (anchorMs elapsedMs : ℤ) : ℕ := (satI64 (anchorMs + elapsedMs)).toNat

/-- `ctx::now_ms`, when the clock of the host shows `ns`. -/
def hostNowMs (ns : ℤ) : ℕ := if ns < 0 then 0 else ns.toNat / 1000000 % 2 ^ 64

/-- `time_reply_to_ms`. -/
def timeReplyToMs (secs micros : ℤ) : ℤ := satI64 (satI64 (secs * 1000) + micros.tdiv 1000)

/-- `sample`, when Redis runs the `TIME` at a time that it counts as `us`. -/
def sample (us : ℕ) : ℤ := timeReplyToMs (us / 1000000 : ℕ) (us % 1000000 : ℕ)

/-- What `sample` has returned: when Redis ran it, and the skew that `init` computes. -/
structure Reply where
  ran : ℕ
  redisMs : ℤ
  skewMs : Option ℤ

/-- Where `init` or a turn of `sampler_loop` is. -/
inductive Stage
  | idle
  | asked
  /-- Redis has run the `TIME`, and its answer is on its way. -/
  | told (ran : ℕ)
  | got (reply : Reply)
  /-- In `record`, before `CLOCK.set`. -/
  | publishing (reply : Reply) (taken : ℕ)
  /-- In `apply_sample`, before its first store. -/
  | anchoring (reply : Reply) (taken : ℕ)
  /-- Before its second store. -/
  | stamping (taken : ℕ) (skewMs : Option ℤ)
  | recorded (skewMs : Option ℤ)

/-- A sample that readers see, as a record: when Redis ran it, when the elapsed time was read for it, and
when the anchor was stored. -/
structure Sample where
  ran : ℕ
  taken : ℕ
  stored : ℕ

/-- A reading under way: what `CLOCK.get` and the first load gave, the anchor with the base it belongs to.
`count` is a record: how many samples had been stored. -/
structure Load where
  from_ : Option (ℤ × ℕ)
  loaded : ℕ
  count : ℕ

/-- A reading, as a record. -/
structure Reading where
  value : ℕ
  loaded : ℕ
  read : ℕ
  count : ℕ

/-- A line about an outage: a warning, with its `stale_ms` if there is a clock, or a recovery. `count` is a
record. -/
structure Outage where
  warns : Bool
  staleMs : Option ℤ
  logged : ℕ
  count : ℕ

/-- What `init` logs. -/
inductive InitLine
  | anchored (skewMs : ℤ)
  | disagrees (skewMs : ℤ)
  | fallingBack

/-- The worker; `starting` until `init` is over. `samples`, `reads` and the lines are records. -/
structure State where
  now : ℕ
  clock : Option RedisClock := none
  samplingWarned : Bool := false
  starting : Bool := true
  stage : Stage := .idle
  pending : List Load := []
  samples : List Sample := []
  reads : List Reading := []
  initLine : Option InitLine := none
  outages : List Outage := []

/-- The steps. -/
inductive Label
  | time (d : ℕ)
  /-- `init` or a tick sends `TIME`. -/
  | ask
  | redis
  | receive
  /-- `record` up to its read of the monotonic clock. -/
  | take
  /-- `CLOCK.set`, or the store of the anchor. -/
  | store
  /-- The store of `sampled_at_ms`. -/
  | stamp
  /-- What follows `record`. -/
  | log
  /-- `sample` returns an error. -/
  | fail
  /-- A reader calls `CLOCK.get` and loads the anchor. -/
  | load
  /-- The reader at this place reads the elapsed time, or the clock of the host. -/
  | read (i : ℕ)

variable (redis : ℕ → ℕ) (host : ℕ → ℤ)

/-- `sample` returns an error. -/
def State.fail (s : State) : State :=
  if s.starting then { s with stage := .idle, starting := false, initLine := some .fallingBack }
  else
    let staleMs := s.clock.map fun c => c.stalenessMs s.now
    if STALE_AFTER_MS ≤ staleMs.getD (2 ^ 63 - 1) ∧ ¬ s.samplingWarned then
      { s with
        stage := .idle
        samplingWarned := true
        outages := s.outages ++ [⟨true, staleMs, s.now, s.samples.length⟩] }
    else { s with stage := .idle }

/-- What follows `record`. -/
def State.log (s : State) (skewMs : Option ℤ) : State :=
  if s.starting then
    { s with
      stage := .idle
      starting := false
      initLine := skewMs.map fun ms => if SKEW_WARN_MS ≤ ms.natAbs then .disagrees ms else .anchored ms }
  else if s.samplingWarned then
    { s with
      stage := .idle
      samplingWarned := false
      outages := s.outages ++ [⟨false, none, s.now, s.samples.length⟩] }
  else { s with stage := .idle }

/-- The rest of a reading, at the time `now`. -/
def readValue (now : ℕ) : Option (ℤ × ℕ) → ℕ
  | some (anchorMs, base) => nowMs anchorMs (asMillis (now - base))
  | none => hostNowMs (host now)

/-- One step. -/
def step (s : State) : Label → Option State
  | .time d => some { s with now := s.now + d }
  | .ask =>
    match s.stage with
    | .idle => some { s with stage := .asked }
    | _ => none
  | .redis =>
    match s.stage with
    | .asked => some { s with stage := .told s.now }
    | _ => none
  | .receive =>
    match s.stage with
    | .told ran =>
      let redisMs := sample (redis ran)
      some { s with
        stage := .got ⟨ran, redisMs, if s.starting then some (redisMs - hostNowMs (host s.now)) else none⟩ }
    | _ => none
  | .take =>
    match s.stage with
    | .got reply =>
      match s.clock with
      | some _ => some { s with stage := .anchoring reply s.now }
      | none => some { s with stage := .publishing reply s.now }
    | _ => none
  | .store =>
    match s.stage, s.clock with
    | .publishing reply taken, none =>
      some { s with
        stage := .recorded reply.skewMs
        clock := some (.anchored reply.redisMs taken)
        samples := s.samples ++ [⟨reply.ran, taken, s.now⟩] }
    | .anchoring reply taken, some c =>
      some { s with
        stage := .stamping taken reply.skewMs
        clock := some { c with anchorMs := satI64 (reply.redisMs - c.elapsedMs taken) }
        samples := s.samples ++ [⟨reply.ran, taken, s.now⟩] }
    | _, _ => none
  | .stamp =>
    match s.stage with
    | .stamping taken skewMs =>
      some { s with
        stage := .recorded skewMs
        clock := s.clock.map fun c => { c with sampledAtMs := c.elapsedMs taken } }
    | _ => none
  | .log =>
    match s.stage with
    | .recorded skewMs => some (s.log skewMs)
    | _ => none
  | .fail =>
    match s.stage with
    | .asked | .told _ => some s.fail
    | _ => none
  | .load =>
    some { s with
      pending := s.pending ++ [⟨s.clock.map fun c => (c.anchorMs, c.base), s.now, s.samples.length⟩] }
  | .read i =>
    (s.pending[i]?).map fun load => { s with
      pending := s.pending.eraseIdx i
      reads := s.reads ++ [⟨readValue host s.now load.from_, load.loaded, s.now, load.count⟩] }

/-- The runs of a worker from its start. -/
def system : System State Label where
  init s := ∃ now, s = { now := now }
  step := step redis host

/-! ### What a reading gives -/

/-- The reading at `t` of a clock with the given base that has the anchor of a sample. -/
def extrapolated (base : ℕ) (p : Sample) (t : ℕ) : ℕ :=
  nowMs (satI64 (sample (redis p.ran) - asMillis (p.taken - base))) (asMillis (t - base))

/-- How much more than the monotonic clock Redis has counted between two instants. -/
def gain (a b : ℕ) : ℤ := (redis b * 1000 - redis a * 1000 : ℤ) - (b - a)

section Values

theorem asMillis_of_lt {d : ℕ} (hd : d < 2 ^ 63 * 1000000) : asMillis d = (d / 1000000 : ℕ) := by
  unfold asMillis
  have hlt : d / 1000000 < 2 ^ 63 := Nat.div_lt_of_lt_mul (by omega)
  exact Int.bmod_eq_of_le_mul_two (by omega) (by omega)

theorem satI64_of_mem {n : ℤ} (hlow : -2 ^ 63 ≤ n) (hhigh : n < 2 ^ 63) : satI64 n = n := by
  unfold satI64
  omega

/-- A reply of `TIME` is read as whole milliseconds. -/
theorem sample_of_lt {us : ℕ} (hus : us / 1000 < 2 ^ 63) : sample us = (us / 1000 : ℕ) := by
  unfold sample timeReplyToMs
  have hmicros : ((us % 1000000 : ℕ) : ℤ).tdiv 1000 = (us % 1000000 / 1000 : ℕ) := by
    rw [Int.tdiv_eq_ediv_of_nonneg (Int.natCast_nonneg _)]
    rfl
  rw [hmicros, satI64_of_mem (n := (us / 1000000 : ℕ) * 1000) (by omega) (by omega),
    satI64_of_mem (by omega) (by omega)]
  omega

variable {redis : ℕ → ℕ} {base t t' : ℕ} {p : Sample}

theorem extrapolated_eq (hle : p.taken ≤ t)
    (hredis : redis p.ran / 1000 + t / 1000000 < 2 ^ 63) :
    (extrapolated redis base p t : ℤ) =
      (redis p.ran / 1000 : ℕ) + ((t - base) / 1000000 : ℕ) - ((p.taken - base) / 1000000 : ℕ) := by
  have helapsed : (t - base) / 1000000 ≤ t / 1000000 := Nat.div_le_div_right (Nat.sub_le t base)
  have htaken : (p.taken - base) / 1000000 ≤ (t - base) / 1000000 :=
    Nat.div_le_div_right (Nat.sub_le_sub_right hle base)
  unfold extrapolated nowMs
  rw [sample_of_lt (by omega), asMillis_of_lt (by omega), asMillis_of_lt (by omega)]
  generalize redis p.ran / 1000 = ms at *
  generalize (t - base) / 1000000 = elapsed at *
  generalize (p.taken - base) / 1000000 = before at *
  rw [satI64_of_mem (n := (ms : ℤ) - before) (by omega) (by omega), satI64_of_mem (by omega) (by omega)]
  omega

/-- **A reading follows Redis**: it is off by how long the sample was on its way, by the drift since, and by
less than two milliseconds, of which less than one ahead. -/
theorem extrapolated_mem (hbase : base ≤ p.taken) (hle : p.taken ≤ t)
    (hredis : redis p.ran / 1000 + t / 1000000 < 2 ^ 63) :
    (redis t * 1000 : ℤ) < extrapolated redis base p t * 1000000 + (p.taken - p.ran) +
        gain redis p.ran t + 2 * 1000000 ∧
      extrapolated redis base p t * 1000000 + (p.taken - p.ran) + gain redis p.ran t <
        (redis t * 1000 : ℤ) + 1000000 := by
  rw [extrapolated_eq hle hredis, gain]
  omega

theorem extrapolated_mono (hle : p.taken ≤ t) (htt : t ≤ t')
    (hredis : redis p.ran / 1000 + t' / 1000000 < 2 ^ 63) :
    extrapolated redis base p t ≤ extrapolated redis base p t' := by
  have hdiv : t / 1000000 ≤ t' / 1000000 := Nat.div_le_div_right htt
  have helapsed : (t - base) / 1000000 ≤ (t' - base) / 1000000 :=
    Nat.div_le_div_right (Nat.sub_le_sub_right htt base)
  have h : (extrapolated redis base p t : ℤ) = _ := extrapolated_eq hle (by omega)
  have h' : (extrapolated redis base p t' : ℤ) = _ := extrapolated_eq (le_trans hle htt) hredis
  omega

end Values

/-! ### The invariant -/

/-- The anchor that the samples leave behind, with the base. -/
def anchorOf (samples : List Sample) : Option (ℤ × ℕ) :=
  match samples.head?, samples.getLast? with
  | some q, some p => some (satI64 (sample (redis p.ran) - asMillis (p.taken - q.taken)), q.taken)
  | _, _ => none

/-- The first `count` samples, and no others, were stored by the time `loaded`. -/
structure SeenOk (now : ℕ) (samples : List Sample) (loaded count : ℕ) : Prop where
  le : count ≤ samples.length
  past : loaded ≤ now
  before : ∀ p ∈ samples.take count, p.stored ≤ loaded
  after : ∀ p ∈ samples.drop count, loaded ≤ p.stored

/-- The times of the samples. -/
structure SamplesOk (now : ℕ) (samples : List Sample) : Prop where
  ran : ∀ p ∈ samples, p.ran ≤ p.taken
  taken : ∀ p ∈ samples, p.taken ≤ p.stored
  stored : ∀ p ∈ samples, p.stored ≤ now
  order : samples.Pairwise fun p q => p.stored ≤ q.taken

/-- What is known of a reply. -/
def Reply.Ok (now : ℕ) (reply : Reply) : Prop :=
  reply.ran ≤ now ∧ reply.redisMs = sample (redis reply.ran)

/-- Where the sampler is. After a store all outages so far are older than the newest sample. -/
def StageOk (s : State) : Stage → Prop
  | .idle | .asked => True
  | .told ran => ran ≤ s.now
  | .got reply => reply.Ok redis s.now
  | .publishing reply taken | .anchoring reply taken =>
    reply.Ok redis taken ∧ taken ≤ s.now ∧ ∀ p ∈ s.samples, p.stored ≤ taken
  | .stamping taken _ =>
    (∃ p, s.samples.getLast? = some p ∧ p.taken = taken) ∧ ∀ o ∈ s.outages, o.count < s.samples.length
  | .recorded _ => ∀ o ∈ s.outages, o.count < s.samples.length

/-- The second store of `apply_sample` is still to come. -/
def Stage.unstamped : Stage → Bool
  | .stamping .. => true
  | _ => false

/-- What a warning says: there is no sample, or the newest one is old. -/
def Outage.Stale (samples : List Sample) (o : Outage) : Prop :=
  o.staleMs = none ∧ o.count = 0 ∨
    ∃ ms q p, o.staleMs = some ms ∧ STALE_AFTER_MS ≤ ms ∧ (samples.take o.count).head? = some q ∧
      (samples.take o.count).getLast? = some p ∧
        ms = asMillis (o.logged - q.taken) - asMillis (p.taken - q.taken)

/-- The lines of the log. -/
structure OutagesOk (now : ℕ) (samples : List Sample) (warned : Bool) (outages : List Outage) : Prop where
  alternate : ∀ i o, outages[i]? = some o → o.warns = decide (i % 2 = 0)
  warned : warned = decide (outages.length % 2 = 1)
  seen : ∀ o ∈ outages, SeenOk now samples o.logged o.count
  recovers : ∀ i o o', outages[i]? = some o → outages[i + 1]? = some o' → o.warns = true →
    o.count < o'.count
  stale : ∀ o ∈ outages, o.warns = true → Outage.Stale samples o

/-- **What holds in every reachable state.** -/
structure ClockOk (s : State) : Prop where
  samples : SamplesOk s.now s.samples
  clock : (s.clock.map fun c => (c.anchorMs, c.base)) = anchorOf redis s.samples
  sampled : s.stage.unstamped = false → ∀ c p, s.clock = some c → s.samples.getLast? = some p →
    c.sampledAtMs = asMillis (p.taken - c.base)
  stage : StageOk redis s s.stage
  pending : ∀ l ∈ s.pending, SeenOk s.now s.samples l.loaded l.count ∧
    l.from_ = anchorOf redis (s.samples.take l.count)
  reads : ∀ r ∈ s.reads, r.loaded ≤ r.read ∧ r.read ≤ s.now ∧ SeenOk s.now s.samples r.loaded r.count ∧
    r.value = readValue host r.read (anchorOf redis (s.samples.take r.count))
  outages : OutagesOk s.now s.samples s.samplingWarned s.outages

section Invariant

variable {redis host} {s s' : State} {now now' : ℕ} {samples : List Sample} {p : Sample} {loaded count : ℕ}

theorem SeenOk.wait (h : SeenOk now samples loaded count) (hle : now ≤ now') :
    SeenOk now' samples loaded count :=
  ⟨h.le, h.past.trans hle, h.before, h.after⟩

/-- A sample that is stored later. -/
theorem SeenOk.concat (h : SeenOk now samples loaded count) (hp : loaded ≤ p.stored) :
    SeenOk now (samples ++ [p]) loaded count := by
  refine ⟨by simpa using Nat.le_succ_of_le h.le, h.past, fun q hq => ?_, fun q hq => ?_⟩
  · rw [List.take_append_of_le_length h.le] at hq
    exact h.before q hq
  · rw [List.drop_append_of_le_length h.le] at hq
    rcases List.mem_append.1 hq with hq | hq
    · exact h.after q hq
    · rw [List.mem_singleton.1 hq]
      exact hp

/-- All samples so far. -/
theorem SamplesOk.seen (h : SamplesOk now samples) : SeenOk now samples now samples.length := by
  refine ⟨le_rfl, le_rfl, fun p hp => h.stored p (List.mem_of_mem_take hp), ?_⟩
  rw [List.drop_length]
  nofun

theorem SamplesOk.wait (h : SamplesOk now samples) (hle : now ≤ now') : SamplesOk now' samples :=
  ⟨h.ran, h.taken, fun p hp => (h.stored p hp).trans hle, h.order⟩

theorem SamplesOk.concat (h : SamplesOk now samples) (hran : p.ran ≤ p.taken) (htaken : p.taken ≤ now)
    (hstored : p.stored = now) (hbefore : ∀ q ∈ samples, q.stored ≤ p.taken) :
    SamplesOk now (samples ++ [p]) := by
  have hall : ∀ {P : Sample → Prop}, (∀ q ∈ samples, P q) → P p → ∀ q ∈ samples ++ [p], P q := by
    intro P hP hp q hq
    rcases List.mem_append.1 hq with hq | hq
    · exact hP q hq
    · rw [List.mem_singleton.1 hq]
      exact hp
  refine ⟨hall h.ran hran, hall h.taken (by omega), hall h.stored hstored.le, ?_⟩
  refine List.pairwise_append.2 ⟨h.order, List.pairwise_singleton _ _, fun q hq p' hp' => ?_⟩
  rw [List.mem_singleton.1 hp']
  exact hbefore q hq

/-- The base is the first of the times at which samples were taken. -/
theorem SamplesOk.base_le (h : SamplesOk now samples) {q : Sample} (hq : samples.head? = some q)
    (hp : p ∈ samples) : q.taken ≤ p.taken := by
  cases samples with
  | nil => cases hq
  | cons a l =>
    cases hq
    rcases List.mem_cons.1 hp with rfl | hp
    · exact le_rfl
    · exact (h.taken _ List.mem_cons_self).trans (List.rel_of_pairwise_cons h.order hp)

theorem anchorOf_eq_none_iff : anchorOf redis samples = none ↔ samples = [] := by
  cases samples with
  | nil => simp [anchorOf]
  | cons q l => simp [anchorOf, List.getLast?_cons]

theorem anchorOf_of_getLast? {q : Sample} (hq : samples.head? = some q) (hp : samples.getLast? = some p) :
    anchorOf redis samples =
      some (satI64 (sample (redis p.ran) - asMillis (p.taken - q.taken)), q.taken) := by
  unfold anchorOf
  rw [hq, hp]

theorem exists_of_anchorOf {a : ℤ × ℕ} (h : anchorOf redis samples = some a) :
    ∃ q p, samples.head? = some q ∧ samples.getLast? = some p := by
  unfold anchorOf at h
  split at h
  · next q p hq hp => exact ⟨q, p, hq, hp⟩
  · cases h

theorem readValue_anchorOf {q : Sample} (hq : samples.head? = some q) (hp : samples.getLast? = some p)
    (t : ℕ) : readValue host t (anchorOf redis samples) = extrapolated redis q.taken p t := by
  rw [anchorOf_of_getLast? hq hp]
  rfl

theorem satI64_satI64 (n : ℤ) : satI64 (satI64 n) = satI64 n := by
  unfold satI64
  omega

/-- The anchor of the first sample. -/
theorem anchorOf_singleton : anchorOf redis [p] = some (sample (redis p.ran), p.taken) := by
  rw [anchorOf_of_getLast? (p := p) (q := p) rfl rfl, Nat.sub_self]
  have hzero : asMillis 0 = 0 := by decide
  rw [hzero, Int.sub_zero, sample, timeReplyToMs, satI64_satI64]

theorem OutagesOk.wait {warned : Bool} {outages : List Outage} (h : OutagesOk now samples warned outages)
    (hle : now ≤ now') : OutagesOk now' samples warned outages :=
  ⟨h.alternate, h.warned, fun o ho => (h.seen o ho).wait hle, h.recovers, h.stale⟩

theorem OutagesOk.concat {warned : Bool} {outages : List Outage} (h : OutagesOk now samples warned outages)
    (hp : p.stored = now) : OutagesOk now (samples ++ [p]) warned outages := by
  refine ⟨h.alternate, h.warned, fun o ho => (h.seen o ho).concat (hp ▸ (h.seen o ho).past), h.recovers,
    fun o ho hwarns => ?_⟩
  rw [Outage.Stale, List.take_append_of_le_length (h.seen o ho).le]
  exact h.stale o ho hwarns

/-- Another line. -/
theorem OutagesOk.push {warned : Bool} {outages : List Outage} {o : Outage}
    (h : OutagesOk now samples warned outages) (hwarns : o.warns = !warned)
    (hseen : SeenOk now samples o.logged o.count)
    (hrecovers : warned = true → ∀ q ∈ outages, q.count < o.count)
    (hstale : o.warns = true → o.Stale samples) :
    OutagesOk now samples (!warned) (outages ++ [o]) := by
  have hmem : ∀ {o'}, o' ∈ outages ++ [o] → o' ∈ outages ∨ o' = o := by
    intro o' ho
    simpa using ho
  have hparity := h.warned
  refine ⟨fun i o' ho => ?_, ?_, fun o' ho => ?_, fun i o₁ o₂ h₁ h₂ hw => ?_, fun o' ho => ?_⟩
  · rcases Parties.getElem?_concat_eq_some.1 ho with ho | ⟨rfl, rfl⟩
    · exact h.alternate i o' ho
    · rw [hwarns, hparity, ← decide_not, decide_eq_decide]
      omega
  · rw [hparity, List.length_append, List.length_singleton, ← decide_not, decide_eq_decide]
    omega
  · rcases hmem ho with ho | rfl
    · exact h.seen o' ho
    · exact hseen
  · rcases Parties.getElem?_concat_eq_some.1 h₂ with h₂ | ⟨hi, rfl⟩
    · rcases Parties.getElem?_concat_eq_some.1 h₁ with h₁ | ⟨rfl, -⟩
      · exact h.recovers i o₁ o₂ h₁ h₂ hw
      · have := (List.getElem?_eq_some_iff.1 h₂).1
        omega
    · rcases Parties.getElem?_concat_eq_some.1 h₁ with h₁ | ⟨hlen, -⟩
      · -- the line before the new one is a warning, so the new one is a recovery
        refine hrecovers ?_ o₁ (List.mem_of_getElem? h₁)
        have hodd := h.alternate i o₁ h₁
        rw [hw] at hodd
        have heven : i % 2 = 0 := of_decide_eq_true hodd.symm
        rw [hparity, decide_eq_true_iff]
        omega
      · omega
  · rcases hmem ho with ho | rfl
    · exact h.stale o' ho
    · exact hstale

theorem StageOk.wait {stage : Stage} (h : StageOk redis s stage) {d : ℕ} :
    StageOk redis { s with now := s.now + d } stage := by
  have hle : s.now ≤ s.now + d := Nat.le_add_right _ _
  cases stage with
  | idle | asked => trivial
  | told ran => exact h.trans hle
  | got reply => exact ⟨h.1.trans hle, h.2⟩
  | publishing reply taken | anchoring reply taken => exact ⟨h.1, h.2.1.trans hle, h.2.2⟩
  | stamping taken skewMs => exact h
  | recorded skewMs => exact h

/-- The base of a clock is that of its first sample. -/
theorem ClockOk.base (h : ClockOk redis host s) {c : RedisClock} (hc : s.clock = some c) :
    ∃ q p, s.samples.head? = some q ∧ s.samples.getLast? = some p ∧ c.base = q.taken := by
  have hclock := h.clock
  rw [hc, Option.map_some] at hclock
  obtain ⟨q, p, hq, hp⟩ := exists_of_anchorOf hclock.symm
  rw [anchorOf_of_getLast? hq hp, Option.some.injEq, Prod.mk.injEq] at hclock
  exact ⟨q, p, hq, hp, hclock.2⟩

/-- A clock without samples. -/
theorem ClockOk.samples_eq_nil (h : ClockOk redis host s) (hc : s.clock = none) : s.samples = [] := by
  have hclock := h.clock
  rw [hc] at hclock
  exact anchorOf_eq_none_iff.1 hclock.symm

/-- A step of the sampler that stores nothing. -/
theorem ClockOk.stays (h : ClockOk redis host s) {stage : Stage}
    (hstamped : s.stage.unstamped = stage.unstamped) (hstage : StageOk redis s stage) :
    ClockOk redis host { s with stage := stage } := by
  refine ⟨h.samples, h.clock, fun hst => h.sampled (hstamped.trans hst), ?_, h.pending, h.reads, h.outages⟩
  cases stage <;> exact hstage

/-- A sample is stored. -/
theorem ClockOk.store (h : ClockOk redis host s) {stage : Stage} {clock : Option RedisClock}
    (hran : p.ran ≤ p.taken) (htaken : p.taken ≤ s.now) (hstored : p.stored = s.now)
    (hbefore : ∀ q ∈ s.samples, q.stored ≤ p.taken)
    (hclock : (clock.map fun c => (c.anchorMs, c.base)) = anchorOf redis (s.samples ++ [p]))
    (hsampled : stage.unstamped = false → ∀ c, clock = some c → c.sampledAtMs = asMillis (p.taken - c.base))
    (hstage : (∃ taken skewMs, p.taken = taken ∧ stage = .stamping taken skewMs) ∨
      ∃ skewMs, stage = .recorded skewMs) :
    ClockOk redis host { s with stage := stage, clock := clock, samples := s.samples ++ [p] } := by
  have hlast : (s.samples ++ [p]).getLast? = some p := List.getLast?_concat
  have hfresh : ∀ o ∈ s.outages, o.count < (s.samples ++ [p]).length := by
    intro o ho
    have := (h.outages.seen o ho).le
    simp only [List.length_append, List.length_singleton]
    omega
  refine ⟨h.samples.concat hran htaken hstored hbefore, hclock, fun hst c q hc hq => ?_, ?_, fun l hl => ?_,
    fun r hr => ?_, h.outages.concat hstored⟩
  · obtain rfl : p = q := Option.some.inj (hlast.symm.trans hq)
    exact hsampled hst c hc
  · rcases hstage with ⟨taken, skewMs, htaken, rfl⟩ | ⟨skewMs, rfl⟩
    · exact ⟨⟨p, hlast, htaken⟩, hfresh⟩
    · exact hfresh
  · obtain ⟨hseen, hfrom⟩ := h.pending l hl
    refine ⟨hseen.concat (hstored ▸ hseen.past), ?_⟩
    rw [List.take_append_of_le_length hseen.le]
    exact hfrom
  · obtain ⟨hload, hread, hseen, hvalue⟩ := h.reads r hr
    refine ⟨hload, hread, hseen.concat (hstored ▸ hseen.past), ?_⟩
    rw [List.take_append_of_le_length hseen.le]
    exact hvalue

/-- A line is logged, or none. -/
theorem ClockOk.report (h : ClockOk redis host s) (hstamped : s.stage.unstamped = false)
    {warned starting : Bool} {line : Option InitLine} {outages : List Outage}
    (houtages : OutagesOk s.now s.samples warned outages) :
    ClockOk redis host { s with
      stage := .idle
      samplingWarned := warned
      starting := starting
      initLine := line
      outages := outages } :=
  ⟨h.samples, h.clock, fun _ => h.sampled hstamped, trivial, h.pending, h.reads, houtages⟩

/-- The sample fails. -/
theorem ClockOk.fail (h : ClockOk redis host s) (hstamped : s.stage.unstamped = false) :
    ClockOk redis host s.fail := by
  unfold State.fail
  dsimp only
  split_ifs with hstarting hwarn
  · exact h.report hstamped h.outages
  · obtain ⟨hstale, hwarned⟩ := hwarn
    have hwarned : s.samplingWarned = false := by simpa using hwarned
    have hpush := h.outages.push
      (o := ⟨true, s.clock.map fun c => c.stalenessMs s.now, s.now, s.samples.length⟩)
      (by rw [hwarned]; rfl) h.samples.seen (by rw [hwarned]; nofun) fun _ => ?_
    · rw [hwarned] at hpush
      exact h.report hstamped hpush
    rw [Outage.Stale, List.take_length]
    cases hc : s.clock with
    | none =>
      rw [h.samples_eq_nil hc]
      exact .inl ⟨rfl, rfl⟩
    | some c =>
      rw [hc, Option.map_some, Option.getD_some] at hstale
      obtain ⟨q, p, hq, hp, hbase⟩ := h.base hc
      refine .inr ⟨c.stalenessMs s.now, q, p, rfl, hstale, hq, hp, ?_⟩
      rw [RedisClock.stalenessMs, RedisClock.elapsedMs, h.sampled hstamped c p hc hp, hbase]
  · exact h.report hstamped h.outages

/-- What follows `record`. -/
theorem ClockOk.log (h : ClockOk redis host s) {skewMs : Option ℤ} (hst : s.stage = .recorded skewMs) :
    ClockOk redis host (s.log skewMs) := by
  have hstamped : s.stage.unstamped = false := by rw [hst]; rfl
  have hstage := h.stage
  rw [hst] at hstage
  unfold State.log
  split_ifs with hstarting hwarned
  · exact h.report hstamped h.outages
  · have hpush := h.outages.push (o := ⟨false, none, s.now, s.samples.length⟩) (by rw [hwarned]; rfl)
      h.samples.seen (fun _ => hstage) nofun
    rw [hwarned] at hpush
    exact h.report hstamped hpush
  · exact h.report hstamped h.outages

/-- The step lemma. -/
theorem ClockOk.step (h : ClockOk redis host s) {l : Label} (hs : Clock.step redis host s l = some s') :
    ClockOk redis host s' := by
  have hstage := h.stage
  cases l with
  | time d =>
    cases hs
    have hle : s.now ≤ s.now + d := Nat.le_add_right _ _
    refine ⟨h.samples.wait hle, h.clock, h.sampled, h.stage.wait, fun l hl => ?_, fun r hr => ?_,
      h.outages.wait hle⟩
    · exact ⟨(h.pending l hl).1.wait hle, (h.pending l hl).2⟩
    · obtain ⟨hload, hread, hseen, hvalue⟩ := h.reads r hr
      exact ⟨hload, hread.trans hle, hseen.wait hle, hvalue⟩
  | ask =>
    simp only [Clock.step] at hs
    split at hs
    · next hst =>
      cases hs
      exact h.stays (by rw [hst]; rfl) trivial
    · cases hs
  | redis =>
    simp only [Clock.step] at hs
    split at hs
    · next hst =>
      cases hs
      exact h.stays (by rw [hst]; rfl) le_rfl
    · cases hs
  | receive =>
    simp only [Clock.step] at hs
    split at hs
    · next ran hst =>
      cases hs
      rw [hst] at hstage
      exact h.stays (by rw [hst]; rfl) ⟨hstage, rfl⟩
    · cases hs
  | take =>
    simp only [Clock.step] at hs
    split at hs
    · next reply hst =>
      rw [hst] at hstage
      split at hs
      · cases hs
        exact h.stays (by rw [hst]; rfl) ⟨hstage, le_rfl, h.samples.stored⟩
      · cases hs
        exact h.stays (by rw [hst]; rfl) ⟨hstage, le_rfl, h.samples.stored⟩
    · cases hs
  | store =>
    simp only [Clock.step] at hs
    split at hs
    · next reply taken hst hc =>
      cases hs
      rw [hst] at hstage
      obtain ⟨⟨hran, hms⟩, htaken, hbefore⟩ := hstage
      have hnil : s.samples = [] := h.samples_eq_nil hc
      refine h.store hran htaken rfl hbefore ?_ (fun _ c hc => ?_) (.inr ⟨_, rfl⟩)
      · rw [hnil, List.nil_append, anchorOf_singleton, ← hms]
        rfl
      · cases hc
        show 0 = asMillis (taken - taken)
        rw [Nat.sub_self]
        decide
    · next reply taken c hst hc =>
      cases hs
      rw [hst] at hstage
      obtain ⟨⟨hran, hms⟩, htaken, hbefore⟩ := hstage
      refine h.store hran htaken rfl hbefore ?_ nofun (.inl ⟨_, _, rfl, rfl⟩)
      obtain ⟨q, p, hq, hp, hbase⟩ := h.base hc
      have hhead : (s.samples ++ [(⟨reply.ran, taken, s.now⟩ : Sample)]).head? = some q := by
        rw [List.head?_append, hq]
        rfl
      rw [anchorOf_of_getLast? hhead List.getLast?_concat, ← hms, ← hbase]
      rfl
    · cases hs
  | stamp =>
    simp only [Clock.step] at hs
    split at hs
    · next taken skewMs hst =>
      cases hs
      rw [hst] at hstage
      obtain ⟨⟨p, hp, rfl⟩, hfresh⟩ := hstage
      refine ⟨h.samples, ?_, fun _ c q hc hq => ?_, hfresh, h.pending, h.reads, h.outages⟩
      · rw [← h.clock, Option.map_map]
        rfl
      · obtain ⟨c', hc', rfl⟩ := Option.map_eq_some_iff.1 hc
        obtain rfl : p = q := Option.some.inj (hp.symm.trans hq)
        dsimp only [RedisClock.elapsedMs]
    · cases hs
  | log =>
    simp only [Clock.step] at hs
    split at hs
    · next skewMs hst =>
      cases hs
      exact h.log hst
    · cases hs
  | fail =>
    simp only [Clock.step] at hs
    split at hs
    · next hst =>
      cases hs
      exact h.fail (by rw [hst]; rfl)
    · next ran hst =>
      cases hs
      exact h.fail (by rw [hst]; rfl)
    · cases hs
  | load =>
    cases hs
    refine ⟨h.samples, h.clock, h.sampled, ?_, fun l hl => ?_, h.reads, h.outages⟩
    · cases hst : s.stage <;> rw [hst] at hstage <;> exact hstage
    · rcases List.mem_append.1 hl with hl | hl
      · exact h.pending l hl
      · obtain rfl := List.mem_singleton.1 hl
        exact ⟨h.samples.seen, by rw [List.take_length]; exact h.clock⟩
  | read i =>
    obtain ⟨l, hl, rfl⟩ := Option.map_eq_some_iff.1 hs
    refine ⟨h.samples, h.clock, h.sampled, ?_, fun l' hl' => h.pending l' (List.mem_of_mem_eraseIdx hl'),
      fun r hr => ?_, h.outages⟩
    · cases hst : s.stage <;> rw [hst] at hstage <;> exact hstage
    · rcases List.mem_append.1 hr with hr | hr
      · exact h.reads r hr
      · obtain rfl := List.mem_singleton.1 hr
        obtain ⟨hseen, hfrom⟩ := h.pending l (List.mem_of_getElem? hl)
        exact ⟨hseen.past, le_rfl, hseen, by rw [hfrom]⟩

theorem ClockOk.init (now : ℕ) : ClockOk redis host { now := now } where
  samples := ⟨nofun, nofun, nofun, .nil⟩
  clock := rfl
  sampled _ _ _ hc := by cases hc
  stage := trivial
  pending := nofun
  reads := nofun
  outages := ⟨nofun, rfl, nofun, nofun, nofun⟩

theorem ClockOk.of_reachable (h : (system redis host).Reachable System.anyStep s) : ClockOk redis host s :=
  h.invariant (by rintro s ⟨now, rfl⟩; exact .init now) fun _ _ _ hI _ hs => hI.step hs

/-- The last of the samples that were stored when a reading, or the log, looked. -/
theorem SeenOk.last (h : SeenOk now samples loaded count) (hsamples : SamplesOk now samples)
    (hpos : 0 < count) : ∃ q p, (samples.take count).head? = some q ∧ (samples.take count).getLast? = some p ∧
      samples[count - 1]? = some p ∧ p ∈ samples ∧ q.taken ≤ p.taken ∧ p.ran ≤ p.taken ∧
        p.taken ≤ p.stored ∧ p.stored ≤ loaded := by
  have hlt : count - 1 < samples.length := by
    have := h.le
    omega
  have hp : (samples.take count).getLast? = some samples[count - 1] := by
    rw [List.getLast?_take, if_neg hpos.ne', List.getElem?_eq_getElem hlt]
    rfl
  have hmem : samples[count - 1] ∈ samples.take count := List.mem_of_getLast? hp
  have hmem' : samples[count - 1] ∈ samples := List.getElem_mem hlt
  obtain ⟨q, hq⟩ : ∃ q, samples.head? = some q := by
    cases samples with
    | nil => cases hmem'
    | cons q l => exact ⟨q, rfl⟩
  refine ⟨q, samples[count - 1], ?_, hp, List.getElem?_eq_getElem hlt, hmem', hsamples.base_le hq hmem',
    hsamples.ran _ hmem', hsamples.taken _ hmem', h.before _ hmem⟩
  rw [List.head?_take, if_neg hpos.ne', hq]

end Invariant

/-- **Readings follow Redis.** In every run whose times stay in the range of the code's integers:
* a reading that finds no clock gives that of the host, and then no sample was stored before it looked; any
  other one goes back to the newest sample stored by then, and it is off the clock of Redis by what lies
  between the `TIME` and the read of the elapsed time for it, by the drift since and by less than two
  milliseconds, of which less than one ahead;
* readings that go back to the same sample never step back;
* warnings and recoveries alternate, a sample is stored between a warning and its recovery, and at a warning
  there never was a sample or the newest one is at least `STALE_AFTER_MS` old, but for one millisecond. -/
theorem reads_follow_redis (redis : ℕ → ℕ) (host : ℕ → ℤ) (s : State)
    (h : (system redis host).Reachable System.anyStep s)
    (hrange : ∀ p ∈ s.samples, redis p.ran / 1000 + s.now / 1000000 < 2 ^ 63) :
    (∀ r ∈ s.reads, r.loaded ≤ r.read ∧ (∀ p ∈ s.samples.drop r.count, r.loaded ≤ p.stored) ∧
      (r.count = 0 ∧ r.value = hostNowMs (host r.read) ∨
        0 < r.count ∧ ∃ p, s.samples[r.count - 1]? = some p ∧ p.ran ≤ p.taken ∧ p.taken ≤ p.stored ∧
          p.stored ≤ r.loaded ∧
          (redis r.read * 1000 : ℤ) < r.value * 1000000 + (p.taken - p.ran) + gain redis p.ran r.read +
            2 * 1000000 ∧
          r.value * 1000000 + (p.taken - p.ran) + gain redis p.ran r.read <
            (redis r.read * 1000 : ℤ) + 1000000)) ∧
    (∀ r ∈ s.reads, ∀ r' ∈ s.reads, r.count = r'.count → 0 < r.count → r.read ≤ r'.read →
      r.value ≤ r'.value) ∧
    (∀ i o, s.outages[i]? = some o → o.warns = decide (i % 2 = 0)) ∧
    (∀ i o o', s.outages[i]? = some o → s.outages[i + 1]? = some o' → o.warns = true →
      o.count < o'.count) ∧
    ∀ o ∈ s.outages, o.warns = true → (∀ p ∈ s.samples.drop o.count, o.logged ≤ p.stored) ∧
      (o.count = 0 ∨ ∃ p, s.samples[o.count - 1]? = some p ∧ p.taken + 89999 * 1000000 < o.logged) := by
  have hok := ClockOk.of_reachable h
  have hvalue : ∀ r ∈ s.reads, 0 < r.count → ∃ q p, s.samples.head? = some q ∧
      s.samples[r.count - 1]? = some p ∧ q.taken ≤ p.taken ∧ p.ran ≤ p.taken ∧ p.taken ≤ p.stored ∧
        p.stored ≤ r.loaded ∧ r.value = extrapolated redis q.taken p r.read ∧
          redis p.ran / 1000 + r.read / 1000000 < 2 ^ 63 := by
    intro r hr hpos
    obtain ⟨hload, hread, hseen, hvalue⟩ := hok.reads r hr
    obtain ⟨q, p, hq, hlast, hp, hmem, hbase, hran, htaken, hstored⟩ := hseen.last hok.samples hpos
    rw [readValue_anchorOf hq hlast] at hvalue
    rw [List.head?_take, if_neg hpos.ne'] at hq
    have hlt := hrange p hmem
    have hdiv : r.read / 1000000 ≤ s.now / 1000000 := Nat.div_le_div_right hread
    exact ⟨q, p, hq, hp, hbase, hran, htaken, hstored, hvalue, by omega⟩
  refine ⟨fun r hr => ?_, fun r hr r' hr' hcount hpos hle => ?_, hok.outages.alternate, hok.outages.recovers,
    fun o ho hwarns => ?_⟩
  · obtain ⟨hload, hread, hseen, hval⟩ := hok.reads r hr
    refine ⟨hload, hseen.after, ?_⟩
    rcases Nat.eq_zero_or_pos r.count with hzero | hpos
    · rw [hzero, List.take_zero] at hval
      exact .inl ⟨hzero, hval⟩
    · obtain ⟨q, p, -, hp, hbase, hran, htaken, hstored, hval, hlt⟩ := hvalue r hr hpos
      rw [hval]
      exact .inr ⟨hpos, p, hp, hran, htaken, hstored,
        extrapolated_mem hbase (htaken.trans (hstored.trans hload)) hlt⟩
  · obtain ⟨q, p, hq, hp, -, -, htaken, hstored, hval, -⟩ := hvalue r hr hpos
    obtain ⟨q', p', hq', hp', -, -, -, -, hval', hlt'⟩ := hvalue r' hr' (hcount ▸ hpos)
    obtain rfl : q = q' := Option.some.inj (hq.symm.trans hq')
    rw [hcount] at hp
    obtain rfl : p = p' := Option.some.inj (hp.symm.trans hp')
    rw [hval, hval']
    exact extrapolated_mono (htaken.trans (hstored.trans (hok.reads r hr).1)) hle hlt'
  · have hseen := hok.outages.seen o ho
    refine ⟨hseen.after, ?_⟩
    rcases Nat.eq_zero_or_pos o.count with hzero | hpos
    · exact .inl hzero
    obtain ⟨q, p, hq, hlast, hp, hmem, hbase, -, htaken, hstored⟩ := hseen.last hok.samples hpos
    rcases hok.outages.stale o ho hwarns with ⟨-, hzero⟩ | ⟨ms, q', p', -, hms, hq', hp', heq⟩
    · exact absurd hzero hpos.ne'
    · obtain rfl : q = q' := Option.some.inj (hq.symm.trans hq')
      obtain rfl : p = p' := Option.some.inj (hlast.symm.trans hp')
      have hlt := hrange p hmem
      have hdiv : o.logged / 1000000 ≤ s.now / 1000000 := Nat.div_le_div_right hseen.past
      rw [asMillis_of_lt (by omega), asMillis_of_lt (by omega)] at heq
      rw [heq, STALE_AFTER_MS] at hms
      exact .inr ⟨p, hp, by omega⟩

/-- `init` fails, a tick succeeds while two readings are under way, and after an outage of 90 seconds another
one is loaded in the middle of `record`. -/
def outage : List Label :=
  [.ask, .fail, .load, .time 1000000, .read 0, .time 15000000000, .ask, .time 200000, .redis, .time 300000,
    .receive, .load, .take, .store, .log, .time 2000000, .load, .read 0, .read 0, .time 90001000000, .ask,
    .fail, .ask, .redis, .receive, .take, .load, .store, .stamp, .log, .read 0]

/-- Redis gains a microsecond in twenty milliseconds. -/
def gaining (t : ℕ) : ℕ := 1770000000000000 + t / 1000 + t / 20000000

/-- A host whose clock is five seconds ahead. -/
def ahead (t : ℕ) : ℤ := 1770000005000000000 + t

/-- The state after `outage`. -/
def recovered : State := ((system gaining ahead).run { now := 0 } outage).getD { now := 0 }

theorem reads_follow_redis_recovered :
    recovered.reads.map (fun r => (r.value, r.count)) =
        [(1770000005001, 0), (1770000020003, 0), (1770000015003, 1), (1770000105004, 1)] ∧
      recovered.outages.map Outage.count = [1, 2] ∧
      (∀ r ∈ recovered.reads, ∀ r' ∈ recovered.reads, r.count = r'.count → 0 < r.count → r.read ≤ r'.read →
        r.value ≤ r'.value) := by
  have hreach : (system gaining ahead).Reachable System.anyStep recovered :=
    System.reachable_getD ⟨0, rfl⟩ (fun _ _ _ => trivial) (by rfl)
  have hsamples : recovered.samples =
      [⟨15001200000, 15001500000, 15001500000⟩, ⟨105004500000, 105004500000, 105004500000⟩] := by rfl
  have hnow : recovered.now = 105004500000 := by rfl
  have hrange : ∀ p ∈ recovered.samples, gaining p.ran / 1000 + recovered.now / 1000000 < 2 ^ 63 := by
    rw [hsamples, hnow]
    decide +kernel
  exact ⟨by decide +kernel, by rfl, (reads_follow_redis gaining ahead recovered hreach hrange).2.1⟩

end Cauli.Clock
